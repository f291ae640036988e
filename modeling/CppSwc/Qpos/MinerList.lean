import CppSwc.Contract.Text
import CppSwc.Core.RlpBytes
import CppSwc.Qpos.State

/-!
# The list of miners

What `QposSealEngine` makes of the text that the node contract gives it.  json_spirit (in
`utils/json_spirit`) is a parameter, and what is assumed of it is `JsonSpirit.Exact`.

An entry that throws is skipped.  An entry without an id is read past the end of a map,
which is undefined.  If every id is hexadecimal and every property is JSON, there are only
the entries of the registered nodes, and each of them names its node.
-/

namespace CppSwc

open Lib Json

/-! ## json_spirit -/

/-- What is used of json_spirit. -/
structure JsonSpirit where
  /-- `read_string_or_throw`, which throws where it is `none`. -/
  read_string_or_throw : Bytes → Option Json
  /-- `get_str`, the string that the characters stand for. -/
  get_str : List Chr → Bytes

/-- The assumption on json_spirit: it parses exactly JSON, and a string without escapes is read as
it is. -/
structure JsonSpirit.Exact (J : JsonSpirit) : Prop where
  read : ∀ text v, J.read_string_or_throw text = some v ↔ Text text v
  get_str : ∀ text, J.get_str (plain text) = text

/-- `find` of an `mObject`, a map in which a later member replaces an earlier one. -/
def JsonSpirit.find (J : JsonSpirit) (o : List (List Chr × Json)) (key : Bytes) : Option Json :=
  (o.reverse.find? fun x => J.get_str x.1 == key).map Prod.snd

/-! ## Hexadecimal numbers -/

/-- `fromHexChar`, with `none` for -1. -/
def fromHexChar (c : UInt8) : Option UInt8 :=
  if '0'.toUInt8 ≤ c ∧ c ≤ '9'.toUInt8 then some (c - '0'.toUInt8)
  else if 'a'.toUInt8 ≤ c ∧ c ≤ 'f'.toUInt8 then some (c - 'a'.toUInt8 + 10)
  else if 'A'.toUInt8 ≤ c ∧ c ≤ 'F'.toUInt8 then some (c - 'A'.toUInt8 + 10)
  else none

/-- The loop of `fromHex`, over pairs of digits. -/
def fromHexPairs : Bytes → Option Bytes
  | a :: b :: rest => do
      let h ← fromHexChar a
      let l ← fromHexChar b
      let bytes ← fromHexPairs rest
      some ((h * 16 + l) :: bytes)
  | _ => some []

/-- `fromHex` with `WhenError::Throw`. -/
def fromHex (s : Bytes) : Option Bytes :=
  let digits := if s.take 2 = ascii "0x" then s.drop 2 else s
  if s.length % 2 = 1 then
    match digits with
    | c :: rest => do
        let h ← fromHexChar c
        let bytes ← fromHexPairs rest
        some (h :: bytes)
    | [] => some []
  else fromHexPairs digits

/-- `NodeID(id)`, which is zero if the size is wrong. -/
def nodeIdOfString (id : Bytes) : Option NodeID :=
  (fromHex id).map fun bytes =>
    if bytes.length = 64 then BitVec.ofNat 512 (fromBigEndian bytes) else 0

/-! ## Reading the list -/

/-- What goes wrong with the whole list. -/
inductive MinerListError where
  | badJson
  | notArray
  /-- `it->second` where `it` is the end of the map. -/
  | pastEnd
deriving DecidableEq, Repr

/-- `QposNode`. -/
structure QposNode where
  m_id : NodeID
  m_property : Bytes → Option Bytes

/-- `getValueMap`. -/
def getValueMap (J : JsonSpirit) (v : Json) : Bytes → Option Bytes :=
  match v with
  | .obj o => fun key =>
      match J.find o key with
      | some (.str chars) => some (J.get_str chars)
      | _ => none
  | _ => fun _ => none

/-- The object of an entry and its id.  There is `none` if the entry is skipped. -/
def readEntry (J : JsonSpirit) (v : Json) :
    Except MinerListError (Option (List (List Chr × Json) × Bytes)) :=
  match v with
  | .obj o =>
      match J.find o (ascii "id") with
      | none => .error .pastEnd
      | some (.str chars) => .ok (some (o, J.get_str chars))
      | some _ => .ok none
  | _ => .ok none

/-- `insert` of a set of `QposNode`, which are compared by their ids. -/
def insertQposNode (nodes : List QposNode) (node : QposNode) : List QposNode :=
  if nodes.any fun x => x.m_id == node.m_id then nodes else node :: nodes

/-- The loop of `strToQpos`. -/
def strToQposLoop (J : JsonSpirit) : List Json → List QposNode →
    Except MinerListError (List QposNode)
  | [], nodes => .ok nodes
  | v :: array, nodes =>
      match readEntry J v with
      | .error e => .error e
      | .ok none => strToQposLoop J array nodes
      | .ok (some (o, id)) =>
          let value := match J.find o (ascii "property") with
            | some property => getValueMap J property
            | none => fun _ => none
          match nodeIdOfString id with
          | none => strToQposLoop J array nodes
          | some n => strToQposLoop J array (insertQposNode nodes ⟨n, value⟩)

/-- `strToQpos`. -/
def strToQpos (J : JsonSpirit) (str : Bytes) : Except MinerListError (List QposNode) :=
  match J.read_string_or_throw str with
  | none => .error .badJson
  | some (.arr array) => strToQposLoop J array []
  | some _ => .error .notArray

/-- The loop of `strToNode`. -/
def strToNodeLoop (J : JsonSpirit) : List Json → NodeSet → Except MinerListError NodeSet
  | [], nodes => .ok nodes
  | v :: array, nodes =>
      match readEntry J v with
      | .error e => .error e
      | .ok none => strToNodeLoop J array nodes
      | .ok (some (_, id)) =>
          match nodeIdOfString id with
          | none => strToNodeLoop J array nodes
          | some n => strToNodeLoop J array (nodes.insert n)

/-- `strToNode`. -/
def strToNode (J : JsonSpirit) (str : Bytes) : Except MinerListError NodeSet :=
  match J.read_string_or_throw str with
  | none => .error .badJson
  | some (.arr array) => strToNodeLoop J array ∅
  | some _ => .error .notArray

/-! ## Ids -/

/-- The number that hexadecimal digits stand for. -/
def hexValue (id : Bytes) : Nat := id.foldl (fun acc b => acc * 16 + ((fromHexChar b).getD 0).toNat) 0

/-- The id of a node: its 128 digits. -/
structure Denotes (id : Bytes) (n : NodeID) : Prop where
  length : id.length = 128
  digits : ∀ b ∈ id, isHexDigit b = true
  value : n.toNat = hexValue id

/-- A property of every byte. -/
theorem byte_cases {P : UInt8 → Prop} (h : ∀ k : Fin 256, P (UInt8.ofNat k)) (b : UInt8) :
    P b := by
  have hb := h ⟨b.toNat, b.toNat_lt⟩
  rwa [UInt8.ofNat_toNat] at hb

theorem fromHexChar_of_isHexDigit {b : UInt8} (h : isHexDigit b = true) :
    ∃ d, fromHexChar b = some d ∧ d.toNat < 16 := by
  have hall : ∀ b, isHexDigit b = true →
      (fromHexChar b).isSome = true ∧ ((fromHexChar b).getD 0).toNat < 16 := by
    refine byte_cases ?_
    decide +kernel
  obtain ⟨hsome, hlt⟩ := hall b h
  obtain ⟨d, hd⟩ := Option.isSome_iff_exists.mp hsome
  rw [hd] at hlt
  exact ⟨d, hd, hlt⟩

theorem isPlain_of_isHexDigit {b : UInt8} (h : isHexDigit b = true) : IsPlain b := by
  have hall : ∀ b, isHexDigit b = true → IsPlain b := by
    refine byte_cases ?_
    decide +kernel
  exact hall b h

/-- Two digits are a byte. -/
theorem fromHexPairs_eq {id : Bytes} (heven : id.length % 2 = 0)
    (hdigits : ∀ b ∈ id, isHexDigit b = true) :
    ∃ bytes, fromHexPairs id = some bytes ∧ 2 * bytes.length = id.length ∧
      ∀ acc, bytes.foldl (fun acc b => acc * 256 + b.toNat) acc =
        id.foldl (fun acc b => acc * 16 + ((fromHexChar b).getD 0).toNat) acc := by
  induction id using fromHexPairs.induct with
  | case1 a b rest ih =>
      obtain ⟨h, hh, hlt⟩ := fromHexChar_of_isHexDigit (hdigits a (by simp))
      obtain ⟨l, hl, hlt'⟩ := fromHexChar_of_isHexDigit (hdigits b (by simp))
      simp only [List.length_cons] at heven
      obtain ⟨bytes, hbytes, hlength, hfold⟩ := ih (by omega)
        fun c hc => hdigits c (by simp [hc])
      refine ⟨(h * 16 + l) :: bytes, ?_, ?_, fun acc => ?_⟩
      · rw [fromHexPairs, hh, hl, hbytes]
        rfl
      · simp only [List.length_cons]
        omega
      · have hbyte : (h * 16 + l).toNat = h.toNat * 16 + l.toNat := by
          rw [UInt8.toNat_add, UInt8.toNat_mul]
          show (h.toNat * 16 % 256 + l.toNat) % 256 = _
          omega
        have hacc : acc * 256 + (h.toNat * 16 + l.toNat) =
            (acc * 16 + h.toNat) * 16 + l.toNat := by omega
        rw [List.foldl_cons, List.foldl_cons, List.foldl_cons, hfold, hbyte, hacc, hh, hl]
        rfl
  | case2 id hid =>
      cases id with
      | nil => exact ⟨[], rfl, rfl, fun acc => rfl⟩
      | cons a rest =>
          cases rest with
          | nil => simp at heven
          | cons b rest => exact absurd rfl (hid a b rest)

/-- An id of 128 digits names a node. -/
theorem denotes_iff {id : Bytes} (hlength : id.length = 128)
    (hdigits : ∀ b ∈ id, isHexDigit b = true) :
    ∃ n, nodeIdOfString id = some n ∧ ∀ n', Denotes id n' ↔ n' = n := by
  obtain ⟨bytes, hbytes, hsize, hfold⟩ := fromHexPairs_eq (by omega) hdigits
  have hno : id.take 2 ≠ ascii "0x" := by
    intro htake
    have hx : 'x'.toUInt8 ∈ id.take 2 := by
      rw [htake]
      decide
    exact absurd (hdigits _ (List.mem_of_mem_take hx)) (by decide)
  have hhex : fromHex id = some bytes := by
    rw [fromHex, if_neg hno, if_neg (by omega), hbytes]
  have hvalue : fromBigEndian bytes = hexValue id := hfold 0
  have hlt : hexValue id < 2 ^ 512 := by
    rw [← hvalue]
    have hbound := fromBigEndian_lt bytes
    rw [show bytes.length = 64 by omega] at hbound
    exact hbound.trans_eq (by rw [show 256 = 2 ^ 8 from rfl, ← Nat.pow_mul])
  refine ⟨BitVec.ofNat 512 (hexValue id), ?_, fun n' => ⟨fun h => ?_, ?_⟩⟩
  · rw [nodeIdOfString, hhex, Option.map_some, if_pos (by omega), hvalue]
  · apply BitVec.eq_of_toNat_eq
    rw [BitVec.toNat_ofNat, Nat.mod_eq_of_lt hlt, h.value]
  · rintro rfl
    refine ⟨hlength, hdigits, ?_⟩
    rw [BitVec.toNat_ofNat, Nat.mod_eq_of_lt hlt]

/-! ## The registered nodes -/

theorem strToNode_of_none {J : JsonSpirit} {str : Bytes} (h : J.read_string_or_throw str = none) :
    strToNode J str = .error .badJson := by
  rw [strToNode, h]

theorem readEntry_nodeMembers {J : JsonSpirit} (hJ : J.Exact) (id : Bytes) (node : NodeInfo)
    (v : Json) : readEntry J (.obj (NodeContract.nodeMembers id node v)) =
      .ok (some (NodeContract.nodeMembers id node v, id)) := by
  have hfind : J.find (NodeContract.nodeMembers id node v) (ascii "id") =
      some (.str (plain id)) := by
    simp only [JsonSpirit.find, NodeContract.nodeMembers, List.reverse_cons, List.reverse_nil,
      List.nil_append, List.cons_append, List.find?_cons, hJ.get_str]
    rfl
  rw [readEntry, hfind]
  dsimp only
  rw [hJ.get_str]

theorem strToNodeLoop_ok {J : JsonSpirit} (hJ : J.Exact) (data : Bytes → NodeInfo)
    (property : Bytes → Json) (name : Bytes → NodeID) {ids : List Bytes}
    (hname : ∀ id ∈ ids, nodeIdOfString id = some (name id)) (nodes : NodeSet) :
    ∃ nodes', strToNodeLoop J
        (ids.map fun id => .obj (NodeContract.nodeMembers id (data id) (property id))) nodes = .ok nodes' ∧
      ∀ n, n ∈ nodes' ↔ n ∈ nodes ∨ ∃ id ∈ ids, name id = n := by
  induction ids generalizing nodes with
  | nil => exact ⟨nodes, rfl, fun n => by simp⟩
  | cons id ids ih =>
      have hentry := readEntry_nodeMembers hJ id (data id) (property id)
      obtain ⟨nodes', hloop, hmem⟩ := ih (fun i hi => hname i (List.mem_cons_of_mem _ hi))
        (nodes.insert (name id))
      refine ⟨nodes', ?_, fun n => ?_⟩
      · rw [List.map_cons, strToNodeLoop, hentry]
        dsimp only
        rw [hname id (List.mem_cons_self ..)]
        exact hloop
      · rw [hmem, Std.ExtTreeSet.mem_insert, Std.LawfulEqOrd.compare_eq_iff_eq]
        simp only [List.mem_cons, exists_eq_or_imp]
        tauto

theorem strToQposLoop_ok {J : JsonSpirit} (hJ : J.Exact) (data : Bytes → NodeInfo)
    (property : Bytes → Json) (name : Bytes → NodeID) {ids : List Bytes}
    (hname : ∀ id ∈ ids, nodeIdOfString id = some (name id)) (nodes : List QposNode) :
    ∃ nodes', strToQposLoop J
        (ids.map fun id => .obj (NodeContract.nodeMembers id (data id) (property id))) nodes = .ok nodes' ∧
      ∀ n, (∃ x ∈ nodes', x.m_id = n) ↔ (∃ x ∈ nodes, x.m_id = n) ∨ ∃ id ∈ ids, name id = n := by
  induction ids generalizing nodes with
  | nil => exact ⟨nodes, rfl, fun n => by simp⟩
  | cons id ids ih =>
      have hentry := readEntry_nodeMembers hJ id (data id) (property id)
      have hinsert : ∀ node n, (∃ x ∈ insertQposNode nodes node, x.m_id = n) ↔
          (∃ x ∈ nodes, x.m_id = n) ∨ node.m_id = n := by
        intro node n
        unfold insertQposNode
        split
        · next hany =>
            obtain ⟨x, hx, heq⟩ := List.any_eq_true.mp hany
            rw [beq_iff_eq] at heq
            constructor
            · exact Or.inl
            · rintro (hn | hn)
              · exact hn
              · exact ⟨x, hx, heq.trans hn⟩
        · simp only [List.mem_cons, exists_eq_or_imp]
          exact or_comm
      obtain ⟨nodes', hloop, hmem⟩ := ih (fun i hi => hname i (List.mem_cons_of_mem _ hi))
        (insertQposNode nodes ⟨name id, _⟩)
      refine ⟨nodes', ?_, fun n => ?_⟩
      · rw [List.map_cons, strToQposLoop, hentry]
        dsimp only
        rw [hname id (List.mem_cons_self ..)]
        exact hloop
      · rw [hmem, hinsert, or_assoc]
        simp only [List.mem_cons, exists_eq_or_imp]

namespace NodeContract

/-- The nodes that are there can be told: every id is hexadecimal and every property is a
JSON text. -/
structure Readable (s : NodeContract) : Prop where
  ids : ∀ id, (s.m_nodedata id).created = true → ∀ b ∈ id, isHexDigit b = true
  properties : ∀ id, (s.m_nodedata id).created = true → ∃ v, Text (s.m_nodedata id).property v

/-- A node that is there has the id `n`. -/
def Registered (s : NodeContract) (n : NodeID) : Prop :=
  ∃ id, (s.m_nodedata id).created = true ∧ Denotes id n

/-- **The miners are the registered nodes**, where these can be told. -/
theorem miners_registered {J : JsonSpirit} (hJ : J.Exact) {s : NodeContract}
    (hreach : system.Reach (fun _ _ => True) s) (hreadable : s.Readable) :
    (∃ nodes, strToNode J s.getAllNode = .ok nodes ∧ ∀ n, n ∈ nodes ↔ s.Registered n) ∧
      ∃ nodes, strToQpos J s.getAllNode = .ok nodes ∧
        ∀ n, (∃ x ∈ nodes, x.m_id = n) ↔ s.Registered n := by
  have hlisted := listed_of_reach hreach
  have hcreated : ∀ id ∈ s.m_nodeids, (s.m_nodedata id).created = true :=
    fun id hid => (hlisted.mem id).mp hid
  have hname : ∀ id ∈ s.m_nodeids, ∃ n, nodeIdOfString id = some n ∧
      ∀ n', Denotes id n' ↔ n' = n := fun id hid =>
    denotes_iff (length_of_reach hreach id hid) (hreadable.ids id (hcreated id hid))
  have hjson : ∀ id ∈ s.m_nodeids, ∃ v, Text (s.m_nodedata id).property v :=
    fun id hid => hreadable.properties id (hcreated id hid)
  choose! name hname using hname
  choose! property hproperty using hjson
  have htext := (hJ.read _ _).mpr (text_getAllNode property hcreated
    (fun id hid b hb => isPlain_of_isHexDigit (hreadable.ids id (hcreated id hid) b hb)) hproperty)
  have hregistered : ∀ n, (∃ id ∈ s.m_nodeids, name id = n) ↔ s.Registered n := by
    intro n
    constructor
    · rintro ⟨id, hid, rfl⟩
      exact ⟨id, hcreated id hid, ((hname id hid).2 _).mpr rfl⟩
    · rintro ⟨id, hid, hdenotes⟩
      have hmem : id ∈ s.m_nodeids := (hlisted.mem id).mpr hid
      exact ⟨id, hmem, (((hname id hmem).2 n).mp hdenotes).symm⟩
  constructor
  · obtain ⟨nodes, hloop, hmem⟩ := strToNodeLoop_ok hJ s.m_nodedata property name
      (fun id hid => (hname id hid).1) ∅
    refine ⟨nodes, ?_, fun n => ?_⟩
    · rw [strToNode, htext]
      exact hloop
    · rw [hmem, hregistered]
      simp
  · obtain ⟨nodes, hloop, hmem⟩ := strToQposLoop_ok hJ s.m_nodedata property name
      (fun id hid => (hname id hid).1) []
    refine ⟨nodes, ?_, fun n => ?_⟩
    · rw [strToQpos, htext]
      exact hloop
    · rw [hmem, hregistered]
      simp

/-- The bytes of a character. -/
def chrBytes : Chr → Bytes
  | .plain b => [b]
  | .escape b =>
      if b = 'b'.toUInt8 then [8]
      else if b = 't'.toUInt8 then [9]
      else if b = 'n'.toUInt8 then [10]
      else if b = 'f'.toUInt8 then [12]
      else if b = 'r'.toUInt8 then [13]
      else [b]
  | .unicode digits =>
      let u := hexValue digits
      if u < 0x80 then [UInt8.ofNat u]
      else if u < 0x800 then [UInt8.ofNat (0xc0 + u / 64), UInt8.ofNat (0x80 + u % 64)]
      else [UInt8.ofNat (0xe0 + u / 4096), UInt8.ofNat (0x80 + u / 64 % 64),
        UInt8.ofNat (0x80 + u % 64)]

/-- A reader of JSON. -/
def jsonReader : JsonSpirit := ⟨parse, fun chars => chars.flatMap chrBytes⟩

theorem jsonReader_exact : jsonReader.Exact where
  read _ _ := parse_eq_some
  get_str text := by
    show (plain text).flatMap chrBytes = text
    induction text with
    | nil => rfl
    | cons b text ih =>
        rw [plain, List.map_cons, List.flatMap_cons, ← plain, ih]
        rfl

/-- The contract with one node. -/
def oneNode (property : Bytes) : NodeContract :=
  NodeContract.apply {} (⟨7, 0, true⟩, .registerNode 7 0 (List.replicate 128 97) property)

theorem reach_oneNode (property : Bytes) :
    system.Reach (fun _ _ => True) (oneNode property) := (System.Reach.init rfl).step trivial rfl

/-- The contract with two nodes. -/
def twoNodes : NodeContract :=
  NodeContract.apply (oneNode (ascii "\x7b\"host\": \"h\"\x7d"))
    (⟨8, 0, true⟩, .registerNode 8 0 (List.replicate 128 98) (ascii "[1, \"q\"]"))

/-- Both nodes are read back. -/
theorem miners_registered_two :
    ∃ s, system.Reach (fun _ _ => True) s ∧ s.m_nodeids.length = 2 ∧
      ∃ nodes, strToNode jsonReader s.getAllNode = .ok nodes ∧ ∀ n, n ∈ nodes ↔ s.Registered n := by
  have hreach : system.Reach (fun _ _ => True) twoNodes :=
    (reach_oneNode (ascii "\x7b\"host\": \"h\"\x7d")).step trivial rfl
  have hids : twoNodes.m_nodeids = [List.replicate 128 97, List.replicate 128 98] := by
    decide +kernel
  have htwo : ∀ id, (twoNodes.m_nodedata id).created = true →
      id = List.replicate 128 97 ∨ id = List.replicate 128 98 := by
    intro id hid
    have hmem := ((listed_of_reach hreach).mem id).mpr hid
    rw [hids] at hmem
    simpa using hmem
  refine ⟨twoNodes, hreach, by decide +kernel, (miners_registered jsonReader_exact hreach ?_).1⟩
  constructor
  · intro id hid b hb
    rcases htwo id hid with rfl | rfl
    all_goals
      rw [List.eq_of_mem_replicate hb]
      decide
  · intro id hid
    have hparse : (parse (twoNodes.m_nodedata id).property).isSome = true := by
      rcases htwo id hid with rfl | rfl <;> decide +kernel
    obtain ⟨v, hv⟩ := Option.isSome_iff_exists.mp hparse
    exact ⟨v, parse_eq_some.mp hv⟩

/-- A node is registered with an empty property, and the list is no JSON any more. -/
theorem miners_unreadable :
    ¬∀ J : JsonSpirit, J.Exact → ∀ s, system.Reach (fun _ _ => True) s →
      ∃ nodes, strToNode J s.getAllNode = .ok nodes := by
  intro h
  obtain ⟨nodes, hnodes⟩ := h jsonReader jsonReader_exact _ (reach_oneNode [])
  have hnone : (jsonReader.read_string_or_throw (oneNode []).getAllNode).isNone = true := by
    decide +kernel
  rw [strToNode_of_none (Option.isNone_iff_eq_none.mp hnone)] at hnodes
  cases hnodes

end NodeContract

end CppSwc
