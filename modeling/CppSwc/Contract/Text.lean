import CppSwc.Contract.Register
import CppSwc.Lib.Json

/-!
# The list of nodes as text

`getAllNode` puts JSON together from the ids and properties as they were registered.  The
text is the array of the nodes if every id has only characters that stand for themselves and
every property is JSON.
-/

namespace CppSwc.NodeContract

open Lib Json

/-! ## Texts -/

/-- `char`. -/
def char (b : UInt8) : UInt8 := if b < 10 then b + 0x30 else b + 0x57

/-- `toAsciiString`. -/
def toAsciiString (x : Address) : Bytes :=
  (List.range 20).flatMap fun i =>
    let b := UInt8.ofNat (x.toNat / 2 ^ (8 * (19 - i)))
    let hi := b / 16
    let lo := b - 16 * hi
    [char hi, char lo]

/-- The second loop of `uint2hexstr`, which writes the digits from the last one on. -/
def hexDigits : Nat → U256 → Bytes → Bytes
  | 0, _, bstr => bstr
  | n + 1, i, bstr =>
      if i = 0 then bstr
      else
        let curr := UInt8.ofNat (i &&& 15).toNat
        hexDigits n (i >>> 4) ((if curr > 9 then 87 + curr else 48 + curr) :: bstr)

/-- `uint2hexstr`.  There are at most 64 digits. -/
def uint2hexstr (i : U256) : Bytes :=
  if i = 0 then ascii "0x0" else ascii "0x" ++ hexDigits 64 i []

/-- `strConcat`. -/
def strConcat (a b c : Bytes) : Bytes := a ++ b ++ c

/-- `getNode`. -/
def getNode (s : NodeContract) (id : Bytes) : Bytes :=
  let node := s.m_nodedata id
  let json := ascii "\x7b"
  let json :=
    if node.created = true then
      let json := strConcat json (ascii "\"id\":\"") id
      let json := strConcat json (ascii "\",\"account\":\"") (toAsciiString node.addr)
      let json := strConcat json (ascii "\",\"value\":\"") (uint2hexstr node.value)
      strConcat json (ascii "\",\"property\":") node.property
    else json
  strConcat json (ascii "\x7d") []

/-- The loop of `getAllNode`. -/
def appendNodes (s : NodeContract) (json : Bytes) : List Bytes → Bytes
  | [] => json
  | id :: ids =>
      let json := strConcat json (s.getNode id) []
      appendNodes s (if ids = [] then json else strConcat json (ascii ",") []) ids

/-- `getAllNode`. -/
def getAllNode (s : NodeContract) : Bytes :=
  strConcat (appendNodes s (ascii "[") s.m_nodeids) (ascii "]") []

/-! ## Characters that stand for themselves -/

theorem isPlain_char {b : UInt8} (h : b < 16) : IsPlain (char b) := by
  have hall : ∀ k : Fin 16, IsPlain (char (UInt8.ofNat k)) := by
    decide +kernel
  have hlt : b.toNat < 16 := h
  have hb := hall ⟨b.toNat, hlt⟩
  rwa [UInt8.ofNat_toNat] at hb

theorem isPlain_toAsciiString (x : Address) : ∀ b ∈ toAsciiString x, IsPlain b := by
  have hhi : ∀ b : UInt8, b / 16 < 16 := fun b => by
    rw [UInt8.lt_iff_toNat_lt, UInt8.toNat_div]
    have hb := b.toNat_lt
    show b.toNat / 16 < 16
    omega
  have hlo : ∀ b : UInt8, b - 16 * (b / 16) < 16 := fun b => by
    rw [UInt8.lt_iff_toNat_lt, UInt8.toNat_sub, UInt8.toNat_mul, UInt8.toNat_div]
    have hb := b.toNat_lt
    show (2 ^ 8 - 16 * (b.toNat / 16) % 2 ^ 8 + b.toNat) % 2 ^ 8 < 16
    omega
  intro b hb
  obtain ⟨i, -, hb⟩ := List.mem_flatMap.mp hb
  rcases List.mem_cons.mp hb with rfl | hb
  · exact isPlain_char (hhi _)
  · rw [List.mem_singleton.mp hb]
    exact isPlain_char (hlo _)

theorem isPlain_hexDigits (n : Nat) (i : U256) {bstr : Bytes} (h : ∀ b ∈ bstr, IsPlain b) :
    ∀ b ∈ hexDigits n i bstr, IsPlain b := by
  have hall : ∀ k : Fin 16, IsPlain (if UInt8.ofNat k > 9 then 87 + UInt8.ofNat k
      else 48 + UInt8.ofNat k) := by
    decide +kernel
  induction n generalizing i bstr with
  | zero => exact h
  | succ n ih =>
      unfold hexDigits
      split
      · exact h
      · apply ih
        intro b hb
        rcases List.mem_cons.mp hb with rfl | hb
        · have hlt : (i &&& 15).toNat < 16 := by
            rw [BitVec.toNat_and]
            exact Nat.lt_succ_of_le Nat.and_le_right
          exact hall ⟨_, hlt⟩
        · exact h b hb

theorem isPlain_uint2hexstr (i : U256) : ∀ b ∈ uint2hexstr i, IsPlain b := by
  unfold uint2hexstr
  split
  · decide +kernel
  · intro b hb
    rcases List.mem_append.mp hb with hb | hb
    · have hall : ∀ b ∈ ascii "0x", IsPlain b := by
        decide +kernel
      exact hall b hb
    · exact isPlain_hexDigits 64 i (fun _ h => absurd h List.not_mem_nil) b hb

/-! ## The array of the nodes -/

/-- The members of a node, with the value of its property. -/
def nodeMembers (id : Bytes) (node : NodeInfo) (property : Json) : List (List Chr × Json) :=
  [(plain (ascii "id"), .str (plain id)),
    (plain (ascii "account"), .str (plain (toAsciiString node.addr))),
    (plain (ascii "value"), .str (plain (uint2hexstr node.value))),
    (plain (ascii "property"), property)]

/-- The tokens of a node, with those of its property. -/
def nodeTokens (id : Bytes) (node : NodeInfo) (property : List Token) : List Token :=
  [.beginObject,
    .str (plain (ascii "id")), .colon, .str (plain id), .comma,
    .str (plain (ascii "account")), .colon, .str (plain (toAsciiString node.addr)), .comma,
    .str (plain (ascii "value")), .colon, .str (plain (uint2hexstr node.value)), .comma,
    .str (plain (ascii "property")), .colon] ++ property ++ [.endObject]

theorem scan_getNode {s : NodeContract} {id : Bytes} {tokens : List Token}
    (hcreated : (s.m_nodedata id).created = true) (hid : ∀ b ∈ id, IsPlain b)
    (hproperty : (scan (.between []) (s.m_nodedata id).property).tokens = some tokens)
    (before : List Token) : scan (.between before) (s.getNode id) =
      .between (before ++ nodeTokens id (s.m_nodedata id) tokens) := by
  have hopen : scan (.between before) (ascii "\x7b\"id\":\"") =
      .str (before ++ [.beginObject, .str (plain (ascii "id")), .colon]) [] := by
    rw [scan_between]
    rfl
  have haccount : ∀ done chars, scan (.str done chars) (ascii "\",\"account\":\"") =
      .str (done ++ [.str chars, .comma, .str (plain (ascii "account")), .colon]) [] := by
    intro done chars
    rw [scan_str]
    rfl
  have hvalue : ∀ done chars, scan (.str done chars) (ascii "\",\"value\":\"") =
      .str (done ++ [.str chars, .comma, .str (plain (ascii "value")), .colon]) [] := by
    intro done chars
    rw [scan_str]
    rfl
  have hlast : ∀ done chars, scan (.str done chars) (ascii "\",\"property\":") =
      .between (done ++ [.str chars, .comma, .str (plain (ascii "property")), .colon]) := by
    intro done chars
    rw [scan_str]
    rfl
  have hend := fun done => scan_text hproperty done (b := '\x7d'.toUInt8) (t := .endObject) rfl
    (by decide) rfl
  have htext : s.getNode id = ascii "\x7b\"id\":\"" ++ id ++
      ascii "\",\"account\":\"" ++ toAsciiString (s.m_nodedata id).addr ++
      ascii "\",\"value\":\"" ++ uint2hexstr (s.m_nodedata id).value ++
      ascii "\",\"property\":" ++ ((s.m_nodedata id).property ++ ['\x7d'.toUInt8]) := by
    rw [getNode]
    simp only [hcreated, if_true, strConcat, List.append_assoc, List.append_nil]
    rfl
  -- the property is read together with the brace that ends it
  generalize (s.m_nodedata id).property ++ ['\x7d'.toUInt8] = closed at htext hend
  rw [htext, scan_append, scan_append, scan_append, scan_append, scan_append, scan_append,
    scan_append, hopen, scan_plain hid, haccount, scan_plain (isPlain_toAsciiString _), hvalue,
    scan_plain (isPlain_uint2hexstr _), hlast, hend, nodeTokens]
  simp only [List.append_assoc, List.cons_append, List.nil_append]

theorem value_nodeTokens {id : Bytes} {node : NodeInfo} {tokens : List Token} {v : Json}
    (h : Value tokens v []) (rest : List Token) :
    Value (nodeTokens id node tokens ++ rest) (.obj (nodeMembers id node v)) rest := by
  have hproperty := h.append (.endObject :: rest)
  have htokens : nodeTokens id node tokens ++ rest =
      [.beginObject,
        .str (plain (ascii "id")), .colon, .str (plain id), .comma,
        .str (plain (ascii "account")), .colon, .str (plain (toAsciiString node.addr)), .comma,
        .str (plain (ascii "value")), .colon, .str (plain (uint2hexstr node.value)), .comma,
        .str (plain (ascii "property")), .colon] ++ (tokens ++ (.endObject :: rest)) := by
    rw [nodeTokens]
    simp only [List.append_assoc, List.singleton_append]
  rw [htokens]
  exact .object (.cons .str (.cons .str (.cons .str (.last hproperty))))

/-- The loop of `getAllNode` adds the items of an array. -/
theorem scan_appendNodes {s : NodeContract} (property : Bytes → Json) {ids : List Bytes}
    (hne : ids ≠ []) (hcreated : ∀ id ∈ ids, (s.m_nodedata id).created = true)
    (hplain : ∀ id ∈ ids, ∀ b ∈ id, IsPlain b)
    (hproperty : ∀ id ∈ ids, Text (s.m_nodedata id).property (property id)) :
    ∃ tokens, (∀ before json, scan (.between []) json = .between before →
        scan (.between []) (s.appendNodes json ids) = .between (before ++ tokens)) ∧
      ∀ rest, Items (tokens ++ .endArray :: rest)
        (ids.map fun id => .obj (nodeMembers id (s.m_nodedata id) (property id))) rest := by
  induction ids with
  | nil => exact absurd rfl hne
  | cons id ids ih =>
      obtain ⟨own, hown, hvalue⟩ := hproperty id (List.mem_cons_self ..)
      have hnode := scan_getNode (hcreated id (List.mem_cons_self ..))
        (hplain id (List.mem_cons_self ..)) hown
      by_cases hids : ids = []
      · subst hids
        refine ⟨nodeTokens id (s.m_nodedata id) own, fun before json hjson => ?_, fun rest => ?_⟩
        · rw [appendNodes, if_pos rfl, appendNodes, strConcat, List.append_nil, scan_append, hjson,
            hnode]
        · exact .last (value_nodeTokens hvalue _)
      · obtain ⟨tokens, hscan, hitems⟩ := ih hids
          (fun i hi => hcreated i (List.mem_cons_of_mem _ hi))
          (fun i hi => hplain i (List.mem_cons_of_mem _ hi))
          (fun i hi => hproperty i (List.mem_cons_of_mem _ hi))
        refine ⟨nodeTokens id (s.m_nodedata id) own ++ .comma :: tokens,
          fun before json hjson => ?_, fun rest => ?_⟩
        · have hcomma : scan (.between []) (json ++ s.getNode id ++ ascii ",") =
              .between (before ++ nodeTokens id (s.m_nodedata id) own ++ [.comma]) := by
            rw [scan_append, scan_append, hjson, hnode, scan_between]
            rfl
          rw [appendNodes, if_neg hids, strConcat, strConcat, List.append_nil, List.append_nil,
            hscan _ _ hcomma]
          simp only [List.append_assoc, List.singleton_append]
        · rw [List.append_assoc]
          exact .cons (value_nodeTokens hvalue _) (hitems rest)

/-- `getAllNode` is the array of the nodes. -/
theorem text_getAllNode {s : NodeContract} (property : Bytes → Json)
    (hcreated : ∀ id ∈ s.m_nodeids, (s.m_nodedata id).created = true)
    (hplain : ∀ id ∈ s.m_nodeids, ∀ b ∈ id, IsPlain b)
    (hproperty : ∀ id ∈ s.m_nodeids, Text (s.m_nodedata id).property (property id)) :
    Text s.getAllNode
      (.arr (s.m_nodeids.map fun id => .obj (nodeMembers id (s.m_nodedata id) (property id)))) := by
  have hopen : scan (.between []) (ascii "[") = .between [.beginArray] := rfl
  rw [getAllNode, strConcat, List.append_nil]
  by_cases hids : s.m_nodeids = []
  · rw [hids]
    exact ⟨[.beginArray, .endArray], rfl, .emptyArray⟩
  · obtain ⟨tokens, hscan, hitems⟩ := scan_appendNodes property hids hcreated hplain hproperty
    refine ⟨[.beginArray] ++ tokens ++ [.endArray], ?_, .array (hitems [])⟩
    rw [scan_append, hscan _ _ hopen, scan_between]
    rfl

end CppSwc.NodeContract
