import CppSwc.Core.BlockHeader
import CppSwc.Core.RlpBytes

/-!
# Block headers from bytes

`BlockHeader` of libethcore once more, this time from the bytes it is given.  The
seal fields are kept as bytes, as `m_seal` keeps them, and nobody looks into them.

Twelve of the thirteen basic fields are read with strict flags, so that their
bytes follow from their values.  `m_extraData` is read with `LaissezFaire`: a list
and a missing field both give the empty string, as the encoded empty string does.
`basic_eq_iff` says which bytes of a header its basic fields leave open.
-/

namespace CppSwc

open Lib

/-- What the modelled code calls below itself, on bytes. -/
structure Crypto where
  /-- `sha3`. -/
  sha3 : Bytes → H256
  /-- `trieRootOver` of the items of a list, keyed by their index. -/
  trieRootOver : List Bytes → H256
  /-- `dev::sign` with the secret of the node named by the public key. -/
  sign : NodeID → H256 → Signature
  /-- `dev::verify`. -/
  verify : NodeID → Signature → H256 → Bool

/-- The fields that `streamRLPFields` writes. -/
structure BasicFields where
  parentHash : H256
  sha3Uncles : H256
  author : BitVec 160
  stateRoot : H256
  transactionsRoot : H256
  receiptsRoot : H256
  logBloom : BitVec 2048
  difficulty : Nat
  number : Nat
  gasLimit : Nat
  gasUsed : Nat
  timestamp : Nat
  extraData : Bytes
deriving DecidableEq

/-- A `BlockHeader` populated from bytes. -/
structure WireHeader extends BasicFields where
  /-- `m_seal`. -/
  sealFields : List Bytes
  /-- `m_hash`. -/
  hash : H256
deriving DecidableEq

/-- The fields up to `m_timestamp`, as `streamRLPFields` writes them. -/
def BasicFields.strictItems (h : BasicFields) : List Bytes :=
  [RLP.appendHash 32 h.parentHash, RLP.appendHash 32 h.sha3Uncles, RLP.appendHash 20 h.author,
    RLP.appendHash 32 h.stateRoot, RLP.appendHash 32 h.transactionsRoot,
    RLP.appendHash 32 h.receiptsRoot, RLP.appendHash 256 h.logBloom,
    RLP.appendInt h.difficulty, RLP.appendInt h.number, RLP.appendInt h.gasLimit,
    RLP.appendInt h.gasUsed, RLP.appendInt h.timestamp]

/-- `streamRLPFields`. -/
def BasicFields.streamRLPFields (h : BasicFields) : List Bytes :=
  h.strictItems ++ [RLP.appendData h.extraData]

theorem BasicFields.nil_not_mem_strictItems (h : BasicFields) : [] ∉ h.strictItems := by
  simp only [strictItems, List.mem_cons, List.not_mem_nil, or_false, not_or]
  refine ⟨?_, ?_, ?_, ?_, ?_, ?_, ?_, ?_, ?_, ?_, ?_, ?_⟩
  all_goals exact (RLP.appendData_ne_nil _).symm

theorem BasicFields.streamRLPFields_injective {h h' : BasicFields}
    (heq : h.streamRLPFields = h'.streamRLPFields) : h = h' := by
  simp only [streamRLPFields, strictItems, List.cons_append, List.nil_append, List.cons.injEq,
    and_true] at heq
  obtain ⟨h0, h1, h2, h3, h4, h5, h6, h7, h8, h9, h10, h11, h12⟩ := heq
  cases h
  cases h'
  simp only [mk.injEq]
  exact ⟨RLP.appendHash_injective h0, RLP.appendHash_injective h1, RLP.appendHash_injective h2,
    RLP.appendHash_injective h3, RLP.appendHash_injective h4, RLP.appendHash_injective h5,
    RLP.appendHash_injective h6, RLP.appendInt_injective h7, RLP.appendInt_injective h8,
    RLP.appendInt_injective h9, RLP.appendInt_injective h10, RLP.appendInt_injective h11,
    RLP.appendData_injective h12⟩

namespace WireHeader

/-- `populate`. -/
def populate (C : Crypto) (header : Bytes) : Option WireHeader := do
  let field := RLP.item header
  let parentHash ← (field 0).bind (RLP.toHash 32)
  let sha3Uncles ← (field 1).bind (RLP.toHash 32)
  let author ← (field 2).bind (RLP.toHash 20)
  let stateRoot ← (field 3).bind (RLP.toHash 32)
  let transactionsRoot ← (field 4).bind (RLP.toHash 32)
  let receiptsRoot ← (field 5).bind (RLP.toHash 32)
  let logBloom ← (field 6).bind (RLP.toHash 256)
  let difficulty ← (field 7).bind (RLP.toInt 32)
  let number ← (field 8).bind RLP.toPositiveInt64
  let gasLimit ← (field 9).bind (RLP.toInt 32)
  let gasUsed ← (field 10).bind (RLP.toInt 32)
  let timestamp ← (field 11).bind RLP.toPositiveInt64
  let extraData ← (field 12).bind RLP.toBytes
  let items ← RLP.items header
  pure {
    parentHash, sha3Uncles, author, stateRoot, transactionsRoot, receiptsRoot, logBloom,
    difficulty, number, gasLimit, gasUsed, timestamp, extraData
    sealFields := items.drop 13
    hash := C.sha3 header }

/-- `extractHeader`: the header of a block, if header, transactions and uncles
are lists. -/
def extractHeader (block : Bytes) : Option Bytes := do
  let root ← RLP.ofBytes block
  guard (RLP.isList root)
  let header ← RLP.item root 0
  guard (RLP.isList header)
  let transactions ← RLP.item root 1
  guard (RLP.isList transactions)
  let uncles ← RLP.item root 2
  guard (RLP.isList uncles)
  pure header

/-- `BlockHeader(data, HeaderData)`. -/
def ofHeader (C : Crypto) (data : Bytes) : Option WireHeader :=
  (RLP.ofBytes data).bind (populate C)

/-- `BlockHeader(data)`, with the default `BlockData`. -/
def ofBlock (C : Crypto) (block : Bytes) : Option WireHeader :=
  (extractHeader block).bind (populate C)

/-- `streamRLP` with `WithoutSeal`. -/
def rlpWithoutSeal (h : WireHeader) : Bytes := RLP.appendList h.streamRLPFields.flatten

/-- `streamRLP` with `WithSeal`. -/
def rlpWithSeal (h : WireHeader) : Bytes :=
  RLP.appendList (h.streamRLPFields ++ h.sealFields).flatten

/-- `hash(WithoutSeal)`. -/
def hashWithoutSeal (C : Crypto) (h : WireHeader) : H256 := C.sha3 h.rlpWithoutSeal

/-! ## Verification -/

/-- `Strictness`. -/
inductive Strictness where
  | checkEverything
  | justSeal
  | quickNonce
  | ignoreSeal
  | checkNothingNew
deriving DecidableEq, Repr

/-- The exceptions of `verify`. -/
inductive HeaderError where
  | invalidNumber
  | tooMuchGasUsed
  | invalidParentHash
  | invalidTimestamp
  | badRLP
  | invalidTransactionsRoot
  | invalidUnclesHash
deriving DecidableEq, Repr

/-- The checks of `verify` against the parent. -/
def verifyParent (parent h : WireHeader) : Except HeaderError Unit :=
  if h.parentHash ≠ 0 ∧ parent.hash ≠ h.parentHash then .error .invalidParentHash
  else if h.timestamp ≤ parent.timestamp then .error .invalidTimestamp
  else if h.number ≠ parent.number + 1 then .error .invalidNumber
  else .ok ()

/-- The checks of `verify` against the block. -/
def verifyBody (C : Crypto) (block : Bytes) (h : WireHeader) : Except HeaderError Unit :=
  let read := do
    let root ← RLP.ofBytes block
    let transactions ← (RLP.item root 1).bind RLP.items
    let uncles ← RLP.item root 2
    pure (transactions, uncles)
  match read with
  | none => .error .badRLP
  | some (transactions, uncles) =>
      if h.transactionsRoot ≠ C.trieRootOver transactions then .error .invalidTransactionsRoot
      else if h.sha3Uncles ≠ C.sha3 uncles then .error .invalidUnclesHash
      else .ok ()

/-- `BlockHeader::verify`, and `SealEngineFace::verify`, which only calls it.
`none` is a parent that was not given, and the empty string a block that was not. -/
def verify (C : Crypto) (s : Strictness) (parent : Option WireHeader) (block : Bytes)
    (h : WireHeader) : Except HeaderError Unit := do
  if 2 ^ 32 - 1 < h.number then .error .invalidNumber
  if s ≠ .checkNothingNew ∧ h.gasLimit < h.gasUsed then .error .tooMuchGasUsed
  match parent with
  | none => pure ()
  | some parent => verifyParent parent h
  if block ≠ [] then verifyBody C block h

/-! ## What the basic fields say about the bytes -/

/-- A header as it was received, with the items it consists of. -/
structure Received (C : Crypto) (header : Bytes) (items : List Bytes) (h : WireHeader) : Prop where
  whole : ∀ x ∈ items, RLP.framing.Whole x
  header_eq : header = RLP.appendList items.flatten
  strict : items.take 12 = h.strictItems
  extraData : RLP.toBytes (items.getD 12 []) = some h.extraData
  sealFields : h.sealFields = items.drop 13
  hash : h.hash = C.sha3 header

/-- An item of a sequence is a whole item or past the end. -/
theorem nil_or_whole {items : List Bytes} (h : ∀ x ∈ items, RLP.framing.Whole x) (i : Nat) :
    items.getD i [] = [] ∨ RLP.framing.Whole (items.getD i []) := by
  rw [List.getD_eq_getElem?_getD]
  cases hi : items[i]? with
  | none => exact .inl rfl
  | some x => exact .inr (h x (List.mem_of_getElem? hi))

/-- Items that are found at their places make up the sequence. -/
theorem take_eq_of_getD {xs ys : List Bytes} (hne : [] ∉ ys)
    (h : ∀ i < ys.length, xs.getD i [] = ys.getD i []) : xs.take ys.length = ys := by
  induction ys generalizing xs with
  | nil => rfl
  | cons y ys ih =>
      rw [List.mem_cons, not_or] at hne
      cases xs with
      | nil => exact absurd (h 0 (by simp)) hne.1
      | cons x xs =>
          obtain rfl : x = y := h 0 (by simp)
          rw [List.length_cons, List.take_succ_cons, ih hne.2]
          intro i hi
          exact h (i + 1) (by simpa using hi)

/-- What `populate` reads was written so. -/
theorem received_of_populate {C : Crypto} {items : List Bytes} {h : WireHeader}
    (hlt : items.flatten.length < RLP.maxLength) (hwhole : ∀ x ∈ items, RLP.framing.Whole x)
    (hread : populate C (RLP.appendList items.flatten) = some h) :
    Received C (RLP.appendList items.flatten) items h := by
  have hsplit : RLP.framing.split items.flatten = some items := Framing.split_flatten hwhole
  have hfield := RLP.item_appendList hlt hsplit
  simp only [populate, hfield, RLP.items_appendList hlt hsplit, Option.bind_some] at hread
  obtain ⟨_, h0, hread⟩ := Option.bind_eq_some_iff.mp hread
  obtain ⟨_, h1, hread⟩ := Option.bind_eq_some_iff.mp hread
  obtain ⟨_, h2, hread⟩ := Option.bind_eq_some_iff.mp hread
  obtain ⟨_, h3, hread⟩ := Option.bind_eq_some_iff.mp hread
  obtain ⟨_, h4, hread⟩ := Option.bind_eq_some_iff.mp hread
  obtain ⟨_, h5, hread⟩ := Option.bind_eq_some_iff.mp hread
  obtain ⟨_, h6, hread⟩ := Option.bind_eq_some_iff.mp hread
  obtain ⟨_, h7, hread⟩ := Option.bind_eq_some_iff.mp hread
  obtain ⟨_, h8, hread⟩ := Option.bind_eq_some_iff.mp hread
  obtain ⟨_, h9, hread⟩ := Option.bind_eq_some_iff.mp hread
  obtain ⟨_, h10, hread⟩ := Option.bind_eq_some_iff.mp hread
  obtain ⟨_, h11, hread⟩ := Option.bind_eq_some_iff.mp hread
  obtain ⟨_, h12, hread⟩ := Option.bind_eq_some_iff.mp hread
  obtain rfl := Option.some.inj hread
  have hitem := nil_or_whole hwhole
  refine ⟨hwhole, rfl, ?_, h12, rfl, rfl⟩
  apply take_eq_of_getD (BasicFields.nil_not_mem_strictItems _)
  intro i hi
  rw [BasicFields.strictItems]
  match i, hi with
  | 0, _ => exact RLP.eq_appendHash_of_toHash (hitem 0) h0
  | 1, _ => exact RLP.eq_appendHash_of_toHash (hitem 1) h1
  | 2, _ => exact RLP.eq_appendHash_of_toHash (hitem 2) h2
  | 3, _ => exact RLP.eq_appendHash_of_toHash (hitem 3) h3
  | 4, _ => exact RLP.eq_appendHash_of_toHash (hitem 4) h4
  | 5, _ => exact RLP.eq_appendHash_of_toHash (hitem 5) h5
  | 6, _ =>
      have hbloom := RLP.eq_appendHash_of_toHash (hitem 6) h6
      simp only [hbloom, List.getD_cons_succ, List.getD_cons_zero]
  | 7, _ => exact RLP.eq_appendInt_of_toInt (hitem 7) h7
  | 8, _ => exact RLP.eq_appendInt_of_toPositiveInt64 (hitem 8) h8
  | 9, _ => exact RLP.eq_appendInt_of_toInt (hitem 9) h9
  | 10, _ => exact RLP.eq_appendInt_of_toInt (hitem 10) h10
  | 11, _ => exact RLP.eq_appendInt_of_toPositiveInt64 (hitem 11) h11

/-- A populated header was cut into items, the last of which are its seal. -/
theorem items_of_populate {C : Crypto} {header : Bytes} {h : WireHeader}
    (hread : populate C header = some h) :
    ∃ items, RLP.items header = some items ∧ h.sealFields = items.drop 13 := by
  simp only [populate] at hread
  obtain ⟨_, -, hread⟩ := Option.bind_eq_some_iff.mp hread
  obtain ⟨_, -, hread⟩ := Option.bind_eq_some_iff.mp hread
  obtain ⟨_, -, hread⟩ := Option.bind_eq_some_iff.mp hread
  obtain ⟨_, -, hread⟩ := Option.bind_eq_some_iff.mp hread
  obtain ⟨_, -, hread⟩ := Option.bind_eq_some_iff.mp hread
  obtain ⟨_, -, hread⟩ := Option.bind_eq_some_iff.mp hread
  obtain ⟨_, -, hread⟩ := Option.bind_eq_some_iff.mp hread
  obtain ⟨_, -, hread⟩ := Option.bind_eq_some_iff.mp hread
  obtain ⟨_, -, hread⟩ := Option.bind_eq_some_iff.mp hread
  obtain ⟨_, -, hread⟩ := Option.bind_eq_some_iff.mp hread
  obtain ⟨_, -, hread⟩ := Option.bind_eq_some_iff.mp hread
  obtain ⟨_, -, hread⟩ := Option.bind_eq_some_iff.mp hread
  obtain ⟨_, -, hread⟩ := Option.bind_eq_some_iff.mp hread
  obtain ⟨items, hitems, hread⟩ := Option.bind_eq_some_iff.mp hread
  obtain rfl := Option.some.inj hread
  exact ⟨items, hitems, rfl⟩

/-- The header of a block is an item and a list. -/
theorem whole_of_extractHeader {block header : Bytes} (h : extractHeader block = some header) :
    RLP.framing.Whole header ∧ RLP.isList header = true := by
  simp only [extractHeader] at h
  obtain ⟨root, -, h⟩ := Option.bind_eq_some_iff.mp h
  obtain ⟨_, -, h⟩ := Option.bind_eq_some_iff.mp h
  obtain ⟨header', hitem, h⟩ := Option.bind_eq_some_iff.mp h
  obtain ⟨_, hlist, h⟩ := Option.bind_eq_some_iff.mp h
  obtain ⟨_, -, h⟩ := Option.bind_eq_some_iff.mp h
  obtain ⟨_, -, h⟩ := Option.bind_eq_some_iff.mp h
  obtain ⟨_, -, h⟩ := Option.bind_eq_some_iff.mp h
  obtain ⟨_, -, h⟩ := Option.bind_eq_some_iff.mp h
  obtain rfl := Option.some.inj h
  have hlist : RLP.isList header' = true := by
    simpa [guard] using hlist
  rcases RLP.whole_of_item_zero hitem with rfl | hwhole
  · simp [RLP.isList] at hlist
  · exact ⟨hwhole, hlist⟩

/-- **The header of a block is what `streamRLP` writes for its items.** -/
theorem received_of_ofBlock {C : Crypto} {block : Bytes} {h : WireHeader}
    (hread : ofBlock C block = some h) :
    ∃ header items, extractHeader block = some header ∧ RLP.items header = some items ∧
      Received C header items h := by
  obtain ⟨header, hextract, hread⟩ := Option.bind_eq_some_iff.mp hread
  obtain ⟨hwhole, hlist⟩ := whole_of_extractHeader hextract
  obtain ⟨s, hs, rfl⟩ := RLP.eq_appendList_of_isList hwhole hlist
  obtain ⟨items, hitems, -⟩ := items_of_populate hread
  have hsplit : RLP.framing.split s = some items := by
    rw [RLP.items, if_pos hlist, RLP.payload_appendList hs, Option.bind_some] at hitems
    exact hitems
  obtain rfl := Framing.flatten_of_split hsplit
  exact ⟨_, items, hextract, hitems,
    received_of_populate hs (Framing.whole_of_split hsplit) hread⟩

/-! ## Equal hashes -/

section Equal

variable {C : Crypto} {header header' : Bytes} {items items' : List Bytes} {h h' : WireHeader}

/-- Extra data that are read are short enough to be written. -/
theorem Received.extraData_lt (hr : Received C header items h) :
    h.extraData.length < RLP.maxLength := by
  have hextra := hr.extraData
  rcases nil_or_whole hr.whole 12 with hnil | hwhole
  · rw [hnil] at hextra
    rw [← Option.some.inj hextra]
    decide
  · obtain ⟨s, hs, heq | heq⟩ := RLP.eq_append_of_whole hwhole
    · rw [heq, RLP.toBytes_appendData hs] at hextra
      exact Option.some.inj hextra ▸ hs
    · rw [heq, RLP.toBytes_appendList hs] at hextra
      rw [← Option.some.inj hextra]
      decide

theorem Received.whole_streamRLPFields (hr : Received C header items h) :
    ∀ x ∈ h.streamRLPFields, RLP.framing.Whole x := by
  intro x hx
  rw [BasicFields.streamRLPFields, List.mem_append, List.mem_singleton] at hx
  rcases hx with hx | rfl
  · rw [← hr.strict] at hx
    exact hr.whole x (List.mem_of_mem_take hx)
  · exact RLP.whole_appendData hr.extraData_lt

/-- What is written without the seal is the basic fields. -/
theorem Received.basic_eq_of_rlpWithoutSeal (hr : Received C header items h)
    (hr' : Received C header' items' h') (heq : h.rlpWithoutSeal = h'.rlpWithoutSeal) :
    h.toBasicFields = h'.toBasicFields :=
  BasicFields.streamRLPFields_injective
    (Framing.flatten_injective hr.whole_streamRLPFields hr'.whole_streamRLPFields
      (RLP.appendList_injective heq))

/-- The bytes of a header are its items. -/
theorem Received.header_eq_iff (hr : Received C header items h)
    (hr' : Received C header' items' h') : header = header' ↔ items = items' := by
  constructor
  · intro heq
    rw [hr.header_eq, hr'.header_eq] at heq
    exact Framing.flatten_injective hr.whole hr'.whole (RLP.appendList_injective heq)
  · rintro rfl
    rw [hr.header_eq, hr'.header_eq]

/-- **Basic fields leave the items from the extra data on open.** -/
theorem Received.items_eq_iff (hr : Received C header items h)
    (hr' : Received C header' items' h') (hbasic : h.toBasicFields = h'.toBasicFields) :
    items = items' ↔ items.drop 12 = items'.drop 12 := by
  have htake : items.take 12 = items'.take 12 := by rw [hr.strict, hr'.strict, hbasic]
  constructor
  · rintro rfl
    rfl
  · intro hdrop
    rw [← List.take_append_drop 12 items, htake, hdrop, List.take_append_drop]

end Equal

end WireHeader

/-! ## The bytes of a tree -/

mutual

/-- The bytes of an item. -/
def Rlp.encode : Rlp → Bytes
  | .null => []
  | .data bytes => RLP.appendData bytes
  | .list items => RLP.appendList (Rlp.encodeItems items)

/-- The bytes of items, one after the other. -/
def Rlp.encodeItems : List Rlp → Bytes
  | [] => []
  | item :: items => item.encode ++ Rlp.encodeItems items

end

/-- The primitives as the readers of trees see them. -/
def Crypto.prims (C : Crypto) (payload : Bytes → List Rlp) : Prims where
  sha3 item := C.sha3 item.encode
  trieRootOver items := C.trieRootOver (items.map Rlp.encode)
  sign := C.sign
  verify := C.verify
  payload := payload

namespace Rlp

theorem encodeItems_eq_flatten (xs : List Rlp) : encodeItems xs = (xs.map encode).flatten := by
  induction xs with
  | nil => rfl
  | cons x xs ih => rw [encodeItems, ih, List.map_cons, List.flatten_cons]

theorem length_encode_le {x : Rlp} {xs : List Rlp} (hx : x ∈ xs) :
    x.encode.length ≤ (encodeItems xs).length := by
  induction xs with
  | nil => exact absurd hx List.not_mem_nil
  | cons y xs ih =>
      rw [encodeItems, List.length_append]
      rcases List.mem_cons.mp hx with rfl | hx
      · omega
      · have := ih hx
        omega

theorem length_le_appendData (s : Bytes) : s.length ≤ (RLP.appendData s).length := by
  rcases RLP.appendData_cases s with ⟨b, rfl, -, happend⟩ | ⟨happend, -⟩
  · simp [happend]
  · simp [happend]

theorem length_le_appendList (s : Bytes) : s.length ≤ (RLP.appendList s).length := by
  simp [RLP.appendList]

variable {x : Rlp} (hx : x.encode.length < RLP.maxLength)
include hx

theorem whole_encode (hnull : x ≠ .null) : RLP.framing.Whole x.encode := by
  cases x with
  | null => exact absurd rfl hnull
  | data bytes => exact RLP.whole_appendData ((length_le_appendData bytes).trans_lt hx)
  | list items => exact RLP.whole_appendList ((length_le_appendList _).trans_lt hx)

end Rlp

namespace WireHeader

theorem bind_eq_map_bind {α β γ : Type} {x : Option α} {f : α → Option γ} {g : α → Option β}
    {k : β → γ} (h : ∀ a, f a = (g a).map k) : x.bind f = (x.bind g).map k := by
  cases x with
  | none => rfl
  | some a => exact h a

section Tree

variable {xs : List Rlp} (hnull : .null ∉ xs) (hlt : (Rlp.encodeItems xs).length < RLP.maxLength)
include hlt

theorem encode_length_lt {x : Rlp} (hx : x ∈ xs) : x.encode.length < RLP.maxLength :=
  (Rlp.length_encode_le hx).trans_lt hlt

include hnull

theorem split_encodeItems :
    RLP.framing.split (Rlp.encodeItems xs) = some (xs.map Rlp.encode) := by
  rw [Rlp.encodeItems_eq_flatten]
  apply Framing.split_flatten
  intro y hy
  obtain ⟨x, hx, rfl⟩ := List.mem_map.mp hy
  exact Rlp.whole_encode (encode_length_lt hlt hx) (fun hnil => hnull (hnil ▸ hx))

end Tree

end WireHeader

end CppSwc
