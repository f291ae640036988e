import CppSwc.Core.HeaderIdentity

/-!
# Transactions from bytes

`TransactionBase` of libethcore, from the bytes it is given and back to bytes, with the check
`CheckTransaction::Cheap`.

Eight of the nine items are read in one way only.  The recipient is taken for empty, and the
transaction for a creation, if its first byte is the one of the empty string or the one of the
empty list.  Only the first of them is written, so that a creation has two encodings, and a
message call has one (`namesBytes_iff_hasRecipient`).
-/

namespace CppSwc

open Lib

/-- A `TransactionBase` with a signature. -/
structure WireTransaction where
  /-- `m_type`, which is never `NullTransaction` here. -/
  isCreation : Bool
  nonce : Nat
  gasPrice : Nat
  gas : Nat
  receiveAddress : BitVec 160
  value : Nat
  data : Bytes
  chainId : Int
  r : Nat
  s : Nat
  v : UInt8
deriving DecidableEq

namespace WireTransaction

/-! ## Reading -/

/-- `RLP::isEmpty`. -/
def isEmpty : Bytes → Bool
  | [] => false
  | b :: _ => b = 0x80 || b = 0xc0

/-- A value of four bytes as an `int`. -/
def toInt32 (n : Nat) : Int := if n < 2 ^ 31 then n else n - 2 ^ 32

/-- An `int` as an `unsigned`. -/
def toUnsigned (v : Int) : Nat := (v % 2 ^ 32).toNat

/-- `s_max` of `SignatureStruct::isValid`. -/
def sMax : Nat := 0xfffffffffffffffffffffffffffffffebaaedce6af48a03bbfd25e8cd0364141

/-- `SignatureStruct::isValid`. -/
def isValid (r s : Nat) (v : UInt8) : Bool := v ≤ 1 && 0 < r && 0 < s && r < sMax && s < sMax

/-- The chain id of a signature that is not zero. -/
def readChainId (v : Int) : Option Int :=
  if 36 < v then some ((v - 35) / 2)
  else if v = 27 ∨ v = 28 then some (-4)
  else none

/-- The chain id and the `v` of the signature. -/
def readSignature (v : Int) (r s : Nat) : Option (Int × UInt8) :=
  if r = 0 ∧ s = 0 then some (v, 0)
  else do
    let chainId ← readChainId v
    let b := UInt8.ofNat ((v - (chainId * 2 + 35)) % 256).toNat
    guard (isValid r s b)
    pure (chainId, b)

/-- The recipient, which a creation does not have. -/
def readRecipient (a : Bytes) : Option (Bool × BitVec 160) :=
  if isEmpty a then some (true, 0) else (RLP.toHash 20 a).map fun h => (false, h)

/-- The string with the data.  Anything else is refused. -/
def readData (d : Bytes) : Option Bytes := if RLP.isData d then RLP.toBytes d else none

/-- The fields from the items. -/
def read (field : Nat → Option Bytes) : Option WireTransaction := do
  let nonce ← (field 0).bind (RLP.toInt 32)
  let gasPrice ← (field 1).bind (RLP.toInt 32)
  let gas ← (field 2).bind (RLP.toInt 32)
  let recipient ← (field 3).bind readRecipient
  let value ← (field 4).bind (RLP.toInt 32)
  let data ← (field 5).bind readData
  let v ← (field 6).bind (RLP.toInt 4)
  let r ← (field 7).bind (RLP.toInt 32)
  let s ← (field 8).bind (RLP.toInt 32)
  let signature ← readSignature (toInt32 v) r s
  pure {
    isCreation := recipient.1
    nonce, gasPrice, gas
    receiveAddress := recipient.2
    value, data
    chainId := signature.1
    r, s
    v := signature.2 }

/-- `TransactionBase(rlp, CheckTransaction::Cheap)`. -/
def ofBytes (d : Bytes) : Option WireTransaction := do
  let rlp ← RLP.ofBytes d
  guard (RLP.isList rlp)
  let t ← read (RLP.item rlp)
  let items ← RLP.items rlp
  guard (items.length ≤ 9)
  pure t

/-! ## Writing -/

/-- `hasZeroSignature`. -/
def hasZeroSignature (t : WireTransaction) : Bool := t.r = 0 && t.s = 0

/-- What is written for `v`. -/
def writtenV (t : WireTransaction) : Nat :=
  toUnsigned (if t.hasZeroSignature then t.chainId else t.v.toNat + (t.chainId * 2 + 35))

/-- What is written for the recipient. -/
def writtenRecipient (t : WireTransaction) : Bytes :=
  if t.isCreation then RLP.appendData [] else RLP.appendHash 20 t.receiveAddress

/-- The nine items, with the given recipient. -/
def itemsWith (t : WireTransaction) (a : Bytes) : List Bytes :=
  [RLP.appendInt t.nonce, RLP.appendInt t.gasPrice, RLP.appendInt t.gas, a,
    RLP.appendInt t.value, RLP.appendData t.data, RLP.appendInt t.writtenV, RLP.appendInt t.r,
    RLP.appendInt t.s]

/-- `streamRLP` with the signature. -/
def streamRLP (t : WireTransaction) : List Bytes := t.itemsWith t.writtenRecipient

/-- `rlp(WithSignature)`. -/
def rlp (t : WireTransaction) : Bytes := RLP.appendList t.streamRLP.flatten

/-- `sha3(WithSignature)`. -/
def sha3 (C : Crypto) (t : WireTransaction) : H256 := C.sha3 t.rlp

/-! ## One item at a time -/

variable {d d' x x' a a' : Bytes} {items : List Bytes} {t : WireTransaction}

/-- The `v` that was read is written. -/
theorem toUnsigned_of_readSignature {n r s : Nat} {chainId : Int} {v : UInt8} (hn : n < 2 ^ 32)
    (h : readSignature (toInt32 n) r s = some (chainId, v)) :
    toUnsigned (if r = 0 ∧ s = 0 then chainId else v.toNat + (chainId * 2 + 35)) = n := by
  have hunsigned : toUnsigned (toInt32 n) = n := by
    rw [toUnsigned, toInt32]
    split <;> omega
  rw [readSignature] at h
  split at h
  · rename_i hzero
    cases h
    rw [if_pos hzero, hunsigned]
  · rename_i hzero
    obtain ⟨chain, hchain, h⟩ := Option.bind_eq_some_iff.mp h
    obtain ⟨-, -, h⟩ := Option.bind_eq_some_iff.mp h
    cases h
    have hbyte : (UInt8.ofNat ((toInt32 n - (chainId * 2 + 35)) % 256).toNat).toNat =
        toInt32 n - (chainId * 2 + 35) := by
      rw [readChainId] at hchain
      rw [UInt8.toNat_ofNat']
      split at hchain
      · cases hchain
        omega
      · split at hchain
        · rename_i hv
          cases hchain
          omega
        · cases hchain
    rw [if_neg hzero, hbyte, Int.sub_add_cancel, hunsigned]

theorem toInt_lt {size n : Nat} (hx : x = [] ∨ RLP.framing.Whole x)
    (h : RLP.toInt size x = some n) : n < 2 ^ (8 * size) := by
  rcases hx with rfl | hx
  · cases h
  · obtain ⟨s, hs, rfl | rfl⟩ := RLP.eq_append_of_whole hx
    · rw [RLP.toInt_appendData hs] at h
      split at h
      · cases h
      · rename_i hlength
        rw [← Option.some.inj h, Nat.pow_mul]
        exact lt_of_lt_of_le (fromBigEndian_lt s) (Nat.pow_le_pow_right (by decide) (by omega))
    · rw [RLP.toInt_appendList hs] at h
      cases h

theorem eq_appendData_of_readData {s : Bytes} (hx : x = [] ∨ RLP.framing.Whole x)
    (h : readData x = some s) : x = RLP.appendData s := by
  rw [readData] at h
  split at h
  · rename_i hdata
    rcases hx with rfl | hx
    · cases hdata
    · obtain ⟨p, hp, rfl | rfl⟩ := RLP.eq_append_of_whole hx
      · rw [RLP.toBytes_appendData hp] at h
        rw [Option.some.inj h]
      · rw [RLP.isData_appendList hp] at hdata
        cases hdata
  · cases h

/-- The item of a message call is its address, and the one of a creation is empty. -/
theorem eq_of_readRecipient {b : Bool} {h : BitVec 160} (hx : x = [] ∨ RLP.framing.Whole x)
    (hread : readRecipient x = some (b, h)) :
    b = isEmpty x ∧ (b = true → h = 0) ∧ (b = false → x = RLP.appendHash 20 h) := by
  rw [readRecipient] at hread
  split at hread
  · rename_i hempty
    cases hread
    exact ⟨hempty.symm, fun _ => rfl, Bool.noConfusion⟩
  · rename_i hempty
    obtain ⟨h', hhash, heq⟩ := Option.map_eq_some_iff.mp hread
    cases heq
    exact ⟨by simpa using hempty, Bool.noConfusion, fun _ => RLP.eq_appendHash_of_toHash hx hhash⟩

/-! ## The items of a transaction -/

/-- A transaction as it was received, with the item of its recipient. -/
structure Received (d a : Bytes) (t : WireTransaction) : Prop where
  whole : ∀ x ∈ t.itemsWith a, RLP.framing.Whole x
  eq : d = RLP.appendList (t.itemsWith a).flatten
  lt : (t.itemsWith a).flatten.length < RLP.maxLength
  recipient : readRecipient a = some (t.isCreation, t.receiveAddress)

/-- A sequence of nine items. -/
theorem eq_of_length_nine {items : List Bytes} (h8 : items.getD 8 [] ≠ [])
    (hlength : items.length ≤ 9) :
    items = [items.getD 0 [], items.getD 1 [], items.getD 2 [], items.getD 3 [], items.getD 4 [],
      items.getD 5 [], items.getD 6 [], items.getD 7 [], items.getD 8 []] := by
  match items, h8, hlength with
  | [_, _, _, _, _, _, _, _, _], _, _ => rfl

/-- What is accepted consists of the items that are written, but for the recipient. -/
theorem received_of_ofBytes (h : ofBytes d = some t) : ∃ a, Received d a t := by
  obtain ⟨root, hroot, h⟩ := Option.bind_eq_some_iff.mp h
  obtain ⟨_, hlist, h⟩ := Option.bind_eq_some_iff.mp h
  obtain ⟨t', hread, h⟩ := Option.bind_eq_some_iff.mp h
  obtain ⟨items, hitems, h⟩ := Option.bind_eq_some_iff.mp h
  obtain ⟨_, hlength, h⟩ := Option.bind_eq_some_iff.mp h
  obtain rfl := Option.some.inj h
  rw [Option.guard_eq_some'] at hlist hlength
  have hne : d ≠ [] := by
    rintro rfl
    cases hroot
    cases hlist
  obtain ⟨rfl, hwhole⟩ := RLP.whole_of_ofBytes hroot hne
  obtain ⟨p, hp, rfl⟩ := RLP.eq_appendList_of_isList hwhole hlist
  rw [RLP.items, if_pos hlist, RLP.payload_appendList hp, Option.bind_some] at hitems
  obtain rfl := Framing.flatten_of_split hitems
  have hitem := WireHeader.nil_or_whole (Framing.whole_of_split hitems)
  simp only [read, RLP.item_appendList hp hitems, Option.bind_some] at hread
  obtain ⟨nonce, h0, hread⟩ := Option.bind_eq_some_iff.mp hread
  obtain ⟨gasPrice, h1, hread⟩ := Option.bind_eq_some_iff.mp hread
  obtain ⟨gas, h2, hread⟩ := Option.bind_eq_some_iff.mp hread
  obtain ⟨recipient, h3, hread⟩ := Option.bind_eq_some_iff.mp hread
  obtain ⟨value, h4, hread⟩ := Option.bind_eq_some_iff.mp hread
  obtain ⟨data, h5, hread⟩ := Option.bind_eq_some_iff.mp hread
  obtain ⟨v, h6, hread⟩ := Option.bind_eq_some_iff.mp hread
  obtain ⟨r, h7, hread⟩ := Option.bind_eq_some_iff.mp hread
  obtain ⟨s, h8, hread⟩ := Option.bind_eq_some_iff.mp hread
  obtain ⟨signature, hsignature, hread⟩ := Option.bind_eq_some_iff.mp hread
  obtain rfl := Option.some.inj hread
  have hnonempty : items.getD 8 [] ≠ [] := by
    intro hnil
    rw [hnil] at h8
    cases h8
  have hv := toUnsigned_of_readSignature (toInt_lt (hitem 6) h6) hsignature
  let t : WireTransaction := {
    isCreation := recipient.1, nonce, gasPrice, gas, receiveAddress := recipient.2, value, data
    chainId := signature.1, r, s, v := signature.2 }
  have hwritten : t.writtenV = v := by
    rw [← hv, writtenV, hasZeroSignature]
    simp only [Bool.and_eq_true, decide_eq_true_eq]
    rfl
  have hsame : items = t.itemsWith (items.getD 3 []) := by
    rw [itemsWith, hwritten, ← RLP.eq_appendInt_of_toInt (hitem 0) h0,
      ← RLP.eq_appendInt_of_toInt (hitem 1) h1, ← RLP.eq_appendInt_of_toInt (hitem 2) h2,
      ← RLP.eq_appendInt_of_toInt (hitem 4) h4, ← eq_appendData_of_readData (hitem 5) h5,
      ← RLP.eq_appendInt_of_toInt (hitem 6) h6, ← RLP.eq_appendInt_of_toInt (hitem 7) h7,
      ← RLP.eq_appendInt_of_toInt (hitem 8) h8]
    exact eq_of_length_nine hnonempty hlength
  refine ⟨items.getD 3 [], ?_, ?_, ?_, h3⟩
  · rw [← hsame]
    exact Framing.whole_of_split hitems
  · rw [← hsame]
  · rw [← hsame]
    exact hp

/-- Nine whole items are a transaction if their fields are read. -/
theorem ofBytes_itemsWith (hwhole : ∀ x ∈ t.itemsWith x', RLP.framing.Whole x)
    (hlt : (t.itemsWith x').flatten.length < RLP.maxLength) :
    ofBytes (RLP.appendList (t.itemsWith x').flatten) =
      read fun i => some ((t.itemsWith x').getD i []) := by
  have hsplit : RLP.framing.split (t.itemsWith x').flatten = some (t.itemsWith x') :=
    Framing.split_flatten hwhole
  have hitem : RLP.item (RLP.appendList (t.itemsWith x').flatten) =
      fun i => some ((t.itemsWith x').getD i []) :=
    funext (RLP.item_appendList hlt hsplit)
  simp only [ofBytes, RLP.ofBytes_of_whole (RLP.whole_appendList hlt), Option.bind_eq_bind,
    Option.bind_some, RLP.isList_appendList hlt, hitem, RLP.items_appendList hlt hsplit]
  cases read fun i => some ((t.itemsWith x').getD i []) <;> rfl

/-- Another item for the recipient that is read in the same way is accepted as well. -/
theorem Received.ofBytes_recipient (hr : Received d a t) (hread : ofBytes d = some t)
    (hwhole : RLP.framing.Whole a') (hlength : a'.length ≤ a.length)
    (hsame : readRecipient a' = readRecipient a) :
    ofBytes (RLP.appendList (t.itemsWith a').flatten) = some t := by
  have hwhole' : ∀ x ∈ t.itemsWith a', RLP.framing.Whole x := by
    have hall := hr.whole
    simp only [itemsWith, List.forall_mem_cons] at hall ⊢
    obtain ⟨h0, h1, h2, -, hrest⟩ := hall
    exact ⟨h0, h1, h2, hwhole, hrest⟩
  have hlt' : (t.itemsWith a').flatten.length < RLP.maxLength := by
    have hlt := hr.lt
    simp only [itemsWith, List.flatten_cons, List.length_append] at hlt ⊢
    omega
  rw [hr.eq, ofBytes_itemsWith hr.whole hr.lt] at hread
  rw [ofBytes_itemsWith hwhole' hlt', ← hread]
  simp only [read, itemsWith, List.getD_cons_succ, List.getD_cons_zero, Option.bind_some, hsame]

/-! ## Transactions and their bytes -/

/-- The item of the recipient is not empty. -/
def hasRecipient (d : Bytes) : Bool := (RLP.item d 3).any fun a => !isEmpty a

theorem Received.hasRecipient_eq (hr : Received d a t) : hasRecipient d = !t.isCreation := by
  have hwhole : RLP.framing.Whole a := hr.whole a (by simp [itemsWith])
  rw [hasRecipient, hr.eq, RLP.item_appendList hr.lt (Framing.split_flatten hr.whole),
    (eq_of_readRecipient (.inr hwhole) hr.recipient).1]
  rfl

/-- The fields of a transaction determine its bytes: they are what is written, `sha3` is their
hash, and no other bytes are read as the same signed transaction. -/
structure NamesBytes (C : Crypto) (d : Bytes) (t : WireTransaction) : Prop where
  written : t.rlp = d
  hash : t.sha3 C = C.sha3 d
  unique : ∀ d', ofBytes d' = some t → d' = d

/-- The bytes of a message call are what is written for it. -/
theorem Received.rlp_eq (hr : Received d a t) (hcall : t.isCreation = false) : t.rlp = d := by
  have hwhole : RLP.framing.Whole a := hr.whole a (by simp [itemsWith])
  have ha := (eq_of_readRecipient (.inr hwhole) hr.recipient).2.2 hcall
  rw [hr.eq, rlp, streamRLP, writtenRecipient, hcall, if_neg (by decide), ← ha]

/-- **The fields of a transaction determine its bytes exactly if it has a recipient.** -/
theorem namesBytes_iff_hasRecipient {C : Crypto} (hread : ofBytes d = some t) :
    NamesBytes C d t ↔ hasRecipient d = true := by
  obtain ⟨a, hr⟩ := received_of_ofBytes hread
  have hwhole : RLP.framing.Whole a := hr.whole a (by simp [itemsWith])
  rw [hr.hasRecipient_eq]
  constructor
  · intro hnames
    by_contra hcreation
    rw [Bool.not_eq_true, Bool.not_eq_false'] at hcreation
    have hempty : isEmpty a = true := by
      rw [← (eq_of_readRecipient (.inr hwhole) hr.recipient).1, hcreation]
    have hread' {a' : Bytes} (hwhole' : RLP.framing.Whole a') (hlength : a'.length = 1)
        (hempty' : isEmpty a' = true) : RLP.appendList (t.itemsWith a').flatten = d := by
      refine hnames.unique _ (hr.ofBytes_recipient hread hwhole' ?_ ?_)
      · have hpos := List.length_pos_of_ne_nil hwhole.ne_nil
        omega
      · rw [readRecipient, if_pos hempty', readRecipient, if_pos hempty]
    -- one of the two is not the item that was received
    have hstring := hread' (RLP.whole_appendData (s := []) (by decide)) rfl rfl
    have hlist := hread' (RLP.whole_appendList (s := []) (by decide)) rfl rfl
    have hflatten := RLP.appendList_injective (hstring.trans hlist.symm)
    simp only [itemsWith, List.flatten_cons, List.append_cancel_left_eq,
      List.append_cancel_right_eq] at hflatten
    exact absurd hflatten (by decide)
  · intro hcall
    rw [Bool.not_eq_true'] at hcall
    have hwritten := hr.rlp_eq hcall
    refine ⟨hwritten, by rw [sha3, hwritten], fun d' hread' => ?_⟩
    obtain ⟨a', hr'⟩ := received_of_ofBytes hread'
    rw [← hwritten, hr'.rlp_eq hcall]

/-! ## A creation with a list for its recipient -/

/-- A signed transaction. -/
def sample (isCreation : Bool) : WireTransaction where
  isCreation := isCreation
  nonce := 1
  gasPrice := 2
  gas := 21000
  receiveAddress := if isCreation then 0 else 7
  value := 5
  data := [0x60]
  chainId := -4
  r := 1
  s := 1
  v := 0

/-- A message call. -/
theorem namesBytes_sample :
    ofBytes (sample false).rlp = some (sample false) ∧
      NamesBytes WireHeader.numberCrypto (sample false).rlp (sample false) := by
  have hread : ofBytes (sample false).rlp = some (sample false) := by decide +kernel
  exact ⟨hread, (namesBytes_iff_hasRecipient hread).mpr (by decide +kernel)⟩

/-- The empty list is read as the empty string, which is what is written. -/
theorem list_for_recipient :
    let d := RLP.appendList ((sample true).itemsWith (RLP.appendList [])).flatten
    ofBytes d = some (sample true) ∧ ofBytes (sample true).rlp = some (sample true) ∧
      (sample true).rlp ≠ d ∧ ¬NamesBytes WireHeader.numberCrypto d (sample true) := by
  have hne : (sample true).rlp ≠
      RLP.appendList ((sample true).itemsWith (RLP.appendList [])).flatten := by decide +kernel
  exact ⟨by decide +kernel, by decide +kernel, hne, fun hnames => hne hnames.written⟩

end WireTransaction

end CppSwc
