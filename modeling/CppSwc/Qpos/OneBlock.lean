import CppSwc.Core.HeaderBytes
import CppSwc.Qpos.Handlers

/-!
# What a certificate certifies

Miners sign `hash(WithoutSeal)`, which is made of the basic fields, and the chain
knows a block by `hash()`, which is made of the header as it was received.  A
certificate names one block if the first hash determines the second.

It does not.  QPOS has no seal fields (`sealFields()` is 0), but neither `populate`
nor `verify` asks how many there are, and the extra data may be missing or a list.
So anyone can give a certified block another hash.  Two accepted blocks with the
same basic fields have the same hash exactly if their headers have the same items
from the extra data on.
-/

namespace CppSwc

open Lib

namespace WireBlock

/-! ## Signatures of a block, from its bytes -/

/-- `toPair` with the flags `LaissezFaire`.  It throws unless given a list, and a
list of another length than two gives the default pair. -/
def toSign (d : Bytes) : Option (NodeID × Signature) :=
  if !RLP.isList d then none
  else do
    let items ← RLP.items d
    if items.length ≠ 2 then pure (0, 0)
    else do
      let id ← (RLP.item d 0).bind (RLP.toHashLax 64)
      let sig ← (RLP.item d 1).bind (RLP.toHashLax 65)
      pure (id, sig)

/-- The signature list of a block, `b[3][1].toVector`. -/
def signList (root : Bytes) : Option (List (NodeID × Signature)) := do
  let certificate ← RLP.item root 3
  let list ← RLP.item certificate 1
  let items ← RLP.items list
  items.mapM toSign

/-- `checkBlockSign`.  A throw is a rejection. -/
def checkBlockSign (C : Crypto) (minerList : NodeSet) (header : WireHeader) (block : Bytes) :
    Bool :=
  if minerList.size = 0 then true
  else
    let signs := do
      let root ← RLP.ofBytes block
      let items ← RLP.items root
      if !RLP.isList root || items.length < 4 then none else signList root
    match signs with
    | none => false
    | some signs =>
        Qpos.countSigns (C.prims fun _ => []) minerList (header.hashWithoutSeal C) signs ∅

/-! ## Accepted blocks -/

/-- The bytes decode as a block that passes `verify` against the parent and
`checkBlockSign` against the miners. -/
structure Accepted (C : Crypto) (minerList : NodeSet) (s : WireHeader.Strictness)
    (parent : WireHeader) (block : Bytes) (header : WireHeader) : Prop where
  decoded : WireHeader.ofBlock C block = some header
  verified : WireHeader.verify C s (some parent) block header = .ok ()
  signed : checkBlockSign C minerList header block = true

instance (C : Crypto) (minerList : NodeSet) (s : WireHeader.Strictness)
    (parent : WireHeader) (block : Bytes) (header : WireHeader) :
    Decidable (Accepted C minerList s parent block header) :=
  decidable_of_iff
    (WireHeader.ofBlock C block = some header ∧
      (WireHeader.verify C s (some parent) block header).toOption = some () ∧
      checkBlockSign C minerList header block = true)
    (by
      constructor
      · rintro ⟨hdecoded, hverified, hsigned⟩
        refine ⟨hdecoded, ?_, hsigned⟩
        cases h : WireHeader.verify C s (some parent) block header with
        | error e => simp [h, Except.toOption] at hverified
        | ok u => rfl
      · rintro ⟨hdecoded, hverified, hsigned⟩
        exact ⟨hdecoded, by rw [hverified]; rfl, hsigned⟩)

/-- The header bytes of a block. -/
def headerBytes (block : Bytes) : Bytes := (WireHeader.extractHeader block).getD []

/-- The items of the header that its basic fields leave open: the extra data,
which may be missing or a list, and the seal fields. -/
def openItems (block : Bytes) : List Bytes := ((RLP.items (headerBytes block)).getD []).drop 12

/-- The two byte strings are no collision of `sha3`. -/
def NoCollision (C : Crypto) (x y : Bytes) : Prop := C.sha3 x = C.sha3 y → x = y

/-- **A certificate names one block of two exactly if the headers differ in a
basic field or have the same items from the extra data on.** -/
theorem certificate_names_one_block_iff (C : Crypto) (minerList : NodeSet)
    (s : WireHeader.Strictness) (parent : WireHeader) {a b : Bytes} {h h' : WireHeader}
    (ha : Accepted C minerList s parent a h) (hb : Accepted C minerList s parent b h')
    (hbasic : NoCollision C h.rlpWithoutSeal h'.rlpWithoutSeal)
    (hheader : NoCollision C (headerBytes a) (headerBytes b)) :
    (h.hashWithoutSeal C = h'.hashWithoutSeal C → h.hash = h'.hash) ↔
      (h.toBasicFields = h'.toBasicFields → openItems a = openItems b) := by
  obtain ⟨header, items, hextract, hitems, hr⟩ := WireHeader.received_of_ofBlock ha.decoded
  obtain ⟨header', items', hextract', hitems', hr'⟩ := WireHeader.received_of_ofBlock hb.decoded
  have hopen : openItems a = items.drop 12 := by simp [openItems, headerBytes, hextract, hitems]
  have hopen' : openItems b = items'.drop 12 := by
    simp [openItems, headerBytes, hextract', hitems']
  have hheader : C.sha3 header = C.sha3 header' → header = header' := by
    simpa [NoCollision, headerBytes, hextract, hextract'] using hheader
  rw [hopen, hopen']
  constructor
  · intro hname hfields
    have hhash : h.hash = h'.hash := by
      apply hname
      rw [WireHeader.hashWithoutSeal, WireHeader.hashWithoutSeal, WireHeader.rlpWithoutSeal,
        WireHeader.rlpWithoutSeal, hfields]
    rw [hr.hash, hr'.hash] at hhash
    rw [(hr.header_eq_iff hr').mp (hheader hhash)]
  · intro htail heq
    have hfields := hr.basic_eq_of_rlpWithoutSeal hr' (hbasic heq)
    have hsame := (hr.items_eq_iff hr' hfields).mpr (htail hfields)
    rw [hr.hash, hr'.hash, (hr.header_eq_iff hr').mpr hsame]

/-! ## A block with a seal field -/

/-- Primitives that evaluate: a hash is a remainder of the bytes. -/
def sampleCrypto : Crypto where
  sha3 d := BitVec.ofNat 256 (1 + fromBigEndian d % (2 ^ 256 - 189))
  trieRootOver items := BitVec.ofNat 256 (1 + fromBigEndian items.flatten % (2 ^ 256 - 189))
  sign := Prims.sample.sign
  verify := Prims.sample.verify

/-- The parent of the sample blocks. -/
def sampleParent : WireHeader where
  parentHash := 0
  sha3Uncles := 0
  author := 0
  stateRoot := 0
  transactionsRoot := 0
  receiptsRoot := 0
  logBloom := 0
  difficulty := 1
  number := 6
  gasLimit := 0
  gasUsed := 0
  timestamp := 40
  extraData := []
  sealFields := []
  hash := 77

/-- The header of the sample blocks. -/
def sampleHeader (sealFields : List Bytes) : WireHeader :=
  let fields : BasicFields := {
    sampleParent.toBasicFields with
    parentHash := sampleParent.hash
    sha3Uncles := sampleCrypto.sha3 (RLP.appendList [])
    transactionsRoot := sampleCrypto.trieRootOver []
    number := 7
    timestamp := 41 }
  { fields with
    sealFields
    hash := sampleCrypto.sha3 (RLP.appendList (fields.streamRLPFields ++ sealFields).flatten) }

/-- An empty block with such a header, signed by miner 1 the given number of
times. -/
def sampleBlock (sealFields : List Bytes) (signatures : Nat) : Bytes :=
  let sig := sampleCrypto.sign 1 ((sampleHeader []).hashWithoutSeal sampleCrypto)
  let entry := RLP.appendList (RLP.appendHash 64 1 ++ RLP.appendHash 65 sig)
  let certificate := RLP.appendList
    (RLP.appendHash 64 1 ++ RLP.appendList (List.replicate signatures entry).flatten)
  RLP.appendList ((sampleHeader sealFields).rlpWithSeal ++ RLP.appendList [] ++
    RLP.appendList [] ++ certificate)

/-- Two different blocks with the same header, one of them signed twice, have the
same hash. -/
theorem certificate_names_one_block_twice :
    Accepted sampleCrypto ((∅ : NodeSet).insert 1) .checkEverything sampleParent
        (sampleBlock [] 1) (sampleHeader []) ∧
      Accepted sampleCrypto ((∅ : NodeSet).insert 1) .checkEverything sampleParent
        (sampleBlock [] 2) (sampleHeader []) ∧
      sampleBlock [] 1 ≠ sampleBlock [] 2 ∧
      ((sampleHeader []).hashWithoutSeal sampleCrypto =
          (sampleHeader []).hashWithoutSeal sampleCrypto →
        (sampleHeader []).hash = (sampleHeader []).hash) := by
  have hone : Accepted sampleCrypto ((∅ : NodeSet).insert 1) .checkEverything sampleParent
      (sampleBlock [] 1) (sampleHeader []) := by decide +kernel
  have htwo : Accepted sampleCrypto ((∅ : NodeSet).insert 1) .checkEverything sampleParent
      (sampleBlock [] 2) (sampleHeader []) := by decide +kernel
  have hheader : headerBytes (sampleBlock [] 1) = headerBytes (sampleBlock [] 2) := by
    decide +kernel
  refine ⟨hone, htwo, by decide +kernel, ?_⟩
  apply (certificate_names_one_block_iff sampleCrypto _ _ _ hone htwo (fun _ => rfl)
    (fun _ => hheader)).mpr
  intro _
  rw [openItems, openItems, hheader]

/-- A seal field behind the basic fields gives a block with another hash that the
same signatures certify. -/
theorem seal_field_makes_another_block :
    Accepted sampleCrypto ((∅ : NodeSet).insert 1) .checkEverything sampleParent
        (sampleBlock [] 1) (sampleHeader []) ∧
      Accepted sampleCrypto ((∅ : NodeSet).insert 1) .checkEverything sampleParent
        (sampleBlock [RLP.appendData [1]] 1) (sampleHeader [RLP.appendData [1]]) ∧
      (sampleHeader []).hashWithoutSeal sampleCrypto =
        (sampleHeader [RLP.appendData [1]]).hashWithoutSeal sampleCrypto ∧
      (sampleHeader []).hash ≠ (sampleHeader [RLP.appendData [1]]).hash := by
  decide +kernel

end WireBlock

end CppSwc
