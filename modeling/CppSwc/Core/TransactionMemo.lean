import CppSwc.Core.HeaderMemo
import CppSwc.Core.TransactionBytes

/-!
# The memoised hash and sender of a transaction

`TransactionBase` of libethcore, with its memos `m_hashWith` and `m_sender`.  `setNonce` clears
the signature, which makes it the zero signature, and `sign` replaces it.  Neither of them
clears a memo.
-/

namespace CppSwc

open Lib

/-- `Type`. -/
inductive TransactionType where
  | nullTransaction
  | contractCreation
  | messageCall
deriving DecidableEq

/-- `SignatureStruct`. -/
structure Vrs where
  r : H256 := 0
  s : H256 := 0
  v : UInt8 := 0
deriving DecidableEq

/-- The fields of a `TransactionBase`. -/
structure TransactionFields where
  type : TransactionType := .nullTransaction
  nonce : ℕ := 0
  value : ℕ := 0
  receiveAddress : BitVec 160 := 0
  gasPrice : ℕ := 0
  gas : ℕ := 0
  data : Bytes := []
  vrs : Option Vrs := none
  chainId : ℤ := -4
deriving DecidableEq

/-- What the modelled code calls of libdevcrypto. -/
structure Signing where
  sha3 : Bytes → H256
  /-- `dev::sign` with a secret. -/
  sign : ℕ → H256 → Vrs
  /-- The address of the public key that `recover` gives, if it is not zero. -/
  recover : Vrs → H256 → Option (BitVec 160)

/-- `IncludeSignature`. -/
inductive IncludeSignature where
  | withoutSignature
  | withSignature
deriving DecidableEq

namespace TransactionFields

/-- `hasZeroSignature`. -/
def hasZeroSignature (f : TransactionFields) : Bool := f.vrs.any fun sig => sig.r = 0 ∧ sig.s = 0

/-- The items that `streamRLP` writes in any case. -/
def unsignedItems (f : TransactionFields) : List Bytes :=
  [RLP.appendInt f.nonce, RLP.appendInt f.gasPrice, RLP.appendInt f.gas,
    if f.type = .messageCall then RLP.appendHash 20 f.receiveAddress else RLP.appendData [],
    RLP.appendInt f.value, RLP.appendData f.data]

/-- The items of the signature. -/
def signatureItems (f : TransactionFields) (sig : Vrs) : List Bytes :=
  [RLP.appendInt (WireTransaction.toUnsigned
      (if f.hasZeroSignature then f.chainId else sig.v.toNat + (f.chainId * 2 + 35))),
    RLP.appendInt sig.r.toNat, RLP.appendInt sig.s.toNat]

/-- The items in place of a signature. -/
def eip155Items (f : TransactionFields) (forEip155hash : Bool) : List Bytes :=
  if forEip155hash then
    [RLP.appendInt (WireTransaction.toUnsigned f.chainId), RLP.appendInt 0, RLP.appendInt 0]
  else []

/-- `streamRLP`, if it does not throw `TransactionIsUnsigned`. -/
def streamRLP (f : TransactionFields) (sig : IncludeSignature) (forEip155hash : Bool) :
    Option Bytes :=
  if f.type = .nullTransaction then some []
  else match sig with
    | .withSignature =>
        f.vrs.map fun vrs => RLP.appendList (f.unsignedItems ++ f.signatureItems vrs).flatten
    | .withoutSignature =>
        some (RLP.appendList (f.unsignedItems ++ f.eip155Items forEip155hash).flatten)

variable (C : Signing)

/-- What `sha3` computes. -/
def computedHash (f : TransactionFields) (sig : IncludeSignature) : Option H256 :=
  (f.streamRLP sig (decide (0 < f.chainId ∧ sig = .withoutSignature))).map C.sha3

/-- What `sender` computes, if it does not throw. -/
def computedSender (f : TransactionFields) : Option (BitVec 160) :=
  if f.hasZeroSignature then some (BitVec.allOnes 160)
  else do
    let vrs ← f.vrs
    let hash ← f.computedHash C .withoutSignature
    C.recover vrs hash

end TransactionFields

/-- `TransactionBase`, with its memos. -/
structure MemoTransaction extends TransactionFields where
  /-- `m_hashWith`. -/
  hashMemo : H256 := 0
  /-- `m_sender`. -/
  senderMemo : BitVec 160 := 0
deriving DecidableEq

namespace MemoTransaction

/-- `clearSignature`. -/
def clearSignature (t : MemoTransaction) : MemoTransaction := { t with vrs := some {} }

/-- `setNonce`. -/
def setNonce (t : MemoTransaction) (n : ℕ) : MemoTransaction :=
  { t.clearSignature with nonce := n }

variable (C : Signing) (t : MemoTransaction)

/-- `sha3`, if it does not throw, and the transaction with its memo. -/
def sha3 : IncludeSignature → Option H256 × MemoTransaction
  | .withSignature =>
      let value := t.computedHash C .withSignature
      (Memo.read t.hashMemo value, { t with hashMemo := Memo.fill t.hashMemo value })
  | .withoutSignature => (t.computedHash C .withoutSignature, t)

/-- `sender`, if it does not throw, and the transaction with its memo. -/
def sender : Option (BitVec 160) × MemoTransaction :=
  let value := t.computedSender C
  (Memo.read t.senderMemo value, { t with senderMemo := Memo.fill t.senderMemo value })

/-- `sign`.  A signature that is not valid is not kept. -/
def sign (secret : ℕ) : MemoTransaction :=
  match t.computedHash C .withoutSignature with
  | none => t
  | some hash =>
      let sig := C.sign secret hash
      if WireTransaction.isValid sig.r.toNat sig.s.toNat sig.v then { t with vrs := some sig }
      else t

end MemoTransaction

/-! ## Runs -/

/-- A call of a public member of a numbered transaction. -/
inductive TransactionOp where
  | setNonce (i n : ℕ)
  | sign (i secret : ℕ)
  | sha3 (i : ℕ) (sig : IncludeSignature)
  | sender (i : ℕ)
  /-- The transaction `i` becomes a copy of the transaction `j`. -/
  | copy (i j : ℕ)

/-- The transactions of a program. -/
abbrev TransactionBases := ℕ → MemoTransaction

namespace TransactionBases

/-- New transactions, unsigned or read with their signatures. -/
def start (fields : ℕ → TransactionFields) : TransactionBases :=
  fun i => { toTransactionFields := fields i }

variable (C : Signing) (s : TransactionBases)

/-- The transaction that is changed by a call, and what it becomes. -/
def change : TransactionOp → ℕ × MemoTransaction
  | .setNonce i n => (i, (s i).setNonce n)
  | .sign i secret => (i, (s i).sign C secret)
  | .sha3 i sig => (i, ((s i).sha3 C sig).2)
  | .sender i => (i, ((s i).sender C).2)
  | .copy i j => (i, s j)

def next (op : TransactionOp) : TransactionBases :=
  Function.update s (change C s op).1 (change C s op).2

/-- Every hash and every sender that a transaction gives is what its fields say. -/
def Right : Prop :=
  ∀ i, (∀ sig, ((s i).sha3 C sig).1 = (s i).computedHash C sig) ∧
    ((s i).sender C).1 = (s i).computedSender C

/-- A call finds each memo unset, or leaves what it holds. -/
def Leaves (t t' : MemoTransaction) : Prop :=
  (t.hashMemo = 0 ∨ t'.computedHash C .withSignature = t.computedHash C .withSignature) ∧
    (t.senderMemo = 0 ∨ t'.computedSender C = t.computedSender C)

/-- `setNonce` and `sign` find each memo unset, or leave what it holds. -/
def Lasting : TransactionOp → Prop
  | .setNonce i n => Leaves C (s i) ((s i).setNonce n)
  | .sign i secret => Leaves C (s i) ((s i).sign C secret)
  | _ => True

end TransactionBases

/-! ## Freshness -/

namespace MemoTransaction

variable {C : Signing} {t t' : MemoTransaction}

/-- Both memos are unset or right. -/
structure Fresh (C : Signing) (t : MemoTransaction) : Prop where
  hash : Memo.Fresh t.hashMemo (t.computedHash C .withSignature)
  sender : Memo.Fresh t.senderMemo (t.computedSender C)

theorem fresh_iff : t.Fresh C ↔
    (∀ sig, (t.sha3 C sig).1 = t.computedHash C sig) ∧ (t.sender C).1 = t.computedSender C := by
  constructor
  · rintro ⟨hhash, hsender⟩
    refine ⟨fun sig => ?_, Memo.read_eq_iff.mpr hsender⟩
    cases sig with
    | withSignature => exact Memo.read_eq_iff.mpr hhash
    | withoutSignature => rfl
  · rintro ⟨hhash, hsender⟩
    exact ⟨Memo.read_eq_iff.mp (hhash .withSignature), Memo.read_eq_iff.mp hsender⟩

theorem Fresh.sha3 (h : t.Fresh C) (sig : IncludeSignature) : (t.sha3 C sig).2.Fresh C := by
  cases sig with
  | withSignature => exact ⟨h.hash.fill, h.sender⟩
  | withoutSignature => exact h

theorem Fresh.setSender (h : t.Fresh C) : (t.sender C).2.Fresh C := ⟨h.hash, h.sender.fill⟩

/-- A change of the fields that leaves the memos. -/
theorem Fresh.change_iff (h : t.Fresh C) (hhash : t'.hashMemo = t.hashMemo)
    (hsender : t'.senderMemo = t.senderMemo) :
    t'.Fresh C ↔ TransactionBases.Leaves C t t' := by
  rw [TransactionBases.Leaves, ← h.hash.change_iff, ← h.sender.change_iff, ← hhash,
    ← hsender]
  exact ⟨fun h' => ⟨h'.hash, h'.sender⟩, fun h' => ⟨h'.1, h'.2⟩⟩

theorem sign_memos (C : Signing) (t : MemoTransaction) (secret : ℕ) :
    (t.sign C secret).hashMemo = t.hashMemo ∧ (t.sign C secret).senderMemo = t.senderMemo := by
  rw [sign]
  split
  · exact ⟨rfl, rfl⟩
  · dsimp only
    split <;> exact ⟨rfl, rfl⟩

end MemoTransaction

namespace TransactionBases

variable {C : Signing} {s : TransactionBases}

theorem right_iff : s.Right C ↔ ∀ i, (s i).Fresh C :=
  forall_congr' fun _ => MemoTransaction.fresh_iff.symm

/-- What a call makes of a transaction is fresh exactly if the call is lasting. -/
theorem fresh_change_iff (h : ∀ i, (s i).Fresh C) (op : TransactionOp) :
    (change C s op).2.Fresh C ↔ Lasting C s op := by
  cases op with
  | setNonce i n => exact (h i).change_iff rfl rfl
  | sign i secret =>
      obtain ⟨hhash, hsender⟩ := (s i).sign_memos C secret
      exact (h i).change_iff hhash hsender
  | sha3 i sig => exact iff_of_true ((h i).sha3 sig) trivial
  | sender i => exact iff_of_true (h i).setSender trivial
  | copy i j => exact iff_of_true (h j) trivial

/-- A call keeps all answers right exactly if it is lasting. -/
theorem right_next_iff (h : s.Right C) (op : TransactionOp) :
    (s.next C op).Right C ↔ Lasting C s op := by
  have hfresh := right_iff.mp h
  rw [right_iff, ← fresh_change_iff hfresh op, next,
    Function.forall_update_iff s fun _ h => MemoTransaction.Fresh C h]
  exact and_iff_left fun i _ => hfresh i

theorem right_start (C : Signing) (fields : ℕ → TransactionFields) : (start fields).Right C :=
  right_iff.mpr fun _ => ⟨Memo.fresh_zero _, Memo.fresh_zero _⟩

/-- In a run, all hashes and senders are right in every state exactly if every call is lasting. -/
theorem answers_along_iff (C : Signing) (fields : ℕ → TransactionFields)
    (ops : List TransactionOp) :
    (∀ s ∈ trail (next C) id (start fields) ops, s.Right C) ↔
      Along (next C) (Lasting C) (start fields) ops :=
  forall_trail_iff (fun _ h => h) (fun _ op h => right_next_iff h op)
    (fun _ op h hok => (right_next_iff h op).mpr hok) ops (right_start C fields)

end TransactionBases

/-- **In every run on headers and in every run on transactions, no answer is stale exactly if each
`populateFromParent`, `setNonce` and `sign` finds the memos unset, or leaves what they hold.** -/
theorem memos_never_stale_iff (C : Crypto) (fields : ℕ → HeaderFields) (ops : List HeaderOp)
    (S : Signing) (txFields : ℕ → TransactionFields) (txOps : List TransactionOp) :
    ((∀ s ∈ trail (Headers.next C) id (Headers.start fields) ops, s.Right C) ↔
        Along (Headers.next C) (Headers.Lasting C) (Headers.start fields) ops) ∧
      ((∀ s ∈ trail (TransactionBases.next S) id (TransactionBases.start txFields) txOps,
          s.Right S) ↔
        Along (TransactionBases.next S) (TransactionBases.Lasting S)
          (TransactionBases.start txFields) txOps) :=
  ⟨Headers.hashes_along_iff C fields ops, TransactionBases.answers_along_iff S txFields txOps⟩

/-- The hash of a header is kept when it is populated from its parent, and the sender of a
transaction when its nonce is set. -/
theorem memos_stale :
    (¬∀ s ∈ trail (Headers.next foldCrypto) id
        (Headers.start fun _ => {})
        [.setTimestamp 0 1, .hash 0 .withSeal, .populateFromParent 0 1],
      s.Right foldCrypto) ∧
    ¬∀ s ∈ trail (TransactionBases.next ⟨foldHash, fun _ _ => {}, fun _ _ => some 7⟩) id
        (TransactionBases.start fun _ => { type := .messageCall, vrs := some ⟨1, 1, 0⟩ })
        [.sender 0, .setNonce 0 1],
      s.Right ⟨foldHash, fun _ _ => {}, fun _ _ => some 7⟩ := by
  constructor
  · intro hall
    have hread := hall _ (.tail _ (.tail _ (.tail _ (.head _)))) 0 .withSeal
    revert hread
    decide +kernel
  · intro hall
    have hread := (hall _ (.tail _ (.tail _ (.head _))) 0).2
    revert hread
    decide +kernel

end CppSwc
