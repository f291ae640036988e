import CppSwc.Core.HeaderBytes
import CppSwc.Lib.Memo
import CppSwc.Lib.Run
import Mathlib.Data.BitVec

/-!
# The memoised hashes of a header

`BlockHeader` of libethcore, with its setters and its memos `m_hash` and `m_hashWithout`.
Every setter clears them with `noteDirty`, and `populateFromParent` does not.
-/

namespace CppSwc

open Lib

/-- `append` of a `bigint`.  The cast of a negative number to a byte throws. -/
def RLP.appendBigint (i : ℤ) : Option Bytes :=
  if i < 0 then none else some (RLP.appendInt i.toNat)

/-- `IncludeSeal`. -/
inductive IncludeSeal where
  | withoutSeal
  | withSeal
  | onlySeal
deriving DecidableEq

/-- The fields of a `BlockHeader`. -/
structure HeaderFields where
  parentHash : H256 := 0
  sha3Uncles : H256 := 0
  stateRoot : H256 := 0
  transactionsRoot : H256 := 0
  receiptsRoot : H256 := 0
  logBloom : BitVec 2048 := 0
  number : ℤ := 0
  gasLimit : ℕ := 0
  gasUsed : ℕ := 0
  extraData : Bytes := []
  timestamp : ℤ := -1
  author : BitVec 160 := 0
  difficulty : ℕ := 0
  /-- `m_seal`. -/
  sealFields : List Bytes := []
deriving DecidableEq

namespace HeaderFields

/-- `streamRLPFields`, if it does not throw. -/
def streamRLPFields (f : HeaderFields) : Option (List Bytes) := do
  let number ← RLP.appendBigint f.number
  let timestamp ← RLP.appendBigint f.timestamp
  return [RLP.appendHash 32 f.parentHash, RLP.appendHash 32 f.sha3Uncles, RLP.appendHash 20 f.author,
    RLP.appendHash 32 f.stateRoot, RLP.appendHash 32 f.transactionsRoot,
    RLP.appendHash 32 f.receiptsRoot, RLP.appendHash 256 f.logBloom,
    RLP.appendInt f.difficulty, number, RLP.appendInt f.gasLimit,
    RLP.appendInt f.gasUsed, timestamp, RLP.appendData f.extraData]

/-- `streamRLP`, if it does not throw. -/
def streamRLP (f : HeaderFields) : IncludeSeal → Option Bytes
  | .withoutSeal => f.streamRLPFields.map fun fields => RLP.appendList fields.flatten
  | .withSeal => f.streamRLPFields.map fun fields => RLP.appendList (fields ++ f.sealFields).flatten
  | .onlySeal => some f.sealFields.flatten

end HeaderFields

/-- `EmptyTrie` and `EmptyListSHA3`. -/
def Crypto.emptyTrie (C : Crypto) : H256 := C.sha3 (RLP.appendData [])

@[inherit_doc Crypto.emptyTrie]
def Crypto.emptyListSHA3 (C : Crypto) : H256 := C.sha3 (RLP.appendList [])

/-- `BlockHeader`, with its memos. -/
structure MemoHeader extends HeaderFields where
  /-- `m_hash`. -/
  hashMemo : H256 := 0
  /-- `m_hashWithout`. -/
  hashWithoutMemo : H256 := 0
deriving DecidableEq

namespace MemoHeader

/-- `noteDirty`. -/
def noteDirty (h : MemoHeader) : MemoHeader := { h with hashMemo := 0, hashWithoutMemo := 0 }

/-- A member that changes fields and calls `noteDirty`. -/
def mutate (h : MemoHeader) (f : HeaderFields → HeaderFields) : MemoHeader :=
  noteDirty { h with toHeaderFields := f h.toHeaderFields }

section Setters

variable (h : MemoHeader)

def setParentHash (v : H256) : MemoHeader := h.mutate ({ · with parentHash := v })
def setSha3Uncles (v : H256) : MemoHeader := h.mutate ({ · with sha3Uncles := v })
def setTimestamp (v : ℤ) : MemoHeader := h.mutate ({ · with timestamp := v })
def setAuthor (v : BitVec 160) : MemoHeader := h.mutate ({ · with author := v })
def setRoots (t r u s : H256) : MemoHeader :=
  h.mutate ({ · with
    transactionsRoot := t, receiptsRoot := r, stateRoot := s, sha3Uncles := u })
def setGasUsed (v : ℕ) : MemoHeader := h.mutate ({ · with gasUsed := v })
def setNumber (v : ℤ) : MemoHeader := h.mutate ({ · with number := v })
def setGasLimit (v : ℕ) : MemoHeader := h.mutate ({ · with gasLimit := v })
def setExtraData (v : Bytes) : MemoHeader := h.mutate ({ · with extraData := v })
def setLogBloom (v : BitVec 2048) : MemoHeader := h.mutate ({ · with logBloom := v })
def setDifficulty (v : ℕ) : MemoHeader := h.mutate ({ · with difficulty := v })

/-- `setSeal`, with the bytes of the value.  The vector is made long enough. -/
def setSeal (offset : ℕ) (rlp : Bytes) : MemoHeader :=
  h.mutate fun f => { f with
    sealFields := (f.sealFields.rightpad (offset + 1) []).set offset rlp }

/-- `clear`. -/
def clear (C : Crypto) : MemoHeader :=
  h.mutate fun _ => {
    sha3Uncles := C.emptyListSHA3
    stateRoot := C.emptyTrie
    transactionsRoot := C.emptyTrie
    receiptsRoot := C.emptyTrie }

end Setters

/-- `populateFromParent`.  The hash of the parent is read as it is memoised, and the memos of the
header are left. -/
def populateFromParent (h parent : MemoHeader) : MemoHeader :=
  { h with
    stateRoot := parent.stateRoot
    number := parent.number + 1
    parentHash := parent.hashMemo
    gasLimit := parent.gasLimit
    difficulty := parent.difficulty
    gasUsed := 0 }

variable (C : Crypto)

/-- The hash of what `streamRLP` writes. -/
def recomputed (h : MemoHeader) (i : IncludeSeal) : Option H256 := (h.streamRLP i).map C.sha3

/-- `hash`, if it does not throw, and the header with its memo. -/
def hash (h : MemoHeader) : IncludeSeal → Option H256 × MemoHeader
  | .withSeal =>
      let value := h.recomputed C .withSeal
      (Memo.read h.hashMemo value, { h with hashMemo := Memo.fill h.hashMemo value })
  | .withoutSeal =>
      let value := h.recomputed C .withoutSeal
      (Memo.read h.hashWithoutMemo value,
        { h with hashWithoutMemo := Memo.fill h.hashWithoutMemo value })
  | .onlySeal => (h.recomputed C .onlySeal, h)

end MemoHeader

/-! ## Runs -/

/-- A call of a public member of a numbered header. -/
inductive HeaderOp where
  | setParentHash (i : ℕ) (v : H256)
  | setSha3Uncles (i : ℕ) (v : H256)
  | setTimestamp (i : ℕ) (v : ℤ)
  | setAuthor (i : ℕ) (v : BitVec 160)
  | setRoots (i : ℕ) (t r u s : H256)
  | setGasUsed (i v : ℕ)
  | setNumber (i : ℕ) (v : ℤ)
  | setGasLimit (i v : ℕ)
  | setExtraData (i : ℕ) (v : Bytes)
  | setLogBloom (i : ℕ) (v : BitVec 2048)
  | setDifficulty (i v : ℕ)
  | setSeal (i offset : ℕ) (rlp : Bytes)
  | clear (i : ℕ)
  | noteDirty (i : ℕ)
  /-- The header `i` is populated from the header `j`. -/
  | populateFromParent (i j : ℕ)
  /-- The header `i` becomes a copy of the header `j`. -/
  | copy (i j : ℕ)
  | hash (i : ℕ) (mode : IncludeSeal)

/-- The headers of a program. -/
abbrev Headers := ℕ → MemoHeader

namespace Headers

/-- New headers, whose fields may have been read from anywhere. -/
def start (fields : ℕ → HeaderFields) : Headers := fun i => { toHeaderFields := fields i }

variable (C : Crypto) (s : Headers)

/-- The header that is changed by a call, and what it becomes. -/
def change : HeaderOp → ℕ × MemoHeader
  | .setParentHash i v => (i, (s i).setParentHash v)
  | .setSha3Uncles i v => (i, (s i).setSha3Uncles v)
  | .setTimestamp i v => (i, (s i).setTimestamp v)
  | .setAuthor i v => (i, (s i).setAuthor v)
  | .setRoots i t r u v => (i, (s i).setRoots t r u v)
  | .setGasUsed i v => (i, (s i).setGasUsed v)
  | .setNumber i v => (i, (s i).setNumber v)
  | .setGasLimit i v => (i, (s i).setGasLimit v)
  | .setExtraData i v => (i, (s i).setExtraData v)
  | .setLogBloom i v => (i, (s i).setLogBloom v)
  | .setDifficulty i v => (i, (s i).setDifficulty v)
  | .setSeal i offset rlp => (i, (s i).setSeal offset rlp)
  | .clear i => (i, (s i).clear C)
  | .noteDirty i => (i, (s i).noteDirty)
  | .populateFromParent i j => (i, (s i).populateFromParent (s j))
  | .copy i j => (i, s j)
  | .hash i mode => (i, ((s i).hash C mode).2)

def next (op : HeaderOp) : Headers := Function.update s (change C s op).1 (change C s op).2

/-- Every hash that a header gives is that of what it would write. -/
def Right : Prop := ∀ i mode, ((s i).hash C mode).1 = (s i).recomputed C mode

/-- `populateFromParent` finds each memo unset, or leaves the hash that it holds. -/
def Lasting : HeaderOp → Prop
  | .populateFromParent i j =>
      let h' := (s i).populateFromParent (s j)
      ((s i).hashMemo = 0 ∨ h'.recomputed C .withSeal = (s i).recomputed C .withSeal) ∧
      ((s i).hashWithoutMemo = 0 ∨
        h'.recomputed C .withoutSeal = (s i).recomputed C .withoutSeal)
  | _ => True

end Headers

/-! ## Freshness -/

namespace MemoHeader

variable {C : Crypto} {h : MemoHeader}

/-- Both memos are unset or right. -/
structure Fresh (C : Crypto) (h : MemoHeader) : Prop where
  withSeal : Memo.Fresh h.hashMemo (h.recomputed C .withSeal)
  withoutSeal : Memo.Fresh h.hashWithoutMemo (h.recomputed C .withoutSeal)

/-- The answers are right exactly if the memos are fresh. -/
theorem fresh_iff : h.Fresh C ↔ ∀ mode, (h.hash C mode).1 = h.recomputed C mode := by
  constructor
  · rintro ⟨hwith, hwithout⟩ mode
    cases mode with
    | withSeal => exact Memo.read_eq_iff.mpr hwith
    | withoutSeal => exact Memo.read_eq_iff.mpr hwithout
    | onlySeal => rfl
  · exact fun hall => ⟨Memo.read_eq_iff.mp (hall .withSeal),
      Memo.read_eq_iff.mp (hall .withoutSeal)⟩

theorem fresh_noteDirty (C : Crypto) (h : MemoHeader) : h.noteDirty.Fresh C :=
  ⟨Memo.fresh_zero _, Memo.fresh_zero _⟩

/-- A call of `hash` stores what it gives. -/
theorem Fresh.hash (hfresh : h.Fresh C) (mode : IncludeSeal) : (h.hash C mode).2.Fresh C := by
  cases mode with
  | withSeal => exact ⟨hfresh.withSeal.fill, hfresh.withoutSeal⟩
  | withoutSeal => exact ⟨hfresh.withSeal, hfresh.withoutSeal.fill⟩
  | onlySeal => exact hfresh

end MemoHeader

namespace Headers

variable {C : Crypto} {s : Headers}

theorem right_iff : s.Right C ↔ ∀ i, (s i).Fresh C :=
  forall_congr' fun _ => MemoHeader.fresh_iff.symm

/-- What a call makes of a header is fresh exactly if the call is lasting. -/
theorem fresh_change_iff (h : ∀ i, (s i).Fresh C) (op : HeaderOp) :
    (change C s op).2.Fresh C ↔ Lasting C s op := by
  cases op with
  | populateFromParent i j =>
      have hfresh := h i
      rw [Lasting, ← hfresh.withSeal.change_iff, ← hfresh.withoutSeal.change_iff]
      exact ⟨fun h' => ⟨h'.withSeal, h'.withoutSeal⟩, fun h' => ⟨h'.1, h'.2⟩⟩
  | copy i j => exact iff_of_true (h j) trivial
  | hash i mode => exact iff_of_true ((h i).hash mode) trivial
  | _ => exact iff_of_true (MemoHeader.fresh_noteDirty C _) trivial

/-- A call keeps all answers right exactly if it is lasting. -/
theorem right_next_iff (h : s.Right C) (op : HeaderOp) :
    (s.next C op).Right C ↔ Lasting C s op := by
  have hfresh := right_iff.mp h
  rw [right_iff, ← fresh_change_iff hfresh op, next,
    Function.forall_update_iff s fun _ h => MemoHeader.Fresh C h]
  exact and_iff_left fun i _ => hfresh i

theorem right_start (C : Crypto) (fields : ℕ → HeaderFields) : (start fields).Right C :=
  right_iff.mpr fun _ => ⟨Memo.fresh_zero _, Memo.fresh_zero _⟩

/-- In a run, all hashes are right in every state exactly if every call is lasting. -/
theorem hashes_along_iff (C : Crypto) (fields : ℕ → HeaderFields) (ops : List HeaderOp) :
    (∀ s ∈ trail (next C) id (start fields) ops, s.Right C) ↔
      Along (next C) (Lasting C) (start fields) ops :=
  forall_trail_iff (fun _ h => h) (fun _ op h => right_next_iff h op)
    (fun _ op h hok => (right_next_iff h op).mpr hok) ops (right_start C fields)

end Headers

/-! ## An instance to evaluate on -/

/-- A hash that tells a few headers and transactions apart. -/
def foldHash (bs : Bytes) : H256 := BitVec.ofNat 256 (bs.foldl (fun n b => n * 3 + b.toNat) 1)

/-- Without signatures and trie roots, which headers do not use. -/
def foldCrypto : Crypto where
  sha3 := foldHash
  trieRootOver := fun _ => 0
  sign := fun _ _ => 0
  verify := fun _ _ _ => true

end CppSwc
