import CppSwc.Core.HeaderMemo

/-!
# The head under a block

The two headers of a `Block` of libethereum, and `sync`, which puts the block on a head of the
chain.  The new header takes the hash of the header before as it is memoised, and the head is
recognised by fields that do not include the seal.

Headers with the same fields have the same hash without seal and others have not, so that is
what `sealBlock` compares.  Where a hash throws, the block is left as it is then.  Of the state
only the check of its root is kept.
-/

namespace CppSwc

open Lib

namespace MemoHeader

/-- `operator==`.  The seal is not compared. -/
def same (h h' : MemoHeader) : Bool :=
  decide ({ h.toHeaderFields with sealFields := [] } = { h'.toHeaderFields with sealFields := [] })

end MemoHeader

/-- What a seal engine sets after `SealEngineFace::populateFromParent`, if it does. -/
structure HeaderEngine where
  difficulty : MemoHeader → MemoHeader → Option ℕ
  gasLimit : MemoHeader → Option ℕ

/-- `populateFromParent` of a seal engine. -/
def HeaderEngine.populateFromParent (E : HeaderEngine) (bi parent : MemoHeader) : MemoHeader :=
  let bi := bi.populateFromParent parent
  let bi := (E.difficulty bi parent).elim bi bi.setDifficulty
  (E.gasLimit parent).elim bi bi.setGasLimit

/-- What a block depends on. -/
structure BlockEnv where
  C : Crypto
  sealEngine : HeaderEngine
  constantinopleForkBlock : ℤ
  /-- The root is in the state database. -/
  stored : H256 → Bool

/-- A header from RLP, whose hash is known. -/
structure ParsedHeader where
  header : MemoHeader
  hash_ne_zero : header.hashMemo ≠ 0

/-- A known block, with its header and its state. -/
structure KnownBlock (env : BlockEnv) extends ParsedHeader where
  timestamp_nonneg : 0 ≤ header.timestamp
  stored : env.stored header.stateRoot = true

/-- The hash of a known block. -/
def KnownBlock.hash {env : BlockEnv} (b : KnownBlock env) : H256 := b.header.hashMemo

/-- `Block`. -/
structure HeadBlock where
  previousBlock : MemoHeader
  currentBlock : MemoHeader
  author : BitVec 160
  /-- `m_transactions`. -/
  transactions : List H256 := []
  committedToSeal : Bool := false
  /-- `isSealed`. -/
  isSealed : Bool := false

namespace HeadBlock

variable (env : BlockEnv)

/-- The constructors. -/
def fresh (author : BitVec 160) : HeadBlock where
  previousBlock := MemoHeader.clear {} env.C
  currentBlock := MemoHeader.clear {} env.C
  author := author

/-- `updateBlockhashContract` asks for the hash of the header before. -/
def updateBlockhashContract (b : HeadBlock) : HeadBlock :=
  if env.constantinopleForkBlock ≤ b.currentBlock.number then
    { b with previousBlock := (b.previousBlock.hash env.C .withSeal).2 }
  else b

/-- `resetCurrent`. -/
def resetCurrent (b : HeadBlock) (timestamp : ℤ) : HeadBlock :=
  let current := (MemoHeader.setAuthor {} b.author).setTimestamp
    (max (b.previousBlock.timestamp + 1) timestamp)
  updateBlockhashContract env { b with
    transactions := []
    currentBlock := env.sealEngine.populateFromParent current b.previousBlock
    isSealed := false
    committedToSeal := false }

/-- `setAuthor`. -/
def setAuthor (b : HeadBlock) (author : BitVec 160) (utcTime : ℤ) : HeadBlock :=
  resetCurrent env { b with author := author } utcTime

/-- The check at the start of `execute`, and what it adds. -/
def execute (b : HeadBlock) (tx : H256) : HeadBlock :=
  if b.isSealed then b else { b with transactions := b.transactions ++ [tx] }

/-- What `commitToSeal` computes for the header. -/
structure Totals where
  logBloom : BitVec 2048
  gasUsed : ℕ
  transactionsRoot : H256
  receiptsRoot : H256
  sha3Uncles : H256
  stateRoot : H256
  extraData : Bytes

/-- `commitToSeal`, which throws if the block is sealed, or if the header before has no hash. -/
def commitToSeal (b : HeadBlock) (t : Totals) : HeadBlock :=
  if b.isSealed then b
  else
    let current := b.currentBlock.setLogBloom t.logBloom
    let current := current.setGasUsed t.gasUsed
    let current := current.setRoots t.transactionsRoot t.receiptsRoot t.sha3Uncles t.stateRoot
    match b.previousBlock.hash env.C .withSeal with
    | (none, previous) =>
        { b with previousBlock := previous, currentBlock := current, committedToSeal := false }
    | (some parent, previous) =>
        let current := current.setParentHash parent
        { b with
          previousBlock := previous
          currentBlock := current.setExtraData (t.extraData.take 32)
          committedToSeal := true }

/-- `sealBlock`, which throws if the header has no hash. -/
def sealBlock (b : HeadBlock) (p : ParsedHeader) : HeadBlock :=
  if b.committedToSeal = true ∧ p.header.same b.currentBlock = true ∧
      (b.currentBlock.streamRLP .withoutSeal).isSome = true then
    { b with currentBlock := p.header, isSealed := true }
  else b

/-- `sync`.  There is no result if the root is not stored. -/
def sync (b : HeadBlock) (bi : MemoHeader) (utcTime : ℤ) : Option (HeadBlock × Bool) :=
  if bi.same b.currentBlock then
    some (resetCurrent env { b with previousBlock := b.currentBlock } utcTime, true)
  else if bi.same b.previousBlock then some (b, false)
  else if env.stored bi.stateRoot then
    some (resetCurrent env { b with previousBlock := bi } utcTime, true)
  else none

/-- The block stands on a head. -/
structure StandsOn (b : HeadBlock) (h : H256) (n : ℤ) : Prop where
  hash_previous : (b.previousBlock.hash env.C .withSeal).1 = some h
  parentHash : b.currentBlock.parentHash = h
  number : b.currentBlock.number = n + 1

end HeadBlock

/-! ## Runs -/

open HeadBlock in
/-- What happens to a block. -/
inductive BlockOp (env : BlockEnv) where
  | resetCurrent (timestamp : ℤ)
  | setAuthor (author : BitVec 160) (utcTime : ℤ)
  | execute (tx : H256)
  | commitToSeal (t : Totals)
  | sealBlock (p : ParsedHeader)
  | sync (bi : KnownBlock env) (utcTime : ℤ)

namespace HeadBlock

variable {env : BlockEnv}

def next (b : HeadBlock) : BlockOp env → HeadBlock
  | .resetCurrent timestamp => b.resetCurrent env timestamp
  | .setAuthor author utcTime => b.setAuthor env author utcTime
  | .execute tx => b.execute tx
  | .commitToSeal t => b.commitToSeal env t
  | .sealBlock p => b.sealBlock p
  | .sync bi utcTime => ((b.sync env bi.header utcTime).map Prod.fst).getD b

/-- A `sync` ends on its head. -/
def Arrives (b : HeadBlock) : BlockOp env → Prop
  | .sync bi utcTime => ∃ r, b.sync env bi.header utcTime = some r ∧
      StandsOn env r.1 bi.hash bi.header.number
  | _ => True

/-- The header that `sync` takes for its head has memoised the hash of it. -/
def Recognises (b : HeadBlock) : BlockOp env → Prop
  | .sync bi _ =>
      if bi.header.same b.currentBlock then b.currentBlock.hashMemo = bi.hash
      else bi.header.same b.previousBlock = true → b.previousBlock.hashMemo = bi.hash
  | _ => True

/-- The header before has no timestamp yet, or its hash is memoised and the block stands on
it. -/
def Based (b : HeadBlock) : Prop :=
  b.previousBlock.timestamp = -1 ∨
    b.previousBlock.hashMemo ≠ 0 ∧
      b.currentBlock.parentHash = b.previousBlock.hashMemo ∧
      b.currentBlock.number = b.previousBlock.number + 1

variable {b : HeadBlock}

/-! ## New headers -/

theorem hash_of_memo {C : Crypto} {h : MemoHeader} (h0 : h.hashMemo ≠ 0) :
    h.hash C .withSeal = (some h.hashMemo, h) := by
  simp only [MemoHeader.hash, Memo.fill, Memo.read, if_neg h0, Option.getD_some]

theorem populateFromParent_eq (E : HeaderEngine) (bi parent : MemoHeader) :
    (E.populateFromParent bi parent).parentHash = parent.hashMemo ∧
      (E.populateFromParent bi parent).number = parent.number + 1 := by
  rw [HeaderEngine.populateFromParent]
  cases E.difficulty (bi.populateFromParent parent) parent <;> cases E.gasLimit parent <;>
    exact ⟨rfl, rfl⟩

/-- A new header takes the memoised hash of the one before, which is left as it is but for its
memo. -/
theorem resetCurrent_eq (env : BlockEnv) (b : HeadBlock) (timestamp : ℤ) :
    (b.resetCurrent env timestamp).currentBlock.parentHash = b.previousBlock.hashMemo ∧
      (b.resetCurrent env timestamp).currentBlock.number = b.previousBlock.number + 1 ∧
      (b.resetCurrent env timestamp).previousBlock.toHeaderFields =
        b.previousBlock.toHeaderFields ∧
      (b.previousBlock.hashMemo ≠ 0 →
        (b.resetCurrent env timestamp).previousBlock = b.previousBlock) := by
  have hnew := populateFromParent_eq env.sealEngine
    ((MemoHeader.setAuthor {} b.author).setTimestamp
      (max (b.previousBlock.timestamp + 1) timestamp)) b.previousBlock
  rw [resetCurrent, updateBlockhashContract]
  split
  · refine ⟨hnew.1, hnew.2, rfl, fun h0 => ?_⟩
    dsimp only
    rw [hash_of_memo h0]
  · exact ⟨hnew.1, hnew.2, rfl, fun _ => rfl⟩

/-- A reset over a memoised hash. -/
theorem based_resetCurrent (timestamp : ℤ)
    (h : b.previousBlock.timestamp = -1 ∨ b.previousBlock.hashMemo ≠ 0) :
    (b.resetCurrent env timestamp).Based := by
  obtain ⟨hparent, hnumber, hfields, hmemo⟩ := resetCurrent_eq env b timestamp
  rcases h with hnone | h0
  · exact .inl ((congrArg HeaderFields.timestamp hfields).trans hnone)
  · rw [Based, hmemo h0]
    exact .inr ⟨h0, hparent, hnumber⟩

theorem Based.or_memo (h : b.Based) :
    b.previousBlock.timestamp = -1 ∨ b.previousBlock.hashMemo ≠ 0 := h.imp_right And.left

theorem same_eq {h h' : MemoHeader} (hsame : h.same h' = true) :
    h.number = h'.number ∧ h.timestamp = h'.timestamp ∧ h.parentHash = h'.parentHash := by
  have heq := HeaderFields.mk.inj (of_decide_eq_true hsame)
  exact ⟨heq.2.2.2.2.2.2.1, heq.2.2.2.2.2.2.2.2.2.2.1, heq.1⟩

/-! ## One call of `sync` -/

variable {bi : KnownBlock env} {utcTime : ℤ}

/-- A block stays based if it recognises its heads. -/
theorem Based.next (hbased : b.Based) (op : BlockOp env) (hok : b.Recognises op) :
    (b.next op).Based := by
  cases op with
  | resetCurrent timestamp => exact based_resetCurrent timestamp hbased.or_memo
  | setAuthor author utcTime =>
      exact based_resetCurrent (b := { b with author := author }) utcTime hbased.or_memo
  | execute tx =>
      rw [HeadBlock.next, execute]
      split <;> exact hbased
  | commitToSeal t =>
      rw [HeadBlock.next, commitToSeal]
      split
      · exact hbased
      · rcases hbased with hnone | ⟨hmemo, hparent, hnumber⟩
        · -- the hash of the header before changes only its memo
          dsimp only
          split
          all_goals
            next hhash => exact .inl ((congrArg (·.2.timestamp) hhash).symm.trans hnone)
        · simp only [hash_of_memo hmemo]
          exact .inr ⟨hmemo, rfl, hnumber⟩
  | sealBlock p =>
      rw [HeadBlock.next, sealBlock]
      split
      · next hsame =>
          obtain ⟨hnumber', -, hparent'⟩ := same_eq hsame.2.1
          rcases hbased with hnone | ⟨hmemo, hparent, hnumber⟩
          · exact .inl hnone
          · exact .inr ⟨hmemo, hparent'.trans hparent, hnumber'.trans hnumber⟩
      · exact hbased
  | sync bi utcTime =>
      have h0 : bi.hash ≠ 0 := bi.hash_ne_zero
      rw [Recognises] at hok
      rw [HeadBlock.next, sync]
      split
      · next hcurrent =>
          rw [if_pos hcurrent] at hok
          exact based_resetCurrent (b := { b with previousBlock := b.currentBlock }) utcTime
            (.inr (hok.trans_ne h0))
      split
      · exact hbased
      · rw [if_pos bi.stored]
        exact based_resetCurrent (b := { b with previousBlock := bi.header }) utcTime (.inr h0)

end HeadBlock

end CppSwc
