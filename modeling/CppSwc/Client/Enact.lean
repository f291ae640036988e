import CppSwc.Client.Receipts
import CppSwc.Core.HeaderMemo
import CppSwc.Executive.Executive

/-!
# Enacting a block

`Block::enact` of libethereum, which plays a block on the state of its parent and compares what
comes out with the header.

* The state, the execution of a transaction in it and the chain are parameters.  `withExecutive`
  takes the state and the execution of `Executive`.
* `prepare` is `enact` up to the commit, and `finish` the rest.  A failed assertion is an
  exception too.

`play` executes transactions one after the other and keeps what each of them gives.  It says what
a header should describe.
-/

namespace CppSwc.Enact

open Lib Evm ClientBase

/-- A header that was read, with its hash. -/
structure ReadHeader extends HeaderFields where
  hash : H256

/-- `VerifiedBlockRef`, with the items of `RLP(block)[2]`. -/
structure VerifiedBlock (T : Type) where
  info : ReadHeader
  transactions : List T
  uncles : List Bytes

/-- What is known of a transaction that was executed.  Its gas is asked for after the commit. -/
structure Executed (ε : Type) where
  statusCode : Bool
  gasUsed : Except ε U256
  logs : LogEntries

/-- Why an uncle is refused. -/
inductive UncleError where
  | uncleInChain
  | invalidHeader
  | unknownParent
  | uncleTooOld
  | uncleIsBrother
  | uncleParentNotInChain
  | notVerified

/-- The exceptions. -/
inductive EnactError (ε : Type) where
  | assertion
  | invalidOperationOnSealedBlock
  /-- `errinfo_transactionIndex`, and the exception of the execution. -/
  | transaction (i : ℕ) (e : ε)
  | invalidReceiptsStateRoot
  | invalidLogBloom
  | tooManyUncles
  | uncle (ii : ℕ) (e : UncleError)
  | invalidStateRoot
  | invalidGasUsed

/-- What enacting depends on. -/
structure EnactEnv (ε σ T : Type) where
  sha3 : Bytes → H256
  /-- `sha3` of a transaction. -/
  transactionHash : T → H256
  logHashes : LogHashes
  orderedTrieRoot : List Bytes → H256
  /-- `TransactionReceipt::streamRLP`. -/
  streamRLP : ClientBase.TransactionReceipt → Bytes
  /-- The constructor of `BlockHeader` for a header. -/
  readHeader : Bytes → Option HeaderFields
  /-- `BlockHeader::verify` with a parent. -/
  verify : HeaderFields → HeaderFields → Bool
  /-- `Executive` with the header and the gas used before. -/
  executeTransaction : HeaderFields → U256 → T → EStateM ε σ (Executed ε)
  /-- `State::addBalance`. -/
  addBalance : Address → U256 → σ → σ
  /-- `State::commit`, which removes empty accounts or not. -/
  commit : Bool → σ → σ
  rootHash : σ → H256
  /-- `rollback` of the database of a state. -/
  rollback : σ → σ
  blockReward : ℤ → U256
  eip158ForkBlock : ℤ
  byzantiumForkBlock : ℤ
  allKinFrom : H256 → ℕ → List H256
  isKnown : H256 → Bool
  /-- The header of a stored block. -/
  block : H256 → ReadHeader
  /-- `details(..).parent`. -/
  parent : H256 → H256

/-- `Block`. -/
structure EnactBlock (σ T : Type) where
  previousBlock : ReadHeader
  currentBlock : ReadHeader
  state : σ
  precommit : σ
  committedToSeal : Bool := false
  isSealed : Bool := false
  transactions : List T := []
  receipts : List ClientBase.TransactionReceipt := []
  /-- `m_transactionSet`. -/
  transactionSet : Std.ExtTreeSet H256 := ∅

namespace EnactBlock

variable {σ T : Type}

/-- `gasUsed`. -/
def gasUsed (b : EnactBlock σ T) : U256 := (b.receipts.getLast?.map (·.cumulativeGasUsed)).getD 0

/-- The union of blooms. -/
def bloomOf (receipts : List ClientBase.TransactionReceipt) : LogBloom :=
  receipts.foldl (fun ret i => ret.or i.bloom) .empty

/-- `logBloom`. -/
def logBloom (b : EnactBlock σ T) : LogBloom := bloomOf b.receipts

/-- `uncommitToSeal`. -/
def uncommitToSeal (b : EnactBlock σ T) : EnactBlock σ T :=
  if b.committedToSeal then { b with state := b.precommit, committedToSeal := false } else b

end EnactBlock

variable {ε σ T : Type} (E : EnactEnv ε σ T)

/-! ## Transactions -/

/-- `State::execute` for a transaction that is to be committed, with the gas of the
transaction. -/
def stateExecute (info : HeaderFields) (startGasUsed : U256) (t : T) :
    EStateM ε σ (ClientBase.TransactionReceipt × U256) := do
  let e ← E.executeTransaction info startGasUsed t
  modify (E.commit (decide (E.eip158ForkBlock ≤ info.number)))
  let s ← get
  match e.gasUsed with
  | .error x => throw x
  | .ok used =>
      pure ({
        statusCodeOrStateRoot :=
          if E.byzantiumForkBlock ≤ info.number then .inl (if e.statusCode then 1 else 0)
          else .inr (E.rootHash s)
        cumulativeGasUsed := startGasUsed + used
        bloom := e.logs.bloom E.logHashes
        log := e.logs }, used)

/-- An action with a block. -/
abbrev Action (ε σ T : Type) := EStateM (EnactError ε) (EnactBlock σ T)

/-- The execution itself, of transaction `i` of the block. -/
def executeCommitted (i : ℕ) (t : T) : Action ε σ T Unit := fun b =>
  match stateExecute E b.currentBlock.toHeaderFields b.gasUsed t b.state with
  | .error x s => .error (.transaction i x) { b with state := s }
  | .ok r s => .ok ⟨⟩ { b with
      state := s
      transactions := b.transactions ++ [t]
      receipts := b.receipts ++ [r.1]
      transactionSet := b.transactionSet.insert (E.transactionHash t) }

/-- `execute` for a transaction that is to be committed. -/
def execute (i : ℕ) (t : T) : Action ε σ T Unit := do
  let b ← get
  throwIf b.isSealed .invalidOperationOnSealedBlock
  modify EnactBlock.uncommitToSeal
  executeCommitted E i t

/-- `m_receipts.back().streamRLP`. -/
def lastReceipt (b : EnactBlock σ T) : Bytes := (b.receipts.getLast?.map E.streamRLP).getD []

/-- The transactions from `i` on, with the receipts as they are encoded. -/
def playback : ℕ → List T → Action ε σ T (List Bytes)
  | _, [] => pure []
  | i, t :: ts => do
      execute E i t
      let b ← get
      let receipts ← playback (i + 1) ts
      pure (lastReceipt E b :: receipts)

/-! ## Uncles -/

/-- An uncle that is none of the excluded blocks. -/
def checkUncle (info : ReadHeader) (excluded : List H256) (i : Bytes) :
    Except UncleError HeaderFields :=
  if excluded.contains (E.sha3 i) then .error .uncleInChain
  else
    match E.readHeader i with
    | none => .error .invalidHeader
    | some uncle =>
        let uncleParent := E.block uncle.parentHash
        let depth := info.number - uncle.number
        if E.isKnown uncle.parentHash = false then .error .unknownParent
        else if 6 < depth then .error .uncleTooOld
        else if depth < 1 then .error .uncleIsBrother
        else if E.parent^[depth.toNat] info.parentHash ≠ uncleParent.hash then
          .error .uncleParentNotInChain
        else if E.verify uncle uncleParent.toHeaderFields = false then .error .notVerified
        else .ok uncle

/-- The uncles from `ii` on.  Every uncle is excluded for those after it. -/
def checkUncles (info : ReadHeader) :
    ℕ → List H256 → List Bytes → Except (EnactError ε) (List HeaderFields)
  | _, _, [] => .ok []
  | ii, excluded, i :: is =>
      match checkUncle E info excluded i with
      | .error e => .error (.uncle ii e)
      | .ok uncle => (checkUncles info (ii + 1) (E.sha3 i :: excluded) is).map (uncle :: ·)

/-- What the author of an uncle gets. -/
def uncleReward (blockReward : U256) (number uncleNumber : ℤ) : U256 :=
  blockReward * BitVec.ofInt 256 (8 + uncleNumber - number) / 8

/-- `applyRewards`. -/
def applyRewards (info : HeaderFields) (uncles : List HeaderFields) (blockReward : U256) (s : σ) : σ :=
  let s := uncles.foldl (fun s i =>
    E.addBalance i.author (uncleReward blockReward info.number i.number) s) s
  E.addBalance info.author (blockReward + (uncles.map fun _ => blockReward / 32).sum) s

/-! ## The block -/

/-- The blocks that no uncle may be. -/
def excludedUncles (v : VerifiedBlock T) : List H256 :=
  v.info.hash :: E.allKinFrom v.info.parentHash 6

/-- `enact` up to the commit.  After the assertions the parent hash need not be compared again. -/
def prepare (v : VerifiedBlock T) : Action ε σ T Unit := do
  let b ← get
  throwIf (b.previousBlock.hash ≠ v.info.parentHash) .assertion
  throwIf (b.currentBlock.parentHash ≠ v.info.parentHash) .assertion
  modify ({ · with currentBlock := v.info })
  let receipts ← playback E 0 v.transactions
  let b ← get
  throwIf (E.orderedTrieRoot receipts ≠ v.info.receiptsRoot) .invalidReceiptsStateRoot
  throwIf (v.info.logBloom ≠ b.logBloom.bits) .invalidLogBloom
  throwIf (2 < v.uncles.length) .tooManyUncles
  match checkUncles E v.info 0 (excludedUncles E v) v.uncles with
  | .error e => throw e
  | .ok rewarded =>
      modify fun b => { b with
        state := applyRewards E v.info.toHeaderFields rewarded (E.blockReward v.info.number) b.state }

/-- The commit. -/
def commit (b : EnactBlock σ T) : EnactBlock σ T :=
  { b with state := E.commit (decide (E.eip158ForkBlock ≤ b.currentBlock.number)) b.state }

/-- `m_state.db().rollback()`. -/
def rollback (b : EnactBlock σ T) : EnactBlock σ T := { b with state := E.rollback b.state }

/-- The checks after the commit. -/
def finish (v : VerifiedBlock T) : Action ε σ T ℕ := do
  let b ← get
  if v.info.stateRoot ≠ b.previousBlock.stateRoot ∧ v.info.stateRoot ≠ E.rootHash b.state then
    modify (rollback E)
    throw .invalidStateRoot
  else if v.info.gasUsed ≠ b.gasUsed.toNat then
    modify (rollback E)
    throw .invalidGasUsed
  else pure v.info.difficulty

/-- `enact`. -/
def enact (v : VerifiedBlock T) : Action ε σ T ℕ := do
  prepare E v
  modify (commit E)
  finish E v

/-! ## What a header should describe -/

/-- Transactions one after the other, with their receipts and their gas. -/
def play (info : HeaderFields) :
    U256 → List T → EStateM ε σ (List (ClientBase.TransactionReceipt × U256))
  | _, [] => pure []
  | gas, t :: ts => do
      let r ← stateExecute E info gas t
      let rs ← play info r.1.cumulativeGasUsed ts
      pure (r :: rs)

/-- The state after the rewards and the commit. -/
def rewardAll (v : VerifiedBlock T) (s : σ) : Option σ :=
  (v.uncles.mapM E.readHeader).map fun rewarded =>
    E.commit (decide (E.eip158ForkBlock ≤ v.info.number))
      (applyRewards E v.info.toHeaderFields rewarded (E.blockReward v.info.number) s)

/-- The results of the transactions of a block in the state of its parent, and the state after
them and after the rewards. -/
def replay (v : VerifiedBlock T) (s : σ) :
    Option (List (ClientBase.TransactionReceipt × U256) × σ) :=
  match play E v.info.toHeaderFields 0 v.transactions s with
  | .error _ _ => none
  | .ok results s => (rewardAll E v s).map (results, ·)

/-- A header describes the results and the state. -/
structure Describes (info : HeaderFields)
    (results : List (ClientBase.TransactionReceipt × U256)) (s : σ) : Prop where
  stateRoot : info.stateRoot = E.rootHash s
  gasUsed : info.gasUsed = (results.map Prod.snd).sum.toNat
  receiptsRoot : info.receiptsRoot = E.orderedTrieRoot (results.map fun r => E.streamRLP r.1)
  logBloom : info.logBloom = (EnactBlock.bloomOf (results.map Prod.fst)).bits

/-- A block is put on its parent and nothing is executed yet. -/
structure Reset (b : EnactBlock σ T) : Prop where
  receipts : b.receipts = []
  committedToSeal : b.committedToSeal = false
  isSealed : b.isSealed = false

/-- All that `enact` compares but the root of the state, with the results of the transactions. -/
structure Otherwise (v : VerifiedBlock T) (b : EnactBlock σ T)
    (results : List (ClientBase.TransactionReceipt × U256)) : Prop where
  previousBlock : b.previousBlock.hash = v.info.parentHash
  currentBlock : b.currentBlock.parentHash = v.info.parentHash
  gasUsed : v.info.gasUsed = (results.map Prod.snd).sum.toNat
  receiptsRoot : v.info.receiptsRoot = E.orderedTrieRoot (results.map fun r => E.streamRLP r.1)
  logBloom : v.info.logBloom = (EnactBlock.bloomOf (results.map Prod.fst)).bits
  uncles_le : v.uncles.length ≤ 2
  uncles : ∃ rewarded, checkUncles E v.info 0 (excludedUncles E v) v.uncles = .ok rewarded

/-- If all else is right and the header has the root of the parent, so has the state after the
block. -/
def KeepsRoot (v : VerifiedBlock T) (b : EnactBlock σ T) : Prop :=
  ∀ results s, replay E v b.state = some (results, s) → Otherwise E v b results →
    v.info.stateRoot = b.previousBlock.stateRoot → E.rootHash s = b.previousBlock.stateRoot

/-- If `enact` returns, the header describes what the block does to the state.  If it throws
after the commit, the database is rolled back. -/
structure Right (v : VerifiedBlock T) (b : EnactBlock σ T) : Prop where
  describes : ∀ td b', enact E v b = .ok td b' →
    ∃ results, replay E v b.state = some (results, b'.state) ∧
      Describes E v.info.toHeaderFields results b'.state
  rolledBack : ∀ b₁ e b', prepare E v b = .ok ⟨⟩ b₁ → enact E v b = .error e b' →
    b' = rollback E (commit E b₁)

variable {E} {v : VerifiedBlock T} {b b' : EnactBlock σ T} {i : ℕ} {t : T} {ts : List T}

/-! ## Playing -/

/-- What is known of a block after some transactions. -/
structure Played (b b' : EnactBlock σ T)
    (results : List (ClientBase.TransactionReceipt × U256)) : Prop where
  previousBlock : b'.previousBlock = b.previousBlock
  currentBlock : b'.currentBlock = b.currentBlock
  committedToSeal : b'.committedToSeal = false
  isSealed : b'.isSealed = b.isSealed
  receipts : b'.receipts = b.receipts ++ results.map Prod.fst
  gasUsed : b'.gasUsed = b.gasUsed + (results.map Prod.snd).sum

theorem cumulativeGasUsed_eq {info : HeaderFields} {gas : U256} {s s' : σ}
    {r : ClientBase.TransactionReceipt × U256} (h : stateExecute E info gas t s = .ok r s') :
    r.1.cumulativeGasUsed = gas + r.2 := by
  obtain ⟨e, s₁, -, h⟩ := bind_eq_ok.mp h
  rw [modify_bind, get_bind] at h
  cases hgas : e.gasUsed with
  | error x =>
      rw [hgas] at h
      cases h
  | ok used =>
      rw [hgas] at h
      cases h
      rfl

theorem execute_spec (hcommitted : b.committedToSeal = false)
    (h : execute E i t b = .ok ⟨⟩ b') :
    ∃ r, stateExecute E b.currentBlock.toHeaderFields b.gasUsed t b.state = .ok r b'.state ∧
      Played b b' [r] := by
  have hsame : b.uncommitToSeal = b := if_neg (by rw [hcommitted]; exact Bool.false_ne_true)
  rw [execute, get_bind, throwIf_bind_eq_ok, modify_bind, hsame, executeCommitted] at h
  obtain ⟨-, h⟩ := h
  cases hrun : stateExecute E b.currentBlock.toHeaderFields b.gasUsed t b.state with
  | error x s =>
      rw [hrun] at h
      cases h
  | ok r s =>
      rw [hrun] at h
      cases h
      refine ⟨r, rfl, rfl, rfl, hcommitted, rfl, rfl, ?_⟩
      rw [EnactBlock.gasUsed, List.getLast?_concat, Option.map_some, Option.getD_some,
        cumulativeGasUsed_eq hrun]
      simp

/-- A transaction is executed if the state takes it. -/
theorem exists_execute {r : ClientBase.TransactionReceipt × U256} {s : σ}
    (hcommitted : b.committedToSeal = false) (hopen : b.isSealed = false)
    (h : stateExecute E b.currentBlock.toHeaderFields b.gasUsed t b.state = .ok r s) :
    ∃ b', execute E i t b = .ok ⟨⟩ b' ∧ b'.state = s ∧ Played b b' [r] := by
  have hsame : b.uncommitToSeal = b := if_neg (by rw [hcommitted]; exact Bool.false_ne_true)
  have hok : execute E i t b = .ok ⟨⟩ { b with
      state := s
      transactions := b.transactions ++ [t]
      receipts := b.receipts ++ [r.1]
      transactionSet := b.transactionSet.insert (E.transactionHash t) } := by
    rw [execute, get_bind, throwIf_bind_eq_ok, modify_bind, hsame, executeCommitted, h]
    exact ⟨by rw [hopen]; exact Bool.false_ne_true, rfl⟩
  obtain ⟨r', hrun, hplayed⟩ := execute_spec hcommitted hok
  cases h.symm.trans hrun
  exact ⟨_, hok, rfl, hplayed⟩

theorem playback_spec {receipts : List Bytes} (hcommitted : b.committedToSeal = false)
    (h : playback E i ts b = .ok receipts b') :
    ∃ results, play E b.currentBlock.toHeaderFields b.gasUsed ts b.state = .ok results b'.state ∧
      receipts = results.map (fun r => E.streamRLP r.1) ∧ Played b b' results := by
  induction ts generalizing i b receipts with
  | nil =>
      cases h
      exact ⟨[], rfl, rfl, rfl, rfl, hcommitted, rfl, by simp, by simp⟩
  | cons t ts ih =>
      obtain ⟨_, b₁, hfirst, h⟩ := bind_eq_ok.mp h
      rw [get_bind] at h
      obtain ⟨rest, b₂, hrest, h⟩ := bind_eq_ok.mp h
      cases h
      obtain ⟨r, hrun, hplayed⟩ := execute_spec hcommitted hfirst
      obtain ⟨results, hplay, rfl, hplayed'⟩ := ih hplayed.committedToSeal hrest
      have hlast : b₁.receipts.getLast? = some r.1 := by
        rw [hplayed.receipts]
        exact List.getLast?_concat
      have hgas : b₁.gasUsed = r.1.cumulativeGasUsed := by
        rw [EnactBlock.gasUsed, hlast]
        rfl
      rw [hplayed.currentBlock, hgas] at hplay
      refine ⟨r :: results, ?_, ?_, ?_⟩
      · rw [play, bind_of_ok hrun, bind_of_ok hplay]
        rfl
      · rw [lastReceipt, hlast]
        rfl
      · refine ⟨hplayed'.previousBlock.trans hplayed.previousBlock,
          hplayed'.currentBlock.trans hplayed.currentBlock, hplayed'.committedToSeal,
          hplayed'.isSealed.trans hplayed.isSealed, ?_, ?_⟩
        · rw [hplayed'.receipts, hplayed.receipts, List.append_assoc]
          rfl
        · rw [hplayed'.gasUsed, hplayed.gasUsed, List.map_singleton, List.sum_singleton, List.map_cons,
            List.sum_cons, BitVec.add_assoc]

theorem exists_playback {results : List (ClientBase.TransactionReceipt × U256)} {s : σ}
    (hcommitted : b.committedToSeal = false) (hopen : b.isSealed = false)
    (h : play E b.currentBlock.toHeaderFields b.gasUsed ts b.state = .ok results s) :
    ∃ receipts b', playback E i ts b = .ok receipts b' := by
  induction ts generalizing i b results s with
  | nil => exact ⟨_, _, rfl⟩
  | cons t ts ih =>
      obtain ⟨r, s₁, hrun, h⟩ := bind_eq_ok.mp h
      obtain ⟨rs, s₂, hrest, -⟩ := bind_eq_ok.mp h
      obtain ⟨b₁, hfirst, rfl, hplayed⟩ := exists_execute (i := i) hcommitted hopen hrun
      have hgas : b₁.gasUsed = r.1.cumulativeGasUsed := by
        rw [hplayed.gasUsed, cumulativeGasUsed_eq hrun, List.map_singleton, List.sum_singleton]
      rw [← hgas, ← hplayed.currentBlock] at hrest
      obtain ⟨receipts, b', hrest'⟩ :=
        ih (i := i + 1) hplayed.committedToSeal (hplayed.isSealed.trans hopen) hrest
      refine ⟨lastReceipt E b₁ :: receipts, b', ?_⟩
      rw [playback, bind_of_ok hfirst, get_bind, bind_of_ok hrest']
      rfl

/-! ## Up to the commit -/

/-- The header of an uncle that is accepted is read from it. -/
theorem readHeader_of_checkUncle {info : ReadHeader} {excluded : List H256} {d : Bytes}
    {uncle : HeaderFields} (h : checkUncle E info excluded d = .ok uncle) :
    E.readHeader d = some uncle := by
  unfold checkUncle at h
  split at h
  · cases h
  · split at h
    · cases h
    · rename_i found hread
      dsimp only at h
      split_ifs at h
      cases h
      exact hread

theorem mapM_of_checkUncles {info : ReadHeader} {ii : ℕ} {excluded : List H256} {is : List Bytes}
    {rewarded : List HeaderFields} (h : checkUncles E info ii excluded is = .ok rewarded) :
    is.mapM E.readHeader = some rewarded := by
  induction is generalizing ii excluded rewarded with
  | nil =>
      cases h
      rfl
  | cons d is ih =>
      rw [checkUncles] at h
      cases hfirst : checkUncle E info excluded d with
      | error e =>
          rw [hfirst] at h
          cases h
      | ok uncle =>
          rw [hfirst] at h
          cases hrest : checkUncles E info (ii + 1) (E.sha3 d :: excluded) is with
          | error e =>
              rw [hrest] at h
              cases h
          | ok rest =>
              rw [hrest] at h
              cases h
              rw [List.mapM_cons, readHeader_of_checkUncle hfirst, ih hrest]
              rfl

/-- Up to the commit the block is played, and all of the header is compared but its root and
its gas. -/
theorem prepare_spec (hreset : Reset b) (h : prepare E v b = .ok ⟨⟩ b') :
    ∃ results, replay E v b.state = some (results, (commit E b').state) ∧
      b'.previousBlock = b.previousBlock ∧ b'.gasUsed = (results.map Prod.snd).sum ∧
      (v.info.gasUsed = b'.gasUsed.toNat → Otherwise E v b results) := by
  rw [prepare, get_bind, throwIf_bind_eq_ok, throwIf_bind_eq_ok, modify_bind, not_not, not_not] at h
  obtain ⟨hparent, hchild, h⟩ := h
  obtain ⟨receipts, b₁, hplayback, h⟩ := bind_eq_ok.mp h
  rw [get_bind, throwIf_bind_eq_ok, throwIf_bind_eq_ok, throwIf_bind_eq_ok, not_not, not_not,
    not_lt] at h
  obtain ⟨hroot, hbloom, hfew, h⟩ := h
  obtain ⟨results, hplay, rfl, hplayed⟩ := playback_spec
    (b := { b with currentBlock := v.info }) hreset.committedToSeal hplayback
  cases huncles : checkUncles E v.info 0 (excludedUncles E v) v.uncles with
  | error e =>
      rw [huncles] at h
      cases h
  | ok rewarded =>
      rw [huncles] at h
      cases h
      have hempty : b.gasUsed = 0 := by rw [EnactBlock.gasUsed, hreset.receipts]; rfl
      have hreceipts : b₁.receipts = results.map Prod.fst := by
        rw [hplayed.receipts, hreset.receipts, List.nil_append]
      have hcurrent : b₁.currentBlock = v.info := hplayed.currentBlock
      have hgas : b₁.gasUsed = b.gasUsed + (results.map Prod.snd).sum := hplayed.gasUsed
      rw [hempty, zero_add] at hgas
      have hplay' : play E v.info.toHeaderFields 0 v.transactions b.state = .ok results b₁.state := by
        rw [← hempty]
        exact hplay
      refine ⟨results, ?_, hplayed.previousBlock, hgas, fun hused =>
        ⟨hparent, hchild, hgas ▸ hused, hroot.symm, ?_, hfew, rewarded, huncles⟩⟩
      · rw [replay, hplay']
        dsimp only
        rw [rewardAll, mapM_of_checkUncles huncles, commit, hcurrent]
        rfl
      · rw [hbloom, EnactBlock.logBloom, hreceipts]

/-- The block gets to its commit if all else is right. -/
theorem exists_prepare {results : List (ClientBase.TransactionReceipt × U256)} {s : σ}
    (hreset : Reset b) (hreplay : replay E v b.state = some (results, s))
    (hother : Otherwise E v b results) : ∃ b₁, prepare E v b = .ok ⟨⟩ b₁ := by
  have hempty : b.gasUsed = 0 := by rw [EnactBlock.gasUsed, hreset.receipts]; rfl
  cases hplay : play E v.info.toHeaderFields 0 v.transactions b.state with
  | error e s' =>
      rw [replay, hplay] at hreplay
      cases hreplay
  | ok results' s' =>
      rw [replay, hplay] at hreplay
      obtain ⟨_, -, heq⟩ := Option.map_eq_some_iff.mp hreplay
      cases heq
      rw [← hempty] at hplay
      obtain ⟨receipts, b₁, hplayback⟩ := exists_playback (i := 0)
        (b := { b with currentBlock := v.info }) hreset.committedToSeal hreset.isSealed hplay
      obtain ⟨results', hplay', rfl, hplayed⟩ := playback_spec
        (b := { b with currentBlock := v.info }) hreset.committedToSeal hplayback
      cases hplay.symm.trans hplay'
      have hreceipts : b₁.receipts = results.map Prod.fst := by
        rw [hplayed.receipts, hreset.receipts, List.nil_append]
      have hbloom : v.info.logBloom = b₁.logBloom.bits := by
        rw [hother.logBloom, EnactBlock.logBloom, hreceipts]
      obtain ⟨rewarded, huncles⟩ := hother.uncles
      refine ⟨{ b₁ with
        state := applyRewards E v.info.toHeaderFields rewarded (E.blockReward v.info.number)
          b₁.state }, ?_⟩
      rw [prepare, get_bind, bind_of_ok (throwIf_of_not (not_not_intro hother.previousBlock)),
        bind_of_ok (throwIf_of_not (not_not_intro hother.currentBlock)), modify_bind,
        bind_of_ok hplayback, get_bind,
        bind_of_ok (throwIf_of_not (not_not_intro hother.receiptsRoot.symm)),
        bind_of_ok (throwIf_of_not (not_not_intro hbloom)),
        bind_of_ok (throwIf_of_not (not_lt_of_ge hother.uncles_le)), huncles]
      rfl

/-! ## The checks after the commit -/

theorem enact_of_prepare {b₁ : EnactBlock σ T} (h : prepare E v b = .ok ⟨⟩ b₁) :
    enact E v b = finish E v (commit E b₁) := by
  rw [enact, bind_of_ok h, modify_bind]

theorem finish_eq_ok {td : ℕ} : finish E v b = .ok td b' ↔
    (v.info.stateRoot = b.previousBlock.stateRoot ∨ v.info.stateRoot = E.rootHash b.state) ∧
      v.info.gasUsed = b.gasUsed.toNat ∧ td = v.info.difficulty ∧ b' = b := by
  rw [finish, get_bind]
  split_ifs with hroot hgas
  · refine iff_of_false (fun h => ?_) fun h => ?_
    · cases h
    · exact h.1.elim hroot.1 hroot.2
  · refine iff_of_false (fun h => ?_) fun h => hgas h.2.1
    cases h
  · rw [pure_eq_ok, not_not] at *
    rw [not_and_or, not_not, not_not] at hroot
    simp [hroot, hgas]

theorem finish_error {e : EnactError ε} (h : finish E v b = .error e b') : b' = rollback E b := by
  rw [finish, get_bind] at h
  split_ifs at h
  · cases h
    rfl
  · cases h
    rfl
  · cases h

/-! ## The execution by `Executive` -/

/-- The execution of transactions by `Executive`, in frames up to `n` levels deep. -/
def withExecutive {H : Type} [DecidableEq H] [CodeHash H]
    (E : EnactEnv Failure (State H) TransactionBase) (M : HeaderFields → U256 → Setting) (n : ℕ) :
    EnactEnv Failure (State H) TransactionBase :=
  { E with
    executeTransaction := fun info startGasUsed t s =>
      match Executive.executeTransaction (M info startGasUsed) (Nested.upTo (M info startGasUsed) n) t
        (Executive.fresh s) with
      | .ok status e => .ok ⟨status, outcome Executive.gasUsed e, e.logs⟩ e.world.state
      | .error x e => .error x e.world.state
    commit := fun removeEmptyAccounts s =>
      s.commit (if removeEmptyAccounts then .removeEmptyAccounts else .keepEmptyAccounts) }

/-- A digest of the balances, in the place of the root of the trie. -/
def balancesRoot (s : State Bytes) : H256 :=
  s.trie.toList.foldl (fun root e => root * 31 + e.2.balance) 0

/-- A chain whose blocks are rewarded with 2. -/
def rewardEnv : EnactEnv Failure (State Bytes) TransactionBase where
  sha3 d := BitVec.ofNat 256 (fromBigEndian d)
  transactionHash t := t.nonce
  logHashes := ⟨fun a => a.zeroExtend 256, id⟩
  orderedTrieRoot receipts := BitVec.ofNat 256 (fromBigEndian receipts.flatten)
  streamRLP r := RLP.appendInt r.cumulativeGasUsed.toNat
  readHeader _ := none
  verify _ _ := true
  executeTransaction _ _ _ := throw .assertion
  addBalance a amount s := after (State.addBalance (fun _ => 0) a amount) s
  commit _ s := s
  rootHash := balancesRoot
  rollback s := s
  blockReward _ := 2
  eip158ForkBlock := 0
  byzantiumForkBlock := 0
  allKinFrom _ _ := []
  isKnown _ := true
  block _ := { hash := 0 }
  parent h := h

/-- The settings of a block with the given header. -/
def headerSetting (info : HeaderFields) (gasUsed : U256) : Setting where
  engine := { evmSchedule := fun _ => .byzantium }
  info := {
    author := info.author
    number := BitVec.ofInt 256 info.number
    gasLimit := BitVec.ofNat 256 info.gasLimit
    gasUsed }
  vm := legacyVM 20
  sha3 := fun _ => 7

/-- Transactions are executed by `Executive`. -/
def executiveEnv : EnactEnv Failure (State Bytes) TransactionBase :=
  withExecutive rewardEnv headerSetting 2

/-- The account 1 has 200000. -/
def unpaid : State Bytes :=
  State.opened (Std.ExtTreeMap.empty.insert 1 ⟨0, 200000, ∅, []⟩) id 0

/-- The account 1 has sent 7 to the account 2 and paid 21000 to the account 9, which has been
rewarded too. -/
def paid : State Bytes :=
  State.opened (((Std.ExtTreeMap.empty.insert 1 ⟨1, 178993, ∅, []⟩).insert 2 ⟨0, 7, ∅, []⟩).insert
    9 ⟨0, 21002, ∅, []⟩) id 0

def onUnpaid : EnactBlock (State Bytes) TransactionBase where
  previousBlock := { stateRoot := balancesRoot unpaid, number := 299, hash := 1 }
  currentBlock := { parentHash := 1, number := 300, hash := 2 }
  state := unpaid
  precommit := unpaid

/-- The block of the account 9 with the transaction, and a header with the given root. -/
def payment (root : H256) : VerifiedBlock TransactionBase where
  info := {
    parentHash := 1
    number := 300
    stateRoot := root
    receiptsRoot := executiveEnv.orderedTrieRoot [RLP.appendInt 21000]
    gasLimit := 1000000
    gasUsed := 21000
    author := 9
    hash := 3 }
  transactions :=
    [{ receiveAddress := 2, value := 7, gasPrice := 1, gas := 30000, cachedSender := 1 }]
  uncles := []

/-- The state after the block, whatever root its header has. -/
theorem enact_payment {root : H256} (h : root = balancesRoot unpaid ∨ root = balancesRoot paid) :
    ∃ b', enact executiveEnv (payment root) onUnpaid = .ok 0 b' ∧
      balancesRoot b'.state = balancesRoot paid := by
  rcases h with rfl | rfl
  · exact ⟨_, eq_ok_of_outcome (by decide +kernel), by decide +kernel⟩
  · exact ⟨_, eq_ok_of_outcome (by decide +kernel), by decide +kernel⟩

/-! ## Blocks that are enacted rightly -/

/-- A block that is put on its parent is enacted rightly exactly if it leads back to the root of
its parent whenever its header has this root and all else is right. -/
theorem enact_right_iff (hreset : Reset b) : Right E v b ↔ KeepsRoot E v b := by
  constructor
  · intro hright results s hreplay hother hsame
    obtain ⟨b₁, hprepare⟩ := exists_prepare hreset hreplay hother
    obtain ⟨_, hreplay', hprevious, hused, -⟩ := prepare_spec hreset hprepare
    cases hreplay.symm.trans hreplay'
    have hok : enact E v b = .ok v.info.difficulty (commit E b₁) := by
      rw [enact_of_prepare hprepare]
      exact finish_eq_ok.mpr ⟨.inl (hsame.trans (congrArg (·.stateRoot) hprevious.symm)),
        hother.gasUsed.trans (congrArg BitVec.toNat hused.symm), rfl, rfl⟩
    obtain ⟨_, -, hdescribes⟩ := hright.describes _ _ hok
    rw [← hdescribes.stateRoot, hsame]
  · intro hkeeps
    constructor
    · intro td b' hok
      obtain ⟨_, b₁, hprepare, hrest⟩ := bind_eq_ok.mp hok
      rw [modify_bind, finish_eq_ok] at hrest
      obtain ⟨hroot, hgas, -, rfl⟩ := hrest
      obtain ⟨results, hreplay, hprevious, -, hother⟩ := prepare_spec hreset hprepare
      have hother := hother hgas
      refine ⟨results, hreplay, ?_, hother.gasUsed, hother.receiptsRoot, hother.logBloom⟩
      rcases hroot with hsame | hroot
      · have hparent : (commit E b₁).previousBlock = b.previousBlock := hprevious
        rw [hparent] at hsame
        rw [hkeeps results _ hreplay hother hsame]
        exact hsame
      · exact hroot
    · intro b₁ e b' hprepare herror
      rw [enact_of_prepare hprepare] at herror
      exact finish_error herror

theorem enact_right_iff_payment :
    (∃ td b', enact executiveEnv (payment (balancesRoot paid)) onUnpaid = .ok td b') ∧
      Right executiveEnv (payment (balancesRoot paid)) onUnpaid := by
  obtain ⟨b', hok, -⟩ := enact_payment (.inr rfl)
  refine ⟨⟨_, b', hok⟩, (enact_right_iff ⟨rfl, rfl, rfl⟩).mpr fun _ _ _ _ hsame => ?_⟩
  exact absurd hsame (by decide +kernel)

/-- A header with the root of its parent is accepted whatever the block does. -/
theorem parentRoot_not_right : ¬Right executiveEnv (payment (balancesRoot unpaid)) onUnpaid := by
  intro hright
  obtain ⟨b', hok, hroot⟩ := enact_payment (.inl rfl)
  obtain ⟨results, -, hdescribes⟩ := hright.describes _ _ hok
  have hsame : balancesRoot unpaid = balancesRoot b'.state := hdescribes.stateRoot
  rw [hroot] at hsame
  revert hsame
  decide +kernel

end CppSwc.Enact
