import CppSwc.Client.Enact
import CppSwc.Executive.Exceptions

/-!
# A transaction that fails in a block

`Block::execute` with the execution by `Executive`.  `Block::sync` drops a transaction for which
it throws and goes on with the next one, on the state that is left.

Two things can be left.  `uncommitToSeal` has taken back what `commitToSeal` did before it is known
whether the transaction is executed at all.  And a call that hands on more gas than its caller has
can make the frame of the transaction end with more gas than the transaction had.  Only `finalize`
finds this out, when the gas is bought and the frame has been run, and nothing takes this back.
-/

namespace CppSwc.Enact

open Lib Evm Executive

variable {H : Type} [DecidableEq H] [CodeHash H]

/-- The accounts and the lists of a block are as before. -/
structure Untouched {T : Type} (b b' : EnactBlock (State H) T) : Prop where
  shown : ∀ a, State.Shown b'.state b.state a
  transactions : b'.transactions = b.transactions
  receipts : b'.receipts = b.receipts
  transactionSet : b'.transactionSet = b.transactionSet

/-- Taking back what `commitToSeal` did changes no account, and leaves a state with nothing to
commit. -/
def Unsealable {T : Type} (b : EnactBlock (State H) T) : Prop :=
  b.committedToSeal = true → Committed b.precommit ∧ ∀ a, State.Shown b.precommit b.state a

variable {E : EnactEnv Failure (State H) TransactionBase} {M : HeaderFields → U256 → Setting}
  {n i : ℕ} {b b' : EnactBlock (State H) TransactionBase} {t : TransactionBase}

/-- The execution in a state throws only before the commit. -/
theorem stateExecute_error {info : HeaderFields} {gas : U256} {s s' : State H} {x : Failure}
    (hgas : StaysWithin (M info gas) (Nested.upTo (M info gas) n) t s)
    (h : stateExecute (withExecutive E M n) info gas t s = .error x s') :
    ∃ e, Executive.executeTransaction (M info gas) (Nested.upTo (M info gas) n) t (fresh s) =
      .error x e ∧ s' = e.world.state := by
  unfold stateExecute at h
  cases hrun : Executive.executeTransaction (M info gas) (Nested.upTo (M info gas) n) t (fresh s) with
  | error y e =>
      have hthrown : (withExecutive E M n).executeTransaction info gas t s =
          .error y e.world.state := by
        simp only [withExecutive, hrun]
      rw [bind_of_error hthrown] at h
      cases h
      exact ⟨e, rfl, rfl⟩
  | ok status e =>
      have hdone : (withExecutive E M n).executeTransaction info gas t s =
          .ok ⟨status, outcome Executive.gasUsed e, e.logs⟩ e.world.state := by
        simp only [withExecutive, hrun]
      rw [bind_of_ok hdone, modify_bind, get_bind] at h
      -- the gas is known, since less is left than the transaction had
      cases hused : outcome Executive.gasUsed e with
      | ok used =>
          rw [hused] at h
          cases h
      | error y =>
          obtain ⟨e', he'⟩ : ∃ e', Executive.gasUsed e = .error y e' := by
            unfold outcome at hused
            split at hused
            · cases hused
            · next heq =>
                cases hused
                exact ⟨_, heq⟩
          exact (throws_gasUsed_after (P := fun _ => False) hgas hrun _ _ he').elim

theorem unsealed_spec (hstate : Committed b.state) (hunseal : Unsealable b) :
    Committed b.uncommitToSeal.state ∧ ∀ a, State.Shown b.uncommitToSeal.state b.state a := by
  unfold EnactBlock.uncommitToSeal
  split_ifs with hsealing
  · exact hunseal hsealing
  · exact ⟨hstate, fun _ => ⟨rfl, rfl, rfl, fun _ => rfl⟩⟩

/-- **A transaction that cannot be executed leaves the block alone**, if nothing is taken back of
what `commitToSeal` did and no call hands on more gas than its caller has. -/
theorem failed_execution_leaves_block (fuel : ℕ) (hvm : ∀ info gas, (M info gas).vm = legacyVM fuel)
    (hopen : b.isSealed = false) (hstate : Committed b.state) (hunseal : Unsealable b)
    (hcovered : CallsCovered (M b.currentBlock.toHeaderFields b.gasUsed)
      (Nested.upTo (M b.currentBlock.toHeaderFields b.gasUsed) n) t b.uncommitToSeal.state)
    {x : EnactError Failure} (hexit : x ≠ .transaction i .exit)
    (h : execute (withExecutive E M n) i t b = .error x b') : Untouched b b' := by
  obtain ⟨hcommitted, hshown⟩ := unsealed_spec hstate hunseal
  have hfields : b.uncommitToSeal.currentBlock = b.currentBlock ∧
      b.uncommitToSeal.receipts = b.receipts ∧
      b.uncommitToSeal.transactions = b.transactions ∧
      b.uncommitToSeal.transactionSet = b.transactionSet := by
    unfold EnactBlock.uncommitToSeal
    split <;> exact ⟨rfl, rfl, rfl, rfl⟩
  obtain ⟨hcurrent, hreceipts, htransactions, hset⟩ := hfields
  have hused : b.uncommitToSeal.gasUsed = b.gasUsed := by
    rw [EnactBlock.gasUsed, hreceipts, EnactBlock.gasUsed]
  have hnot : ¬b.isSealed = true := by
    rw [hopen]
    exact Bool.false_ne_true
  rw [execute, get_bind, bind_of_ok (throwIf_of_not hnot), modify_bind, executeCommitted, hcurrent,
    hused] at h
  cases hrun : stateExecute (withExecutive E M n) b.currentBlock.toHeaderFields b.gasUsed t
      b.uncommitToSeal.state with
  | ok r s =>
      rw [hrun] at h
      cases h
  | error y s =>
      rw [hrun] at h
      cases h
      have hvm := hvm b.currentBlock.toHeaderFields b.gasUsed
      have hgas := staysWithin_of_covered hvm hcovered
      obtain ⟨e, hthrown, rfl⟩ := stateExecute_error hgas hrun
      have hconfined : (M b.currentBlock.toHeaderFields b.gasUsed).vm.Confined := by
        rw [hvm]
        exact legacyVM_confined fuel
      have halike := alike_of_throws hconfined n hcommitted hgas
        (fun hy => hexit (congrArg (EnactError.transaction i) hy)) hthrown
      obtain ⟨-, -, hsame⟩ := halike hcommitted.kept
      refine ⟨fun a => ?_, htransactions, hreceipts, hset⟩
      have hone := hsame a
      have hother := hshown a
      exact ⟨hone.balance.trans hother.balance, hone.nonce.trans hother.nonce,
        hone.code.trans hother.code, fun key => (hone.storage key).trans (hother.storage key)⟩

/-! ## A block on two accounts -/

/-- What a block needs beside the execution, where nothing of it is asked for. -/
def bareEnv : EnactEnv Failure (State Bytes) TransactionBase where
  sha3 _ := 0
  transactionHash t := t.nonce
  logHashes := ⟨fun _ => 0, id⟩
  orderedTrieRoot _ := 0
  streamRLP _ := []
  readHeader _ := none
  verify _ _ := true
  executeTransaction _ _ _ := throw .assertion
  addBalance _ _ s := s
  commit _ s := s
  rootHash _ := 0
  rollback s := s
  blockReward _ := 0
  eip158ForkBlock := 0
  byzantiumForkBlock := 0
  allKinFrom _ _ := []
  isKnown _ := true
  block _ := { hash := 0 }
  parent h := h

/-- The settings of a chain with `DefaultSchedule`. -/
def defaultSetting (_ : HeaderFields) (_ : U256) : Setting := plainSetting .default

/-- The account 1, and a contract at the account 2. -/
def withContract (code : Bytes) : State Bytes :=
  State.opened ((Std.ExtTreeMap.empty.insert 1 ⟨0, 200000, ∅, []⟩).insert 2 ⟨0, 0, ∅, code⟩) id 0

def pendingOn (s : State Bytes) : EnactBlock (State Bytes) TransactionBase where
  previousBlock := { hash := 1 }
  currentBlock := { number := 300, hash := 2 }
  state := s
  precommit := s

/-- A transaction of the account 1 to the contract. -/
def toContract (nonce : U256) : TransactionBase where
  receiveAddress := 2
  nonce
  gasPrice := 1
  gas := 100000
  cachedSender := 1

/-- `CALL` of the account 3 with a gas of `0x7fffffff`. -/
def greedyCode : Bytes :=
  [0x60, 0, 0x60, 0, 0x60, 0, 0x60, 0, 0x60, 0, 0x60, 3, 0x63, 0x7f, 0xff, 0xff, 0xff, 0xf1, 0x00]

theorem committed_withContract (code : Bytes) : Committed (withContract code) where
  kept :=
    { toCoherent := State.coherent_opened _ _ _
      stored := fun _ _ _ => .inr rfl
      fine := fun a x hx => by
        rw [show (withContract code).cache = ∅ from rfl, Std.ExtTreeMap.getElem?_empty] at hx
        cases hx }
  numbered := by
    show (0 : U256) ≠ invalid256
    decide
  clean a := by
    rintro ⟨x, hx, -⟩
    rw [show (withContract code).cache = ∅ from rfl, Std.ExtTreeMap.getElem?_empty] at hx
    cases hx

/-- The exception that ends the process. -/
def isExit : EnactError Failure → Bool
  | .transaction _ .exit => true
  | _ => false

/-- A transaction with a wrong nonce. -/
theorem failed_execution_leaves_block_nonce :
    ∃ x b', execute (withExecutive bareEnv defaultSetting 2) 0 (toContract 5)
        (pendingOn (withContract greedyCode)) = .error x b' ∧
      Untouched (pendingOn (withContract greedyCode)) b' := by
  obtain ⟨x, hx, hexit⟩ := eq_error_of_outcome (P := fun x => !isExit x)
    (m := execute (withExecutive bareEnv defaultSetting 2) 0 (toContract 5))
    (s := pendingOn (withContract greedyCode)) (by decide +kernel)
  refine ⟨x, _, hx, failed_execution_leaves_block 20 (fun _ _ => rfl) rfl
    (committed_withContract _) (fun h => by cases h) ?_ (fun h => ?_) hx⟩
  · intro start ended hinit
    have hrefused : (outcome (initializeWith (plainSetting .default) (toContract 5))
        (fresh (withContract greedyCode))).toOption = none := by decide +kernel
    exact absurd hinit fun h => by
      unfold outcome at hrefused
      rw [show initializeWith (plainSetting .default) (toContract 5)
        (fresh (withContract greedyCode)) = .ok () start from h] at hrefused
      cases hrefused
  · rw [h] at hexit
    cases hexit

/-- The sender of a transaction that ends with more gas than it had keeps a new nonce. -/
theorem greedy_call_touches_block :
    ¬∀ (E : EnactEnv Failure (State Bytes) TransactionBase) (M : HeaderFields → U256 → Setting)
      (fuel n i : ℕ) (b b' : EnactBlock (State Bytes) TransactionBase) (t : TransactionBase)
      (x : EnactError Failure), (∀ info gas, (M info gas).vm = legacyVM fuel) →
      b.isSealed = false → Committed b.state → x ≠ .transaction i .exit →
      execute (withExecutive E M n) i t b = .error x b' → Untouched b b' := by
  intro h
  obtain ⟨x, hx, hexit⟩ := eq_error_of_outcome (P := fun x => !isExit x)
    (m := execute (withExecutive bareEnv defaultSetting 2) 0 (toContract 0))
    (s := pendingOn (withContract greedyCode)) (by decide +kernel)
  have huntouched := h bareEnv defaultSetting 20 2 0 _ _ (toContract 0) x (fun _ _ => rfl) rfl
    (committed_withContract _) (fun h => by rw [h] at hexit; cases hexit) hx
  have hnonce : (after (execute (withExecutive bareEnv defaultSetting 2) 0 (toContract 0))
      (pendingOn (withContract greedyCode))).state.nonceAt 1 = 1 := by decide +kernel
  rw [(huntouched.shown 1).nonce] at hnonce
  revert hnonce
  decide +kernel

end CppSwc.Enact
