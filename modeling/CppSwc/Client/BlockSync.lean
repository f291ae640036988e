import CppSwc.Lib.Run
import CppSwc.Mempool.Operations

/-!
# Filling a block from the queue

`Block::sync` of libethereum for a transaction queue.  It fetches a batch of the pending
transactions and passes over it until every transaction that is left was executed in the last
pass, or until its time is up.

* What a block is beyond its transactions, and what it means to execute one, are parameters.
* Both gas pricers answer `ask` without looking at the block, so that it is one number here.
* `loop n` is the loop when its time is up after `n` passes.  It has no `Exit` then.

A transaction whose price is from 90 percent of `ask` up to `ask` neither leaves the batch nor
counts.  After the first pass there is nothing left to execute, so that the loop comes to its end
in the first pass or never (`endsByItself_iff`).
-/

namespace CppSwc

open Lib Std

variable {S R : Type}

/-- `Block`, as far as its transactions are concerned. -/
structure WorkingBlock (S R : Type) where
  /-- The state and the rest. -/
  state : S
  /-- `m_currentBlock.gasLimit()`. -/
  gasLimit : U256
  m_transactions : List Transaction := []
  m_receipts : List R := []
  m_transactionSet : ExtTreeSet H256 := ∅

/-- How the execution of a transaction ends, and the state that it leaves. -/
inductive Execution (S R : Type) where
  | good (state : S) (receipt : R)
  | invalidNonce (required got : ℤ) (state : S)
  | blockGasLimitReached (got : ℤ) (state : S)
  /-- Any other exception. -/
  | failed (state : S)

/-- `Block::execute` for a transaction that was executed. -/
def WorkingBlock.record (b : WorkingBlock S R) (state : S) (t : Transaction) (receipt : R) :
    WorkingBlock S R :=
  { b with
    state := state
    m_transactions := b.m_transactions ++ [t]
    m_receipts := b.m_receipts ++ [receipt]
    m_transactionSet := b.m_transactionSet.insert t.sha3 }

namespace BlockSync

/-- What a call of `sync` depends on. -/
structure Env (S R : Type) where
  /-- `Transaction::time`. -/
  time : Transaction → ℤ
  /-- `utcTime()`. -/
  now : ℤ
  /-- `_gp.ask(*this)`. -/
  ask : U256
  execute : WorkingBlock S R → Transaction → Execution S R
  /-- The containers of the queue when a transaction leaves it. -/
  containers : Transaction → TransactionQueue.Env

/-- `TIME_PER_SECOND`. -/
def TIME_PER_SECOND : ℤ := 1000000

/-- `c_maxSyncTransactions`. -/
def c_maxSyncTransactions : ℕ := 1024

/-- `TransactionQueue::waiting`. -/
def waiting (q : TransactionQueue) (a : Address) : ℕ :=
  (group q.currentByAddressAndNonce a).size + (group q.future a).size

/-- The queue after an operation.  None of them stops if the queue is sound. -/
def queueAfter : TransactionQueue.Result TransactionQueue → TransactionQueue
  | .ok q => q
  | .error (_, q) => q

/-- The block and the queue, and what has become of the transactions of the batch. -/
structure Progress (S R : Type) where
  block : WorkingBlock S R
  queue : TransactionQueue
  /-- `ret.first`. -/
  receipts : List R := []
  executed : List Transaction := []
  dropped : List Transaction := []
  deferred : List Transaction := []

namespace Progress

/-- The transaction was executed. -/
def execute (t : Transaction) (state : S) (receipt : R) (s : Progress S R) : Progress S R :=
  { s with
    block := s.block.record state t receipt
    receipts := s.receipts ++ [receipt]
    executed := s.executed ++ [t] }

/-- The transaction is dropped. -/
def drop (E : Env S R) (t : Transaction) (s : Progress S R) : Progress S R :=
  { s with
    queue := queueAfter (s.queue.drop (E.containers t) t.sha3)
    dropped := s.dropped ++ [t] }

/-- The transaction is set to future. -/
def setFuture (E : Env S R) (t : Transaction) (s : Progress S R) : Progress S R :=
  { s with
    queue := queueAfter (s.queue.setFuture (E.containers t) t.sha3)
    deferred := s.deferred ++ [t] }

/-- The state that a failed execution leaves. -/
def withState (state : S) (s : Progress S R) : Progress S R :=
  { s with block := { s.block with state := state } }

end Progress

/-- What the body of the inner loop does with a transaction. -/
inductive Visit (S R : Type) where
  /-- It stays and does not count. -/
  | stays (s : Progress S R)
  /-- It stays and counts. -/
  | good (s : Progress S R)
  /-- It leaves the batch. -/
  | leaves (s : Progress S R)
  /-- `goto end`. -/
  | noGas (s : Progress S R)

/-- The transaction is too old. -/
def isOld (E : Env S R) (t : Transaction) : Bool := E.time t + 240 * TIME_PER_SECOND < E.now

/-- The body of the inner loop. -/
def visit (E : Env S R) (t : Transaction) (s : Progress S R) : Visit S R :=
  if s.block.m_transactionSet.contains t.sha3 then .stays s
  else if isOld E t then .leaves (s.drop E t)
  else if E.ask ≤ t.gasPrice then
    match E.execute s.block t with
    | .good state receipt => .good (s.execute t state receipt)
    | .invalidNonce required got state =>
        let s := s.withState state
        if got < required then .leaves (s.drop E t)
        else if required + waiting s.queue t.safeSender < got then .leaves (s.drop E t)
        else .leaves (s.setFuture E t)
    | .blockGasLimitReached got state =>
        let s := s.withState state
        if s.block.gasLimit.toNat < got then .leaves (s.drop E t) else .noGas s
    | .failed state => .leaves ((s.withState state).drop E t)
  else if t.gasPrice < E.ask * 9 / 10 then .leaves (s.drop E t)
  else .stays s

/-- What a pass over the batch leaves. -/
structure Pass (S R : Type) where
  ts : List Transaction
  goodTxs : ℕ
  /-- It ended by `goto end`. -/
  isOut : Bool
  progress : Progress S R

/-- The inner loop. -/
def pass (E : Env S R) : List Transaction → Progress S R → Pass S R
  | [], s => ⟨[], 0, false, s⟩
  | t :: ts, s =>
      match visit E t s with
      | .stays s => let p := pass E ts s; { p with ts := t :: p.ts }
      | .good s => let p := pass E ts s; { p with ts := t :: p.ts, goodTxs := p.goodTxs + 1 }
      | .leaves s => pass E ts s
      | .noGas s => ⟨t :: ts, 0, true, s⟩

/-- How the outer loop comes to its end. -/
inductive Exit where
  /-- Its condition fails. -/
  | done
  /-- `goto end`. -/
  | noGas
deriving DecidableEq

/-- What the outer loop leaves. -/
structure Result (S R : Type) where
  ts : List Transaction
  exit : Option Exit
  progress : Progress S R

/-- The outer loop, with time for `n` passes. -/
def loop (E : Env S R) : ℕ → List Transaction → ℕ → Progress S R → Result S R
  | 0, ts, _, s => ⟨ts, none, s⟩
  | n + 1, ts, goodTxs, s =>
      if goodTxs < ts.length then
        let p := pass E ts s
        if p.isOut then ⟨p.ts, some .noGas, p.progress⟩ else loop E n p.ts p.goodTxs p.progress
      else ⟨ts, some .done, s⟩

/-- The batch. -/
def batch (b : WorkingBlock S R) (q : TransactionQueue) : List Transaction :=
  q.topTransactions c_maxSyncTransactions b.m_transactionSet

/-- Nothing is done yet. -/
def start (b : WorkingBlock S R) (q : TransactionQueue) : Progress S R where
  block := b
  queue := q

/-- `Block::sync`. -/
def sync (E : Env S R) (n : ℕ) (b : WorkingBlock S R) (q : TransactionQueue) : Result S R :=
  loop E n (batch b q) ((batch b q).length - 1) (start b q)

/-! ## One transaction -/

variable {E : Env S R} {s s' : Progress S R} {t t' : Transaction} {ts : List Transaction} {n : ℕ}
  {b : WorkingBlock S R} {q : TransactionQueue}

/-- The price is too low to execute the transaction, and not low enough to drop it. -/
def isUndecided (E : Env S R) (t : Transaction) : Bool :=
  !(isOld E t || E.ask ≤ t.gasPrice || t.gasPrice < E.ask * 9 / 10)

theorem isUndecided_eq_false_iff : isUndecided E t = false ↔
    isOld E t = true ∨ E.ask ≤ t.gasPrice ∨ t.gasPrice < E.ask * 9 / 10 := by
  rw [isUndecided, Bool.not_eq_false', Bool.or_eq_true, Bool.or_eq_true, decide_eq_true_eq,
    decide_eq_true_eq, or_assoc]

/-- Something has become of the transaction. -/
def Progress.Settled (s : Progress S R) (t : Transaction) : Prop :=
  t ∈ s.executed ∨ t ∈ s.dropped ∨ t ∈ s.deferred

/-- The block has the transaction. -/
def Progress.has (s : Progress S R) (t : Transaction) : Bool :=
  s.block.m_transactionSet.contains t.sha3

/-- The transactions `ts` were executed, and others may have left. -/
structure Extends (s s' : Progress S R) (ts : List Transaction) : Prop where
  executed : s'.executed = s.executed ++ ts
  transactions : s'.block.m_transactions = s.block.m_transactions ++ ts
  receipts : s'.receipts.length = s.receipts.length + ts.length
  has : ∀ t, s'.has t = true ↔ s.has t = true ∨ t.sha3 ∈ ts.map Transaction.sha3
  fresh : ∀ t ∈ ts, s.has t = false
  distinct : (ts.map Transaction.sha3).Nodup
  dropped : ∀ t ∈ s.dropped, t ∈ s'.dropped
  deferred : ∀ t ∈ s.deferred, t ∈ s'.deferred

theorem Extends.refl (s : Progress S R) : Extends s s [] where
  executed := (List.append_nil _).symm
  transactions := (List.append_nil _).symm
  receipts := rfl
  has t := by simp
  fresh t ht := by cases ht
  distinct := List.nodup_nil
  dropped _ h := h
  deferred _ h := h

theorem Extends.trans {s₁ s₂ s₃ : Progress S R} {ts us : List Transaction}
    (h : Extends s₁ s₂ ts) (h' : Extends s₂ s₃ us) : Extends s₁ s₃ (ts ++ us) where
  executed := by rw [h'.executed, h.executed, List.append_assoc]
  transactions := by rw [h'.transactions, h.transactions, List.append_assoc]
  receipts := by
    rw [h'.receipts, h.receipts, List.length_append]
    omega
  has t := by
    rw [h'.has, h.has, List.map_append, List.mem_append, or_assoc]
  fresh t ht := by
    rcases List.mem_append.mp ht with ht | ht
    · exact h.fresh t ht
    · by_contra hhas
      have hlater := (h.has t).mpr (.inl (by simpa using hhas))
      rw [h'.fresh t ht] at hlater
      cases hlater
  distinct := by
    rw [List.map_append, List.nodup_append]
    refine ⟨h.distinct, h'.distinct, ?_⟩
    rintro a ha b hb rfl
    obtain ⟨t, ht, rfl⟩ := List.mem_map.mp hb
    have hhas := (h.has t).mpr (.inr ha)
    rw [h'.fresh t ht] at hhas
    cases hhas
  dropped t ht := h'.dropped t (h.dropped t ht)
  deferred t ht := h'.deferred t (h.deferred t ht)

theorem Extends.settled {us : List Transaction} (h : Extends s s' us) (ht : s.Settled t) :
    s'.Settled t := by
  rcases ht with ht | ht | ht
  · refine .inl ?_
    rw [h.executed]
    exact List.mem_append_left _ ht
  · exact .inr (.inl (h.dropped t ht))
  · exact .inr (.inr (h.deferred t ht))

theorem extends_drop (E : Env S R) (t : Transaction) (s : Progress S R) :
    Extends s (s.drop E t) [] :=
  { Extends.refl s with dropped := fun _ h => List.mem_append_left _ h }

theorem extends_setFuture (E : Env S R) (t : Transaction) (s : Progress S R) :
    Extends s (s.setFuture E t) [] :=
  { Extends.refl s with deferred := fun _ h => List.mem_append_left _ h }

theorem extends_withState (state : S) (s : Progress S R) : Extends s (s.withState state) [] :=
  { Extends.refl s with }

theorem extends_execute {state : S} {receipt : R} (hnew : s.has t = false) :
    Extends s (s.execute t state receipt) [t] where
  executed := rfl
  transactions := rfl
  receipts := List.length_append
  has t' := by
    have hinsert : (s.execute t state receipt).has t' =
        (s.block.m_transactionSet.insert t.sha3).contains t'.sha3 := rfl
    rw [hinsert, ExtTreeSet.contains_insert, Bool.or_eq_true, beq_iff_eq,
      LawfulEqCmp.compare_eq_iff_eq, List.map_singleton, List.mem_singleton, or_comm,
      eq_comm (a := t.sha3)]
    rfl
  fresh t' ht' := by rwa [List.mem_singleton.mp ht']
  distinct := List.nodup_singleton _
  dropped _ h := h
  deferred _ h := h

theorem settled_drop (E : Env S R) (t : Transaction) (s : Progress S R) : (s.drop E t).Settled t :=
  .inr (.inl (List.mem_append_right _ (.head _)))

theorem settled_setFuture (E : Env S R) (t : Transaction) (s : Progress S R) :
    (s.setFuture E t).Settled t :=
  .inr (.inr (List.mem_append_right _ (.head _)))

theorem settled_execute {state : S} {receipt : R} : (s.execute t state receipt).Settled t :=
  .inl (List.mem_append_right _ (.head _))

/-- What a visit can do. -/
inductive Visited (E : Env S R) (t : Transaction) (s : Progress S R) : Visit S R → Prop where
  | has : s.has t = true → Visited E t s (.stays s)
  | undecided : s.has t = false → isUndecided E t = true → Visited E t s (.stays s)
  | good {s' : Progress S R} : isUndecided E t = false → Extends s s' [t] → s'.Settled t →
      Visited E t s (.good s')
  | leaves {s' : Progress S R} : s.has t = false → isUndecided E t = false → Extends s s' [] →
      s'.Settled t → Visited E t s (.leaves s')
  | noGas {s' : Progress S R} : Extends s s' [] → Visited E t s (.noGas s')

theorem visited (E : Env S R) (t : Transaction) (s : Progress S R) :
    Visited E t s (visit E t s) := by
  rw [visit]
  split
  · rename_i hhas
    exact .has hhas
  · rename_i hnew
    rw [Bool.not_eq_true] at hnew
    have hleaves {s' : Progress S R} (hdecided : isUndecided E t = false)
        (hs' : Extends s s' []) : Visited E t s (.leaves (s'.drop E t)) :=
      .leaves hnew hdecided (hs'.trans (extends_drop E t s')) (settled_drop E t s')
    split
    · rename_i hold
      exact hleaves (isUndecided_eq_false_iff.mpr (.inl hold)) (.refl s)
    · rename_i hyoung
      split
      · rename_i hprice
        have hdecided : isUndecided E t = false := isUndecided_eq_false_iff.mpr (.inr (.inl hprice))
        split
        · exact .good hdecided (extends_execute hnew) settled_execute
        · rename_i state _
          dsimp only
          split
          · exact hleaves hdecided (extends_withState state s)
          · split
            · exact hleaves hdecided (extends_withState state s)
            · exact .leaves hnew hdecided
                ((extends_withState state s).trans (extends_setFuture E t _))
                (settled_setFuture E t _)
        · rename_i state _
          dsimp only
          split
          · exact hleaves hdecided (extends_withState state s)
          · exact .noGas (extends_withState state s)
        · rename_i state _
          exact hleaves hdecided (extends_withState state s)
      · rename_i hprice
        split
        · rename_i hcheap
          exact hleaves (isUndecided_eq_false_iff.mpr (.inr (.inr hcheap))) (.refl s)
        · rename_i hnotCheap
          refine .undecided hnew (Bool.not_eq_false _ ▸ fun hdecided => ?_)
          rcases isUndecided_eq_false_iff.mp hdecided with h | h | h
          · exact hyoung h
          · exact hprice h
          · exact hnotCheap h

/-! ## One pass -/

theorem pass_extends (E : Env S R) (ts : List Transaction) (s : Progress S R) :
    ∃ us, Extends s (pass E ts s).progress us := by
  induction ts generalizing s with
  | nil => exact ⟨[], .refl s⟩
  | cons t ts ih =>
      rw [pass]
      have hvisited := visited E t s
      cases hvisit : visit E t s with
      | stays s' =>
          rw [hvisit] at hvisited
          cases hvisited <;> exact ih s
      | good s' =>
          rw [hvisit] at hvisited
          obtain ⟨us, hus⟩ := ih s'
          cases hvisited with
          | good _ hextends _ => exact ⟨_, hextends.trans hus⟩
      | leaves s' =>
          rw [hvisit] at hvisited
          obtain ⟨us, hus⟩ := ih s'
          cases hvisited with
          | leaves _ _ hextends _ => exact ⟨_, hextends.trans hus⟩
      | noGas s' =>
          rw [hvisit] at hvisited
          cases hvisited with
          | noGas hextends => exact ⟨_, hextends⟩

/-- Transactions that the block does not have, each once. -/
structure Fresh (s : Progress S R) (ts : List Transaction) : Prop where
  new : ∀ t ∈ ts, s.has t = false
  distinct : (ts.map Transaction.sha3).Nodup

/-- The others are fresh when one of them was executed or left. -/
theorem Fresh.tail {us : List Transaction} (h : Fresh s (t :: ts)) (hs' : Extends s s' us)
    (hus : ∀ u ∈ us, u = t) : Fresh s' ts := by
  have hdistinct := h.distinct
  rw [List.map_cons, List.nodup_cons] at hdistinct
  refine ⟨fun t' ht' => ?_, hdistinct.2⟩
  by_contra hhas
  rw [Bool.not_eq_false, hs'.has] at hhas
  rcases hhas with hhas | hhas
  · rw [h.new t' (.tail _ ht')] at hhas
    cases hhas
  · obtain ⟨u, hu, heq⟩ := List.mem_map.mp hhas
    obtain rfl := hus u hu
    exact hdistinct.1 (heq ▸ List.mem_map_of_mem ht')

/-- What a pass over fresh transactions leaves. -/
structure Passed (E : Env S R) (ts : List Transaction) (p : Pass S R) : Prop where
  settled : ∀ t ∈ ts, p.progress.Settled t ∨ t ∈ p.ts
  decided : p.isOut = false → ∀ t ∈ ts, isUndecided E t = false → p.progress.Settled t
  kept : p.isOut = false → ∀ t ∈ p.ts, p.progress.has t = true ∨ isUndecided E t = true
  counted : p.isOut = false → p.goodTxs ≤ p.ts.length ∧
    (p.goodTxs = p.ts.length ↔ ∀ t ∈ ts, isUndecided E t = false)

theorem passed (E : Env S R) (ts : List Transaction) {s : Progress S R} (h : Fresh s ts) :
    Passed E ts (pass E ts s) := by
  induction ts generalizing s with
  | nil =>
      refine ⟨fun t ht => ?_, fun _ t ht => ?_, fun _ t ht => ?_, fun _ => ⟨Nat.le_refl _, ?_⟩⟩
      · cases ht
      · cases ht
      · cases ht
      · exact iff_of_true rfl fun t ht => by cases ht
  | cons t ts ih =>
      have hvisited := visited E t s
      cases hvisit : visit E t s with
      | stays s' =>
          rw [hvisit] at hvisited
          rw [pass, hvisit]
          cases hvisited with
          | has hhas =>
              rw [h.new t (.head _)] at hhas
              cases hhas
          | undecided hnew hundecided =>
              obtain ⟨hsettled, hdecided, hkept, hcounted⟩ :=
                ih (h.tail (.refl s) (by simp))
              refine ⟨?_, fun hin => ?_, fun hin => ?_, fun hin => ⟨?_, ?_⟩⟩
              · rw [List.forall_mem_cons]
                exact ⟨.inr (.head _), fun t' ht' => (hsettled t' ht').imp_right (.tail _)⟩
              · rw [List.forall_mem_cons]
                refine ⟨fun hno => ?_, hdecided hin⟩
                rw [hundecided] at hno
                cases hno
              · rw [List.forall_mem_cons]
                exact ⟨.inr hundecided, hkept hin⟩
              · exact (hcounted hin).1.trans (Nat.le_succ _)
              · have hle := (hcounted hin).1
                refine iff_of_false ?_ fun hall => ?_
                · rw [List.length_cons]
                  exact Nat.ne_of_lt (Nat.lt_succ_of_le hle)
                · rw [hall t (.head _)] at hundecided
                  cases hundecided
      | good s' =>
          rw [hvisit] at hvisited
          rw [pass, hvisit]
          cases hvisited with
          | good ht hextends hsettledt =>
              obtain ⟨us, hus⟩ := pass_extends E ts s'
              obtain ⟨hsettled, hdecided, hkept, hcounted⟩ :=
                ih (h.tail hextends (by simp))
              refine ⟨?_, fun hin => ?_, fun hin => ?_, fun hin => ⟨?_, ?_⟩⟩
              · rw [List.forall_mem_cons]
                exact ⟨.inl (hus.settled hsettledt),
                  fun t' ht' => (hsettled t' ht').imp_right (.tail _)⟩
              · rw [List.forall_mem_cons]
                exact ⟨fun _ => hus.settled hsettledt, hdecided hin⟩
              · rw [List.forall_mem_cons]
                exact ⟨.inl ((hus.has t).mpr (.inl ((hextends.has t).mpr (.inr (by simp))))),
                  hkept hin⟩
              · exact Nat.succ_le_succ (hcounted hin).1
              · rw [List.length_cons, Nat.add_right_cancel_iff, (hcounted hin).2,
                  List.forall_mem_cons]
                exact (and_iff_right ht).symm
      | leaves s' =>
          rw [hvisit] at hvisited
          rw [pass, hvisit]
          cases hvisited with
          | leaves _ ht hextends hsettledt =>
              obtain ⟨us, hus⟩ := pass_extends E ts s'
              obtain ⟨hsettled, hdecided, hkept, hcounted⟩ :=
                ih (h.tail hextends (by simp))
              refine ⟨?_, fun hin => ?_, hkept, fun hin => ⟨(hcounted hin).1, ?_⟩⟩
              · rw [List.forall_mem_cons]
                exact ⟨.inl (hus.settled hsettledt), hsettled⟩
              · rw [List.forall_mem_cons]
                exact ⟨fun _ => hus.settled hsettledt, hdecided hin⟩
              · rw [(hcounted hin).2, List.forall_mem_cons]
                exact (and_iff_right ht).symm
      | noGas s' =>
          rw [pass, hvisit]
          refine ⟨fun t' ht' => .inr ht', ?_, ?_, ?_⟩
          all_goals
            intro hin
            cases hin

/-! ## All passes -/

/-- Nothing happens to transactions that the block has or that are undecided. -/
theorem pass_of_stuck (hstuck : ∀ t ∈ ts, s.has t = true ∨ isUndecided E t = true) :
    pass E ts s = ⟨ts, 0, false, s⟩ := by
  induction ts with
  | nil => rfl
  | cons t ts ih =>
      have hvisit : visit E t s = .stays s := by
        rw [visit]
        split
        · rfl
        · rename_i hnew
          have hundecided := (hstuck t (.head _)).resolve_left hnew
          rw [isUndecided, Bool.not_eq_true', Bool.or_eq_false_iff, Bool.or_eq_false_iff,
            decide_eq_false_iff_not, decide_eq_false_iff_not] at hundecided
          obtain ⟨⟨hyoung, hlow⟩, hnotCheap⟩ := hundecided
          rw [hyoung, if_neg (by decide), if_neg hlow, if_neg hnotCheap]
      rw [pass, hvisit]
      dsimp only
      rw [ih fun t ht => hstuck t (.tail _ ht)]

/-- A loop over such transactions does not come to its end. -/
theorem loop_of_stuck (hstuck : ∀ t ∈ ts, s.has t = true ∨ isUndecided E t = true) {goodTxs : ℕ}
    (hlt : goodTxs < ts.length) (n : ℕ) : (loop E n ts goodTxs s).exit = none := by
  induction n generalizing goodTxs with
  | zero => rfl
  | succ n ih =>
      rw [loop, if_pos hlt, pass_of_stuck hstuck]
      exact ih (Nat.zero_lt_of_lt hlt)

/-- The loop comes to its end by itself, and something has become of each transaction of the
batch then, or it was left because there is no gas in the block. -/
def EndsByItself (E : Env S R) (b : WorkingBlock S R) (q : TransactionQueue) : Prop :=
  ∃ n exit, (sync E n b q).exit = some exit ∧ ∀ t ∈ batch b q,
    (sync E n b q).progress.Settled t ∨ exit = .noGas ∧ t ∈ (sync E n b q).ts

/-- The first pass ends for lack of gas. -/
def RunsOutOfGas (E : Env S R) (b : WorkingBlock S R) (q : TransactionQueue) : Prop :=
  (pass E (batch b q) (start b q)).isOut = true

theorem fresh_batch (hq : (q.pending.map Transaction.sha3).Nodup) :
    Fresh (start b q) (batch b q) where
  new t ht := by
    have hnew := (List.mem_filter.mp (List.mem_of_mem_take ht)).2
    rwa [Bool.not_eq_true'] at hnew
  distinct := ((List.take_sublist _ _).trans List.filter_sublist).map _ |>.nodup hq

/-- The first pass is made if there is a batch. -/
theorem sync_succ (E : Env S R) (n : ℕ) (hne : batch b q ≠ []) :
    sync E (n + 1) b q =
      let p := pass E (batch b q) (start b q)
      if p.isOut then ⟨p.ts, some .noGas, p.progress⟩ else loop E n p.ts p.goodTxs p.progress := by
  have hpos := List.length_pos_of_ne_nil hne
  rw [sync, loop, if_pos (by omega)]

/-- **The loop comes to its end by itself** exactly if no transaction of the batch is undecided,
or the first pass ends for lack of gas. -/
theorem endsByItself_iff (E : Env S R) (b : WorkingBlock S R) (q : TransactionQueue)
    (hq : (q.pending.map Transaction.sha3).Nodup) :
    EndsByItself E b q ↔ RunsOutOfGas E b q ∨ ∀ t ∈ batch b q, isUndecided E t = false := by
  have hpassed := passed E (batch b q) (fresh_batch (b := b) hq)
  by_cases hne : batch b q = []
  · refine iff_of_true ⟨1, .done, ?_, ?_⟩ (.inr ?_)
    · rw [sync, hne]
      rfl
    · rw [hne]
      intro t ht
      cases ht
    · rw [hne]
      intro t ht
      cases ht
  · cases hout : (pass E (batch b q) (start b q)).isOut with
    | true =>
        refine iff_of_true ⟨1, .noGas, ?_, fun t ht => ?_⟩ (.inl hout)
        · rw [sync_succ E 0 hne]
          simp only [hout, if_true]
        · rw [sync_succ E 0 hne]
          simp only [hout, if_true]
          exact (hpassed.settled t ht).imp_right fun h => ⟨trivial, h⟩
    | false =>
        obtain ⟨hle, hcount⟩ := hpassed.counted hout
        constructor
        · rintro ⟨n, exit, hexit, -⟩
          refine .inr (hcount.mp ?_)
          by_contra hundecided
          cases n with
          | zero => cases hexit
          | succ n =>
              rw [sync_succ E n hne] at hexit
              simp only [hout, Bool.false_eq_true, if_false] at hexit
              rw [loop_of_stuck (hpassed.kept hout) (by omega)] at hexit
              cases hexit
        · rintro (hrun | hdecided)
          · rw [RunsOutOfGas, hout] at hrun
            cases hrun
          · have hdone : sync E 2 b q = ⟨(pass E (batch b q) (start b q)).ts, some .done,
                (pass E (batch b q) (start b q)).progress⟩ := by
              rw [sync_succ E 1 hne]
              simp only [hout, Bool.false_eq_true, if_false]
              rw [loop, if_neg (by rw [hcount.mpr hdecided]; exact Nat.lt_irrefl _)]
            refine ⟨2, .done, by rw [hdone], fun t ht => .inl ?_⟩
            rw [hdone]
            exact hpassed.decided hout t ht (hdecided t ht)

/-! ## A price just below the one that is asked -/

/-- A price of 100 is asked, and every execution succeeds. -/
def sampleEnv : Env Unit Unit where
  time _ := 0
  now := 0
  ask := 100
  execute _ _ := .good () ()
  containers _ := { begins := fun _ => 0, balance := .none _ }

/-- A transaction with a price, imported into an empty queue. -/
def sampleQueue (price : Nat) : TransactionQueue :=
  let q : TransactionQueue := { limit := 8, futureLimit := 8 }
  (TransactionQueue.step q (TransactionQueue.sampleImport 1 0 price (some 2))).getD q

/-- An empty block. -/
def sampleBlock : WorkingBlock Unit Unit where
  state := ()
  gasLimit := 1000

/-- At the price that is asked the transaction is executed. -/
theorem endsByItself_at_ask : EndsByItself sampleEnv sampleBlock (sampleQueue 100) :=
  (endsByItself_iff sampleEnv sampleBlock (sampleQueue 100) (by decide +kernel)).mpr
    (.inr (by decide +kernel))

/-- At 95 percent of it the loop goes on until its time is up. -/
theorem not_endsByItself_below_ask : ¬EndsByItself sampleEnv sampleBlock (sampleQueue 95) := by
  rintro ⟨n, exit, hexit, -⟩
  have hbatch : batch sampleBlock (sampleQueue 95) =
      [TransactionQueue.sampleTransaction 1 0 95 (some 2)] := by
    decide +kernel
  rw [sync, hbatch, loop_of_stuck (by decide +kernel) (by decide)] at hexit
  cases hexit

end BlockSync

end CppSwc
