import CppSwc.Client.BlockSync

/-!
# The notification of new pending transactions

`Client::syncTransactionQueue` over one working block.  Every call fills the block from the
queue, and records each new receipt with the hash of a transaction (`appendFromNewPending`).

The receipts are those of the call, but they are paired with the pending transactions of the
block from the first one on.  So the hashes are right as long as the block was empty when it was
filled (`pendingNamed_iff`).
-/

namespace CppSwc

open Lib Std BlockSync

variable {S R : Type}

namespace Client

/-- What a call of `syncTransactionQueue` finds: what `sync` depends on, the number of passes
for which there is time, and the queue. -/
structure Round (S R : Type) where
  env : Env S R
  passes : ℕ
  queue : TransactionQueue

/-- The working block, and the notifications so far. -/
structure Working (S R : Type) where
  /-- `m_working`. -/
  block : WorkingBlock S R
  /-- The arguments of `appendFromNewPending`. -/
  recorded : List (R × H256) := []
  /-- The receipts with the hashes of the transactions that produced them. -/
  produced : List (R × H256) := []

/-- What `sync` does in a round. -/
def filled (w : Working S R) (x : Round S R) : Progress S R :=
  (sync x.env x.passes w.block x.queue).progress

/-- `syncTransactionQueue`.  The pending transactions are those of `m_postSeal`, which is a copy
of the working block. -/
def syncTransactionQueue (w : Working S R) (x : Round S R) : Working S R :=
  let newPendingReceipts := (filled w x).receipts
  let pending := (filled w x).block.m_transactions
  { block := (filled w x).block
    recorded := w.recorded ++ newPendingReceipts.zip (pending.map Transaction.sha3)
    produced := w.produced ++ newPendingReceipts.zip ((filled w x).executed.map Transaction.sha3) }

/-- A new working block. -/
def fresh (state : S) (gasLimit : U256) : Working S R where
  block := { state := state, gasLimit := gasLimit }

/-- Each new receipt is recorded with the hash of the transaction that produced it, and each
transaction that became pending is recorded once. -/
structure PendingNamed (w : Working S R) : Prop where
  named : w.recorded = w.produced
  once : ∀ t ∈ w.block.m_transactions, (w.recorded.map Prod.snd).count t.sha3 = 1

/-- Nothing is executed on top of pending transactions. -/
def StartsEmpty (w : Working S R) (x : Round S R) : Prop :=
  (filled w x).executed = [] ∨ w.block.m_transactions = []

/-! ## One round -/

variable {w : Working S R} {x : Round S R}

theorem loop_extends (E : Env S R) (n : ℕ) (ts : List Transaction) (goodTxs : ℕ)
    (s : Progress S R) : ∃ us, Extends s (loop E n ts goodTxs s).progress us := by
  induction n generalizing ts goodTxs s with
  | zero => exact ⟨[], .refl s⟩
  | succ n ih =>
      rw [loop]
      split
      · obtain ⟨us, hus⟩ := pass_extends E ts s
        dsimp only
        split
        · exact ⟨us, hus⟩
        · obtain ⟨vs, hvs⟩ := ih (pass E ts s).ts (pass E ts s).goodTxs (pass E ts s).progress
          exact ⟨us ++ vs, hus.trans hvs⟩
      · exact ⟨[], .refl s⟩

/-- What a round executes. -/
theorem filled_extends (w : Working S R) (x : Round S R) :
    Extends (start w.block x.queue) (filled w x) (filled w x).executed := by
  obtain ⟨us, hus⟩ := loop_extends x.env x.passes (batch w.block x.queue)
    ((batch w.block x.queue).length - 1) (start w.block x.queue)
  have hexecuted : (filled w x).executed = us := hus.executed
  rw [hexecuted]
  exact hus

/-- What holds in every run: the block knows its transactions, each of which produced one
receipt, and as many receipts were recorded. -/
structure Invariant (w : Working S R) : Prop where
  listed : ∀ t ∈ w.block.m_transactions, w.block.m_transactionSet.contains t.sha3 = true
  distinct : (w.block.m_transactions.map Transaction.sha3).Nodup
  produced : w.produced.map Prod.snd = w.block.m_transactions.map Transaction.sha3
  length : w.recorded.length = w.produced.length

theorem invariant_fresh (state : S) (gasLimit : U256) :
    Invariant (fresh state gasLimit : Working S R) where
  listed t ht := by cases ht
  distinct := List.nodup_nil
  produced := rfl
  length := rfl

/-- The pairs of a round. -/
theorem length_receipts (w : Working S R) (x : Round S R) :
    (filled w x).receipts.length = (filled w x).executed.length := by
  have hlength := (filled_extends w x).receipts
  rwa [show (start w.block x.queue).receipts.length = 0 from rfl, Nat.zero_add] at hlength

theorem pending_filled (w : Working S R) (x : Round S R) :
    (filled w x).block.m_transactions = w.block.m_transactions ++ (filled w x).executed :=
  (filled_extends w x).transactions

theorem Invariant.syncTransactionQueue (hw : Invariant w) (x : Round S R) :
    Invariant (syncTransactionQueue w x) where
  listed t ht := by
    refine ((filled_extends w x).has t).mpr ?_
    rw [Client.syncTransactionQueue, pending_filled] at ht
    rcases List.mem_append.mp ht with ht | ht
    · exact .inl (hw.listed t ht)
    · exact .inr (List.mem_map_of_mem ht)
  distinct := by
    rw [Client.syncTransactionQueue, pending_filled, List.map_append, List.nodup_append]
    refine ⟨hw.distinct, (filled_extends w x).distinct, ?_⟩
    rintro a ha b hb rfl
    obtain ⟨t, ht, rfl⟩ := List.mem_map.mp ha
    obtain ⟨u, hu, heq⟩ := List.mem_map.mp hb
    have hnew : w.block.m_transactionSet.contains u.sha3 = false := (filled_extends w x).fresh u hu
    rw [heq, hw.listed t ht] at hnew
    cases hnew
  produced := by
    rw [Client.syncTransactionQueue, pending_filled, List.map_append, List.map_append, hw.produced]
    congr 1
    rw [List.map_snd_zip]
    rw [List.length_map, length_receipts]
  length := by
    rw [Client.syncTransactionQueue]
    simp only [List.length_append, List.length_zip, List.length_map, pending_filled, hw.length,
      length_receipts]
    omega

/-- The notifications of a round are right if it starts with no pending transaction, or executes
none. -/
theorem Invariant.zip_eq_iff (hw : Invariant w) (x : Round S R) :
    (filled w x).receipts.zip ((filled w x).block.m_transactions.map Transaction.sha3) =
        (filled w x).receipts.zip ((filled w x).executed.map Transaction.sha3) ↔
      StartsEmpty w x := by
  have hlength := length_receipts w x
  rw [pending_filled, List.map_append]
  constructor
  · intro heq
    by_contra hno
    rw [StartsEmpty, not_or] at hno
    obtain ⟨t, ts, ht⟩ := List.exists_cons_of_ne_nil hno.1
    obtain ⟨u, us, hu⟩ := List.exists_cons_of_ne_nil hno.2
    rw [ht, List.length_cons] at hlength
    obtain ⟨r, rs, hr⟩ := List.exists_cons_of_length_eq_add_one hlength
    rw [ht, hu, hr] at heq
    -- the first new transaction has the hash of the first pending one
    have hhash : u.sha3 = t.sha3 := (Prod.mk.inj (List.cons.inj heq).1).2
    have hnew : w.block.m_transactionSet.contains t.sha3 = false :=
      (filled_extends w x).fresh t (ht ▸ .head _)
    rw [← hhash, hw.listed u (hu ▸ .head _)] at hnew
    cases hnew
  · rintro (hnone | hempty)
    · rw [hnone, List.length_nil] at hlength
      rw [List.length_eq_zero_iff.mp hlength, List.zip_nil_left, List.zip_nil_left]
    · rw [hempty, List.map_nil, List.nil_append]

/-! ## All rounds -/

/-- A run names its transactions if it did before and every round does. -/
theorem named_foldl_iff (rounds : List (Round S R)) (hw : Invariant w) :
    (rounds.foldl syncTransactionQueue w).recorded = (rounds.foldl syncTransactionQueue w).produced ↔
      w.recorded = w.produced ∧ Along syncTransactionQueue StartsEmpty w rounds := by
  induction rounds generalizing w with
  | nil => exact (and_iff_left trivial).symm
  | cons x rounds ih =>
      have hsplit : (syncTransactionQueue w x).recorded = (syncTransactionQueue w x).produced ↔
          w.recorded = w.produced ∧ StartsEmpty w x := by
        rw [← hw.zip_eq_iff x]
        constructor
        · exact fun heq => List.append_inj heq hw.length
        · rintro ⟨hbefore, hround⟩
          rw [syncTransactionQueue, hbefore, hround]
      rw [List.foldl_cons, ih (hw.syncTransactionQueue x), hsplit, Along, and_assoc]

/-- **Pending notifications name the right transactions** exactly if no round executes a
transaction on top of pending ones. -/
theorem pendingNamed_iff (state : S) (gasLimit : U256) (rounds : List (Round S R)) :
    PendingNamed (rounds.foldl syncTransactionQueue (fresh state gasLimit)) ↔
      Along syncTransactionQueue StartsEmpty (fresh state gasLimit) rounds := by
  have hfresh := invariant_fresh (R := R) state gasLimit
  have hkeep : ∀ (w : Working S R) x, Invariant w → Invariant (syncTransactionQueue w x) :=
    fun _ x hw => hw.syncTransactionQueue x
  have hw := invariant_foldl hkeep rounds hfresh
  have hnamed := named_foldl_iff rounds hfresh
  have hstart : (fresh state gasLimit : Working S R).recorded = (fresh state gasLimit).produced := rfl
  rw [and_iff_right hstart] at hnamed
  rw [← hnamed]
  refine ⟨fun h => h.named, fun h => ⟨h, fun t ht => ?_⟩⟩
  rw [h, hw.produced]
  exact List.count_eq_one_of_mem hw.distinct (List.mem_map_of_mem ht)

/-! ## Two rounds -/

/-- A round with time for two passes. -/
def sampleRound (queue : TransactionQueue) : Round Unit Unit where
  env := sampleEnv
  passes := 2
  queue := queue

/-- A queue with one transaction at the price that is asked. -/
def queueOf (hash : Nat) : TransactionQueue :=
  let q : TransactionQueue := { limit := 8, futureLimit := 8 }
  (TransactionQueue.step q (TransactionQueue.sampleImport hash 0 100 (some 2))).getD q

/-- The second of two transactions is recorded with the hash of the first. -/
theorem second_round_names_first :
    let w := [sampleRound (queueOf 1), sampleRound (queueOf 2)].foldl syncTransactionQueue
      (fresh () 1000)
    w.block.m_transactions.map Transaction.sha3 = [1, 2] ∧ w.recorded = [((), 1), ((), 1)] ∧
      ¬PendingNamed w := by
  have hrecorded : ([sampleRound (queueOf 1), sampleRound (queueOf 2)].foldl syncTransactionQueue
      (fresh () 1000)).recorded = [((), 1), ((), 1)] := by
    decide +kernel
  have hproduced : ([sampleRound (queueOf 1), sampleRound (queueOf 2)].foldl syncTransactionQueue
      (fresh () 1000)).produced = [((), 1), ((), 2)] := by
    decide +kernel
  refine ⟨by decide +kernel, hrecorded, fun h => ?_⟩
  have hnamed := h.named
  rw [hrecorded, hproduced] at hnamed
  exact absurd hnamed (by decide)

end Client

end CppSwc
