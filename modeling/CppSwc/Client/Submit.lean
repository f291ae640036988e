import CppSwc.Mempool.Limits

/-!
# Two submissions at a time

`submitTransaction` without a nonce takes the larger one of the next nonce of its sender
in the post-seal block and in the queue, signs the transaction and imports it.  The queue
is locked for each of its two operations, and not between them.  The answer of the import
is not passed on.

Here two calls for one sender take their steps in any order.  What the block says about
the sender is an argument of the step that asks for it.
-/

namespace CppSwc

open Lib Std

/-- `std::max`. -/
def stdMax (a b : U256) : U256 := if a < b then b else a

namespace TransactionQueue

/-- `maxNonce_WITH_LOCK`. -/
def maxNonce (a : Address) (q : TransactionQueue) : U256 :=
  let ret := (lastKey? (group q.currentByAddressAndNonce a)).elim 0 (· + 1)
  (lastKey? (group q.future a)).elim ret fun last => stdMax ret (last + 1)

/-- No transaction of the sender has the last nonce. -/
def lastNonceFree (a : Address) (q : TransactionQueue) : Bool :=
  (lookup q.currentByAddressAndNonce a (BitVec.allOnes 256)).isNone &&
    (lookup q.future a (BitVec.allOnes 256)).isNone

end TransactionQueue

/-- One of two calls. -/
inductive Caller where
  | first
  | second
deriving DecidableEq

/-- The other call. -/
def Caller.other : Caller → Caller
  | .first => .second
  | .second => .first

theorem Caller.other_ne (who : Caller) : who.other ≠ who := by
  cases who <;> decide

@[simp] theorem Caller.other_other (who : Caller) : who.other.other = who := by
  cases who <;> rfl

theorem Caller.eq_other {who who' : Caller} (h : who' ≠ who) : who' = who.other := by
  cases who <;> cases who' <;> first | rfl | exact absurd rfl h

/-- How far a call has come. -/
inductive Stage where
  | begun
  /-- It has its nonce. -/
  | read (nonce : U256)
  /-- It has imported its transaction. -/
  | sent (nonce : U256) (result : Option ImportResult)

/-- The nonce of a call. -/
def Stage.nonce : Stage → Option U256
  | .begun => none
  | .read nonce => some nonce
  | .sent nonce _ => some nonce

/-- `Transaction(ts, _secret)` of two calls with secrets of one sender, once the nonce is
set. -/
structure Signer where
  address : Address
  sign : Caller → U256 → Transaction
  sender : ∀ who n, (sign who n).sender = some address
  nonce : ∀ who n, (sign who n).nonce = n
  isSigned : ∀ who n, (sign who n).isSigned = true
  hasZeroSignature : ∀ who n, (sign who n).hasZeroSignature = false

/-- The queue and two calls of `submitTransaction`. -/
structure Submissions where
  queue : TransactionQueue
  stage : Caller → Stage := fun _ => .begun

namespace Submissions

/-- The steps of the calls. -/
inductive Step where
  /-- A call takes its nonce, and the post-seal block says that so many transactions are
  from its sender. -/
  | maxNonce (who : Caller) (transactionsFrom : U256)
  | import (who : Caller) (env : TransactionQueue.Env)

/-- A call has come further, and this is the queue it leaves. -/
def advance (s : Submissions) (who : Caller) (stage : Stage) (queue : TransactionQueue) :
    Submissions :=
  { queue := queue, stage := Function.update s.stage who stage }

/-- The steps of `submitTransaction`. -/
def step (k : Signer) (s : Submissions) : Step → Option Submissions
  | .maxNonce who transactionsFrom =>
      match s.stage who with
      | .begun =>
          let nonce := stdMax transactionsFrom (s.queue.maxNonce k.address)
          some (s.advance who (.read nonce) s.queue)
      | _ => none
  | .import who env =>
      match s.stage who with
      | .read nonce =>
          (s.queue.import env (k.sign who nonce) .ignore).map fun (queue, result) =>
            s.advance who (.sent nonce result) queue
      | _ => none

/-- Two calls that begin, with a queue that is reached by its operations. -/
def system (k : Signer) : System Submissions Step where
  init s := TransactionQueue.system.Reach (fun _ op => TransactionQueue.recoverable op = true)
    s.queue ∧ s.stage = fun _ => .begun
  step := step k

/-- The calls have different nonces, and what they imported was accepted and is in the
queue. -/
structure Kept (k : Signer) (s : Submissions) : Prop where
  apart : ∀ n n', (s.stage .first).nonce = some n → (s.stage .second).nonce = some n' → n ≠ n'
  queued : ∀ who n result, s.stage who = .sent n result →
    result = some .success ∧ s.queue.Held (k.sign who n)

/-- No transaction of the sender has the last nonce when one is taken, and there is room for
what is imported and for what it takes over from the future. -/
def roomy (k : Signer) (s : Submissions) : Step → Bool
  | .maxNonce _ _ => s.queue.lastNonceFree k.address
  | .import who _ =>
      match s.stage who with
      | .read nonce => s.queue.pending.length +
          (s.queue.promoted (k.sign who nonce)).length < s.queue.limit
      | _ => true

/-- Where a call takes its nonce after the other one has and before that one has imported,
the post-seal block does not give the same nonce again, and what it gives, or has given to
the other call, is above the next nonce of the queue.  What is imported is neither known
nor dropped. -/
def undisturbed (k : Signer) (s : Submissions) : Step → Bool
  | .maxNonce who transactionsFrom =>
      match s.stage who.other with
      | .read nonce' => transactionsFrom ≠ nonce' &&
          (s.queue.maxNonce k.address < nonce' || s.queue.maxNonce k.address < transactionsFrom)
      | _ => true
  | .import who _ =>
      match s.stage who with
      | .read nonce => s.queue.check (k.sign who nonce).sha3 .ignore == .success
      | _ => true

end Submissions

/-! ## The queue -/

theorem toNat_stdMax (a b : U256) : (stdMax a b).toNat = max a.toNat b.toNat := by
  rw [stdMax]
  split
  · rename_i h
    exact (max_eq_right (BitVec.lt_def.mp h).le).symm
  · rename_i h
    exact (max_eq_left (Nat.not_lt.mp fun hlt => h (BitVec.lt_def.mpr hlt))).symm

theorem toNat_add_one {n : U256} (h : n ≠ BitVec.allOnes 256) : (n + 1).toNat = n.toNat + 1 := by
  have hne : n.toNat ≠ 2 ^ 256 - 1 := by
    intro heq
    exact h (BitVec.eq_of_toNat_eq (by rw [heq, BitVec.toNat_allOnes]))
  have hlt := n.isLt
  have hone : (1 : U256).toNat = 1 := rfl
  rw [BitVec.toNat_add, hone]
  exact Nat.mod_eq_of_lt (by omega)

namespace TransactionQueue

variable {q q' : TransactionQueue} {t x : Transaction} {env : Env} {b : Balance Transaction}
  {a : Address}

/-- A nonce in a map is below the one that follows the last. -/
theorem lt_of_lookup {β : Type} {m : ExtTreeMap Address (ExtTreeMap U256 β)} {n : U256} {v : β}
    (h : lookup m a n = some v)
    (hlast : lookup m a (BitVec.allOnes 256) = none) :
    ∃ last, lastKey? (group m a) = some last ∧ n.toNat < (last + 1).toNat := by
  have hmem : n ∈ group m a := by
    rw [ExtTreeMap.mem_iff_isSome_getElem?, group_getElem?, h]
    rfl
  obtain ⟨last, hlastKey, hin, hle⟩ := lastKey?_of_mem hmem
  have hne : last ≠ BitVec.allOnes 256 := by
    rintro rfl
    rw [ExtTreeMap.mem_iff_isSome_getElem?, group_getElem?, hlast] at hin
    cases hin
  refine ⟨last, hlastKey, ?_⟩
  rw [toNat_add_one hne]
  rcases hle with rfl | hlt
  · exact Nat.lt_succ_self _
  · have := BitVec.lt_def.mp (compareOfLessAndEq_eq_lt.mp hlt)
    omega

/-- The queue gives a nonce above those of the sender, unless one of them is the last. -/
theorem Sound.lt_maxNonce (h : q.Sound) (hlast : q.lastNonceFree a = true) (ht : q.Held t)
    (hsender : t.safeSender = a) : t.nonce.toNat < (q.maxNonce a).toNat := by
  rw [lastNonceFree, Bool.and_eq_true, Option.isNone_iff_eq_none, Option.isNone_iff_eq_none] at hlast
  rw [maxNonce]
  rcases ht with ht | ⟨a', n, ht⟩
  · obtain ⟨last, hkey, hlt⟩ := lt_of_lookup (hsender ▸ h.lookup_of_mem ht) hlast.1
    rw [hkey]
    cases lastKey? (group q.future a) with
    | none => exact hlt
    | some last' =>
        simp only [Option.elim_some, toNat_stdMax]
        exact hlt.trans_le (le_max_left _ _)
  · obtain ⟨hsender', hnonce, -⟩ := h.keyed _ _ _ ht
    rw [← hsender', hsender, ← hnonce] at ht
    obtain ⟨last, hkey, hlt⟩ := lt_of_lookup ht hlast.2
    simp only [hkey, Option.elim_some, toNat_stdMax]
    exact hlt.trans_le (le_max_right _ _)

/-- What a higher price is found by. -/
theorem turnedDown_of_overbid (hcheck : q.check t.sha3 .ignore = .success)
    (h : q.replaceCurrent b t = .ok (q, true) ∨ q.replaceFuture t = (q, true)) :
    q.turnedDown t .ignore = true := by
  simp only [turnedDown, Bool.or_eq_true]
  rcases h with h | h
  · refine .inl (.inr ?_)
    simp only [replaceCurrent] at h
    split at h
    · cases h
    · cases h
    · rename_i old hold
      split at h
      · rename_i hprice
        rw [hold, Option.any_some, Option.any_some]
        exact decide_eq_true hprice
      · cases hremove : q.remove b old.sha3 with
        | error stop =>
            rw [hremove] at h
            cases h
        | ok answer =>
            rw [hremove] at h
            cases h
  · refine .inr ?_
    simp only [replaceFuture] at h
    split at h
    · cases h
    · rename_i old hold
      split at h
      · rename_i hprice
        rw [hold, Option.any_some]
        exact decide_eq_true hprice
      · exact absurd (congrArg Prod.snd h) Bool.false_ne_true

/-- A transaction that is stored found no higher price. -/
theorem Stored.turnedDown {q₁ q₂ q₃ : TransactionQueue} {current : SearchTree Transaction}
    (hstored : Stored q env t q₁ q₂ current q₃ q') (hsigned : t.isSigned = true)
    (hzero : t.hasZeroSignature = false) (hcheck : q.check t.sha3 .ignore = .success) :
    q.turnedDown t .ignore = false := by
  have hcurrent := hstored.replaceCurrent
  have hfuture := hstored.replaceFuture
  simp only [TransactionQueue.replaceCurrent] at hcurrent
  simp only [TransactionQueue.replaceFuture, hstored.removed.future] at hfuture
  rw [← Bool.not_eq_true]
  intro hdown
  simp only [TransactionQueue.turnedDown, hzero, hsigned, hcheck, Bool.or_eq_true, Bool.not_true,
    bne_self_eq_false, Bool.false_eq_true, false_or, Option.any_eq_true, decide_eq_true_eq] at hdown
  rcases hdown with ⟨entry, hentry, old, rfl, hprice⟩ | ⟨old, hold, hprice⟩
  · rw [hentry] at hcurrent
    simp [hprice] at hcurrent
  · rw [hold] at hfuture
    simp [hprice] at hfuture

/-- No transaction has the sender and the nonce of another one. -/
def slotFree (q : TransactionQueue) (t : Transaction) : Prop :=
  lookup q.currentByAddressAndNonce t.safeSender t.nonce = none ∧
    lookup q.future t.safeSender t.nonce = none

theorem Sound.slotFree (h : q.Sound)
    (hfree : ∀ x, q.Held x → x.safeSender = t.safeSender → x.nonce ≠ t.nonce) : q.slotFree t := by
  constructor
  · cases hentry : lookup q.currentByAddressAndNonce t.safeSender t.nonce with
    | none => rfl
    | some entry =>
        obtain ⟨x, hx, -, hsender, hnonce⟩ := (h.byNonce _ _ _).mp hentry
        exact absurd hnonce (hfree x (.inl hx) hsender)
  · cases hentry : lookup q.future t.safeSender t.nonce with
    | none => rfl
    | some x =>
        obtain ⟨hsender, hnonce, -⟩ := h.keyed _ _ _ hentry
        exact absurd hnonce (hfree x (.inr ⟨_, _, hentry⟩) hsender)

/-- In a free place it is the hash alone that turns a transaction down. -/
theorem turnedDown_of_slotFree (hfree : q.slotFree t) (hsigned : t.isSigned = true)
    (hzero : t.hasZeroSignature = false) :
    q.turnedDown t .ignore = false ↔ q.check t.sha3 .ignore = .success := by
  simp [turnedDown, hfree.1, hfree.2, hsigned, hzero]

/-- What an import that is not turned down leaves. -/
structure Admitted (q : TransactionQueue) (t : Transaction) (q' : TransactionQueue) : Prop where
  consistent : q'.Consistent
  /-- With a free place and with room nothing pending is lost. -/
  pending : q.slotFree t → q.pending.length + (q.promoted t).length < q.limit →
    ∀ x, x = t ∨ x ∈ q.pending → x ∈ q'.pending
  held : ∀ x, q'.Held x → x = t ∨ q.Held x
  future : ∀ a n x, lookup q'.future a n = some x → lookup q.future a n = some x
  free : lookup q'.future t.safeSender t.nonce = none

/-- Within its limit the queue drops nothing. -/
theorem evictCurrent_of_le {n : Nat} (h : q.pending.length ≤ q.limit) :
    q.evictCurrent b n = .ok q := by
  cases n with
  | zero => rfl
  | succ n => rw [TransactionQueue.evictCurrent, if_pos h]

theorem Stored.pending_subset {q₁ q₂ q₃ : TransactionQueue} {current : SearchTree Transaction}
    (hstored : Stored q env t q₁ q₂ current q₃ q') (hfree : q.slotFree t)
    (hroom : q.pending.length + (q.promoted t).length < q.limit)
    (hevict : evictCurrent env.balance q₃.pending.length
      { q₃ with known := q₃.known.insert t.sha3 } = .ok q') :
    ∀ x, x = t ∨ x ∈ q.pending → x ∈ q'.pending := by
  -- Nothing is replaced in a free place.
  have hcurrent := hstored.replaceCurrent
  have hfuture := hstored.replaceFuture
  simp only [TransactionQueue.replaceCurrent, hfree.1] at hcurrent
  cases hcurrent
  simp only [TransactionQueue.replaceFuture, hfree.2] at hfuture
  cases hfuture
  have hentered := entered_pending hstored.enter
  have hpromoted : (q.entered t current).promoted t = q.promoted t := rfl
  have hadvanced := hstored.advanced.pending
  rw [hpromoted] at hadvanced
  have hlength : q₃.pending.length ≤ q₃.limit := by
    rw [hadvanced.length_eq, hstored.advanced.limit, List.length_append, List.length_map,
      hentered.length_eq, List.length_cons]
    show _ ≤ q.limit
    omega
  rw [evictCurrent_of_le (q := { q₃ with known := q₃.known.insert t.sha3 }) hlength] at hevict
  cases hevict
  intro x hx
  refine hadvanced.mem_iff.mpr (List.mem_append_right _ ?_)
  exact hentered.mem_iff.mpr (List.mem_cons.mpr hx)

theorem Stored.admitted {q₁ q₂ q₃ : TransactionQueue} {current : SearchTree Transaction}
    (h : q.Consistent) (ht : t.sender.isSome = true) (hnew : t.sha3 ∉ q.known)
    (hstored : Stored q env t q₁ q₂ current q₃ q') (hsound : q'.Sound)
    (hevict : evictCurrent env.balance q₃.pending.length
      { q₃ with known := q₃.known.insert t.sha3 } = .ok q') : Admitted q t q' where
  consistent := ⟨hsound, (Imported.stored hnew ht hstored).known h.sound h.known⟩
  pending hfree hroom := hstored.pending_subset hfree hroom hevict
  held := by
    intro x hx
    have hadvanced : q₃.Held x := by
      rcases hx with hx | ⟨a, n, hx⟩
      · exact .inl (hstored.evicted.pending.subset hx)
      · exact .inr ⟨a, n, hstored.evicted.future ▸ hx⟩
    rcases hstored.advanced.held hadvanced with hx | hx
    · rcases List.mem_cons.mp ((entered_pending hstored.enter).mem_iff.mp hx) with rfl | hx
      · exact .inl rfl
      · exact .inr (hstored.removed.held (hstored.held x (.inl hx)))
    · exact .inr (hstored.removed.held (hstored.held x (.inr hx)))
  future := by
    intro a n x hx
    rw [hstored.evicted.future] at hx
    have hx₂ := hstored.advanced.future a n x hx
    rw [← hstored.removed.future]
    have hreplace := hstored.replaceFuture
    simp only [TransactionQueue.replaceFuture] at hreplace
    split at hreplace
    · cases hreplace
      exact hx₂
    · split at hreplace
      · cases hreplace
      · cases hreplace
        exact (Option.ite_none_left_eq_some.mp (lookup_eraseAt.symm.trans hx₂)).2
  free := by
    cases hx : lookup q'.future t.safeSender t.nonce with
    | none => rfl
    | some x =>
        rw [hstored.evicted.future] at hx
        have hx₂ := hstored.advanced.future _ _ _ hx
        have hmem : t ∈ (q₂.entered t current).pending :=
          (entered_pending hstored.enter).mem_iff.mpr (List.mem_cons_self ..)
        rw [hstored.soundEntered.apart t hmem] at hx₂
        cases hx₂

/-- An import of a signed transaction is turned down, or it succeeds. -/
theorem Consistent.import_cases (h : q.Consistent) (ht : t.sender.isSome = true)
    (hsigned : t.isSigned = true) (hzero : t.hasZeroSignature = false) (env : Env) :
    (q.turnedDown t .ignore = true ∧
      ∃ result, q.import env t .ignore = some (q, result) ∧ result ≠ some .success) ∨
    (q.turnedDown t .ignore = false ∧
      ∃ q', q.import env t .ignore = some (q', some .success) ∧ Admitted q t q') := by
  by_cases hcheck : q.check t.sha3 .ignore = .success
  · have hnew : t.sha3 ∉ q.known := by
      intro hmem
      rw [check, if_pos (ExtTreeSet.contains_iff_mem.mpr hmem)] at hcheck
      cases hcheck
    have himport : q.import env t .ignore =
        (q.manageImport env t.sha3 t).map fun p => (p.1, some p.2) := by
      simp only [TransactionQueue.import, hzero, hsigned, hcheck, Bool.not_true, Bool.false_eq_true,
        if_false]
    rcases h.sound.exists_stored h.known ht hnew env with
      ⟨hbody, hover⟩ | ⟨q₁, q₂, current, q₃, q', hstored, hsound, hevict, hbody⟩
    · refine .inl ⟨turnedDown_of_overbid hcheck hover, some .overbidGasPrice, ?_, by simp⟩
      rw [himport, manageImport, hbody]
      rfl
    · refine .inr ⟨hstored.turnedDown hsigned hzero hcheck, q', ?_,
        hstored.admitted h ht hnew hsound hevict⟩
      rw [himport, manageImport, hbody]
      rfl
  · refine .inl ⟨?_, some (q.check t.sha3 .ignore), ?_, by simpa using hcheck⟩
    · simp [turnedDown, hcheck]
    · simp only [TransactionQueue.import, hzero, hsigned, Bool.not_true, Bool.false_eq_true,
        if_false]

end TransactionQueue

/-! ## The calls -/

namespace Submissions

variable {k : Signer} {s s' : Submissions} {who : Caller}

/-- What holds in every run in which nonces do not run out. -/
structure Invariant (k : Signer) (s : Submissions) : Prop where
  consistent : s.queue.Consistent
  /-- What was accepted does not wait. -/
  pending : ∀ who n, s.stage who = .sent n (some .success) →
    ∀ a m, lookup s.queue.future a m ≠ some (k.sign who n)
  /-- While one call has a nonce and the other has none, the queue gives no higher one. -/
  ahead : ∀ who n, s.stage who = .read n → s.stage who.other = .begun →
    (s.queue.maxNonce k.address).toNat ≤ n.toNat
  /-- Below a nonce that was taken are those of the queue, that of the other call apart. -/
  below : ∀ who n, s.stage who = .read n → ∀ x, s.queue.Held x → x.safeSender = k.address →
    x.nonce.toNat < n.toNat ∨
      ∃ n' result, s.stage who.other = .sent n' result ∧ x = k.sign who.other n'

/-- Different nonces, for either call. -/
theorem apart_iff (s : Submissions) (who : Caller) :
    (∀ n n', (s.stage .first).nonce = some n → (s.stage .second).nonce = some n' → n ≠ n') ↔
      ∀ n n', (s.stage who).nonce = some n → (s.stage who.other).nonce = some n' → n ≠ n' := by
  cases who with
  | first => exact Iff.rfl
  | second =>
      exact ⟨fun h n n' hn hn' => (h n' n hn' hn).symm, fun h n n' hn hn' => (h n' n hn' hn).symm⟩

@[simp] theorem advance_queue (s : Submissions) (who : Caller) (st : Stage)
    (q : TransactionQueue) : (s.advance who st q).queue = q := rfl

@[simp] theorem advance_stage_self (s : Submissions) (who : Caller) (st : Stage)
    (q : TransactionQueue) : (s.advance who st q).stage who = st :=
  Function.update_self ..

@[simp] theorem advance_stage_other (s : Submissions) (who : Caller) (st : Stage)
    (q : TransactionQueue) : (s.advance who st q).stage who.other = s.stage who.other :=
  Function.update_of_ne who.other_ne ..

/-- A property of the calls is one of this call and of the other. -/
theorem forall_caller {P : Caller → Prop} (who : Caller) :
    (∀ who', P who') ↔ P who ∧ P who.other := by
  refine ⟨fun h => ⟨h _, h _⟩, ?_⟩
  rintro ⟨hself, hother⟩ who'
  by_cases heq : who' = who
  · exact heq ▸ hself
  · exact Caller.eq_other heq ▸ hother

/-- A call takes its nonce. -/
theorem step_maxNonce {p : U256} (h : step k s (.maxNonce who p) = some s') :
    s.stage who = .begun ∧
      s' = s.advance who (.read (stdMax p (s.queue.maxNonce k.address))) s.queue := by
  rw [step] at h
  split at h
  · rename_i hstage
    exact ⟨hstage, (Option.some.inj h).symm⟩
  · cases h

/-- A call imports its transaction, which is turned down or admitted. -/
theorem Invariant.step_import (hs : Invariant k s) {env : TransactionQueue.Env}
    (h : step k s (.import who env) = some s') :
    ∃ n, s.stage who = .read n ∧
      ((s.queue.turnedDown (k.sign who n) .ignore = true ∧ ∃ result, result ≠ some .success ∧
        s' = s.advance who (.sent n result) s.queue) ∨
      (s.queue.turnedDown (k.sign who n) .ignore = false ∧
        ∃ q', TransactionQueue.Admitted s.queue (k.sign who n) q' ∧
          s' = s.advance who (.sent n (some .success)) q')) := by
  rw [step] at h
  split at h
  · rename_i n hstage
    refine ⟨n, hstage, ?_⟩
    have hsender : (k.sign who n).sender.isSome = true := by
      rw [k.sender]
      rfl
    rcases hs.consistent.import_cases hsender (k.isSigned who n) (k.hasZeroSignature who n) env with
      ⟨hdown, result, himport, hresult⟩ | ⟨hdown, q', himport, hadmitted⟩
    · rw [himport] at h
      exact .inl ⟨hdown, result, hresult, (Option.some.inj h).symm⟩
    · rw [himport] at h
      exact .inr ⟨hdown, q', hadmitted, (Option.some.inj h).symm⟩
  · cases h

theorem Invariant.keep_maxNonce (hs : Invariant k s) {p : U256}
    (hlast : s.queue.lastNonceFree k.address = true)
    (h : step k s (.maxNonce who p) = some s') : Invariant k s' := by
  obtain ⟨hstage, rfl⟩ := step_maxNonce h
  have hmax := toNat_stdMax p (s.queue.maxNonce k.address)
  refine ⟨hs.consistent, (forall_caller who).mpr ⟨?_, ?_⟩, (forall_caller who).mpr ⟨?_, ?_⟩,
    (forall_caller who).mpr ⟨?_, ?_⟩⟩
  · intro n hsent
    rw [advance_stage_self] at hsent
    cases hsent
  · intro n hsent
    rw [advance_stage_other] at hsent
    exact hs.pending _ n hsent
  · intro n hread _
    rw [advance_stage_self] at hread
    cases hread
    rw [advance_queue, hmax]
    exact le_max_right _ _
  · intro n _ hother
    rw [Caller.other_other, advance_stage_self] at hother
    cases hother
  · intro n hread x hx hsender
    rw [advance_stage_self] at hread
    cases hread
    have hlt := hs.consistent.sound.lt_maxNonce hlast hx hsender
    exact .inl (by omega)
  · intro n hread x hx hsender
    rw [advance_stage_other] at hread
    rcases hs.below _ n hread x hx hsender with hlt | ⟨n', result, hother, -⟩
    · exact .inl hlt
    · rw [Caller.other_other, hstage] at hother
      cases hother

theorem Invariant.keep_import (hs : Invariant k s) {env : TransactionQueue.Env}
    (h : step k s (.import who env) = some s') : Invariant k s' := by
  obtain ⟨n, hstage, hcases⟩ := hs.step_import h
  have hself : ∃ result, s'.stage who = .sent n result := by
    rcases hcases with ⟨-, result, -, rfl⟩ | ⟨-, q', -, rfl⟩ <;> exact ⟨_, advance_stage_self ..⟩
  have hother : s'.stage who.other = s.stage who.other := by
    rcases hcases with ⟨-, result, -, rfl⟩ | ⟨-, q', -, rfl⟩ <;> exact advance_stage_other ..
  obtain ⟨result, hself⟩ := hself
  -- The other call has a nonce at most, and in the queue there is one transaction more.
  have hbelow : ∀ m, s'.stage who.other = .read m → ∀ x, s.queue.Held x →
      x.safeSender = k.address → x.nonce.toNat < m.toNat := by
    intro m hread x hx hsender
    refine (hs.below _ m (hother ▸ hread) x hx hsender).resolve_right ?_
    rintro ⟨n', result', hsent, -⟩
    rw [Caller.other_other, hstage] at hsent
    cases hsent
  have hahead : ∀ who' m, s'.stage who' = .read m → s'.stage who'.other ≠ .begun := by
    refine (forall_caller who).mpr ⟨?_, ?_⟩
    · intro m hread
      rw [hself] at hread
      cases hread
    · intro m _ hbegun
      rw [Caller.other_other, hself] at hbegun
      cases hbegun
  rcases hcases with ⟨-, result', hresult, rfl⟩ | ⟨-, q', hadmitted, rfl⟩
  · refine ⟨hs.consistent, (forall_caller who).mpr ⟨?_, ?_⟩,
      fun who' m hread hbegun => absurd hbegun (hahead who' m hread),
      (forall_caller who).mpr ⟨?_, fun m hread x hx hsender => .inl (hbelow m hread x hx hsender)⟩⟩
    · intro n' hsent
      rw [advance_stage_self] at hsent
      cases hsent
      exact absurd rfl hresult
    · intro n' hsent
      rw [advance_stage_other] at hsent
      exact hs.pending _ n' hsent
    · intro m hread
      rw [advance_stage_self] at hread
      cases hread
  · refine ⟨hadmitted.consistent, (forall_caller who).mpr ⟨?_, ?_⟩,
      fun who' m hread hbegun => absurd hbegun (hahead who' m hread),
      (forall_caller who).mpr ⟨?_, ?_⟩⟩
    · intro n' hsent a m hlookup
      rw [advance_stage_self] at hsent
      cases hsent
      rw [advance_queue] at hlookup
      obtain ⟨hsender, hnonce, -⟩ := hadmitted.consistent.sound.keyed a m _ hlookup
      rw [← hsender, ← hnonce, hadmitted.free] at hlookup
      cases hlookup
    · intro n' hsent a m hlookup
      rw [advance_stage_other] at hsent
      exact hs.pending _ n' hsent a m (hadmitted.future a m _ hlookup)
    · intro m hread
      rw [advance_stage_self] at hread
      cases hread
    · intro m hread x hx hsender
      rcases hadmitted.held x hx with rfl | hx
      · exact .inr ⟨n, _, by rw [Caller.other_other, advance_stage_self],
          by rw [Caller.other_other]⟩
      · exact .inl (hbelow m hread x hx hsender)

theorem Invariant.keep (hs : Invariant k s) {a : Step} (hroom : roomy k s a = true)
    (h : step k s a = some s') : Invariant k s' := by
  cases a with
  | maxNonce who p => exact hs.keep_maxNonce hroom h
  | «import» who env => exact hs.keep_import h

/-- What was accepted is held exactly if it is pending. -/
theorem Invariant.held_iff (hs : Invariant k s) {n : U256}
    (hsent : s.stage who = .sent n (some .success)) :
    s.queue.Held (k.sign who n) ↔ k.sign who n ∈ s.queue.pending := by
  constructor
  · rintro (hpending | ⟨a, m, hlookup⟩)
    · exact hpending
    · exact absurd hlookup (hs.pending who n hsent a m)
  · exact .inl

/-- Different nonces make different transactions. -/
theorem sign_ne {who' : Caller} {n n' : U256} (h : n ≠ n') : k.sign who n ≠ k.sign who' n' := by
  intro heq
  have := congrArg Transaction.nonce heq
  rw [k.nonce, k.nonce] at this
  exact h this

/-- A call loses nothing that the next step gives back. -/
theorem Invariant.kept_back (hs : Invariant k s) {a : Step} (h : step k s a = some s')
    (hkept : Kept k s') : Kept k s := by
  cases a with
  | maxNonce who p =>
      obtain ⟨hstage, rfl⟩ := step_maxNonce h
      refine ⟨(apart_iff s who).mpr ?_, (forall_caller who).mpr ⟨?_, ?_⟩⟩
      · intro n n' hn
        rw [hstage] at hn
        cases hn
      · intro n result hsent
        rw [hstage] at hsent
        cases hsent
      · intro n result hsent
        exact hkept.queued _ n result ((advance_stage_other ..).trans hsent)
  | «import» who env =>
      obtain ⟨n, hstage, hcases⟩ := hs.step_import h
      have hother : s'.stage who.other = s.stage who.other := by
        rcases hcases with ⟨-, result, -, rfl⟩ | ⟨-, q', -, rfl⟩ <;> exact advance_stage_other ..
      have hself : (s'.stage who).nonce = some n := by
        rcases hcases with ⟨-, result, -, rfl⟩ | ⟨-, q', -, rfl⟩ <;>
          rw [advance_stage_self, Stage.nonce]
      have hapart := (apart_iff s' who).mp hkept.apart
      rw [hself, hother] at hapart
      refine ⟨(apart_iff s who).mpr ?_, (forall_caller who).mpr ⟨?_, ?_⟩⟩
      · rw [hstage]
        exact hapart
      · intro n' result hsent
        rw [hstage] at hsent
        cases hsent
      · intro n' result hsent
        obtain ⟨hresult, hheld⟩ := hkept.queued who.other n' result (hother.trans hsent)
        refine ⟨hresult, ?_⟩
        rcases hcases with ⟨-, result', -, rfl⟩ | ⟨-, q', hadmitted, rfl⟩
        · exact hheld
        · have hne : n ≠ n' := hapart n n' rfl (by rw [hsent, Stage.nonce])
          exact (hadmitted.held _ hheld).resolve_left (sign_ne hne.symm)

/-- A nonce that was taken is apart from that of the other call. -/
theorem kept_read_iff (hkept : Kept k s) (n : U256) :
    Kept k (s.advance who (.read n) s.queue) ↔
      ∀ n', (s.stage who.other).nonce = some n' → n ≠ n' := by
  constructor
  · intro hk n' hn'
    have hapart := (apart_iff _ who).mp hk.apart
    rw [advance_stage_self, advance_stage_other] at hapart
    exact hapart n n' rfl hn'
  · intro hne
    refine ⟨(apart_iff _ who).mpr ?_, (forall_caller who).mpr ⟨?_, ?_⟩⟩
    · rw [advance_stage_self, advance_stage_other]
      rintro m n' ⟨⟩ hn'
      exact hne n' hn'
    · intro m result hsent
      rw [advance_stage_self] at hsent
      cases hsent
    · intro m result hsent
      rw [advance_stage_other] at hsent
      exact hkept.queued _ m result hsent

/-- Taking a nonce. -/
theorem Invariant.kept_maxNonce_iff (hs : Invariant k s) (hkept : Kept k s) {p : U256}
    (hroom : roomy k s (.maxNonce who p) = true) (h : step k s (.maxNonce who p) = some s') :
    Kept k s' ↔ undisturbed k s (.maxNonce who p) = true := by
  obtain ⟨hstage, rfl⟩ := step_maxNonce h
  have hmax := toNat_stdMax p (s.queue.maxNonce k.address)
  rw [kept_read_iff hkept, undisturbed]
  cases hother : s.stage who.other with
  | begun => simp [Stage.nonce]
  | read n' =>
      have hahead := hs.ahead who.other n' hother (by rw [Caller.other_other, hstage])
      simp only [Stage.nonce, Option.some.injEq, Bool.and_eq_true, Bool.or_eq_true,
        decide_eq_true_eq, ne_eq, ← BitVec.toNat_inj, hmax, BitVec.lt_def]
      constructor
      · intro hne
        have := hne n' rfl
        omega
      · rintro hcond n'' heq
        omega
  | sent n' result =>
      -- The transaction of the other call is in the queue, which gives a higher nonce.
      obtain ⟨-, hheld⟩ := hkept.queued who.other n' result hother
      have hsender : (k.sign who.other n').safeSender = k.address := by
        rw [Transaction.safeSender, k.sender]
        rfl
      have hlt := hs.consistent.sound.lt_maxNonce hroom hheld hsender
      rw [k.nonce] at hlt
      refine iff_of_true ?_ rfl
      rintro n'' ⟨⟩ heq
      have := congrArg BitVec.toNat heq
      omega

/-- The place of a transaction is free when it is imported. -/
theorem Invariant.slotFree (hs : Invariant k s) (hkept : Kept k s) {n : U256}
    (hread : s.stage who = .read n) : s.queue.slotFree (k.sign who n) := by
  refine hs.consistent.sound.slotFree ?_
  intro x hx hsender heq
  have haddress : (k.sign who n).safeSender = k.address := by
    rw [Transaction.safeSender, k.sender]
    rfl
  rw [k.nonce] at heq
  rcases hs.below who n hread x hx (hsender.trans haddress) with hlt | ⟨n', result, hsent, rfl⟩
  · rw [heq] at hlt
    exact absurd hlt (Nat.lt_irrefl _)
  · rw [k.nonce] at heq
    refine (apart_iff s who).mp hkept.apart n n' ?_ ?_ heq.symm
    · rw [hread, Stage.nonce]
    · rw [hsent, Stage.nonce]

/-- Importing. -/
theorem Invariant.kept_import_iff (hs : Invariant k s) (hkept : Kept k s)
    {env : TransactionQueue.Env} (hroom : roomy k s (.import who env) = true)
    (h : step k s (.import who env) = some s') :
    Kept k s' ↔ undisturbed k s (.import who env) = true := by
  obtain ⟨n, hstage, hcases⟩ := hs.step_import h
  have hfree := hs.slotFree hkept hstage
  have hdown := TransactionQueue.turnedDown_of_slotFree hfree (k.isSigned who n)
    (k.hasZeroSignature who n)
  simp only [roomy, hstage, decide_eq_true_eq] at hroom
  simp only [undisturbed, hstage, beq_iff_eq]
  rw [← hdown]
  rcases hcases with ⟨hrefused, result, hresult, rfl⟩ | ⟨haccepted, q', hadmitted, rfl⟩
  · refine iff_of_false ?_ (by simp [hrefused])
    intro hk
    exact hresult (hk.queued who n result (advance_stage_self ..)).1
  · refine iff_of_true ?_ haccepted
    have hpending := hadmitted.pending hfree hroom
    refine ⟨(apart_iff _ who).mpr ?_, (forall_caller who).mpr ⟨?_, ?_⟩⟩
    · have hapart := (apart_iff s who).mp hkept.apart
      rw [hstage] at hapart
      rw [advance_stage_self, advance_stage_other]
      exact hapart
    · intro n' result hsent
      rw [advance_stage_self] at hsent
      cases hsent
      exact ⟨rfl, .inl (hpending _ (.inl rfl))⟩
    · intro n' result hsent
      rw [advance_stage_other] at hsent
      obtain ⟨rfl, hheld⟩ := hkept.queued _ n' result hsent
      exact ⟨rfl, .inl (hpending _ (.inr ((hs.held_iff hsent).mp hheld)))⟩

/-- Where there is room throughout, the condition is exact. -/
theorem kept_iff_of_roomy {s s' : Submissions} (hs : (system k).init s) (steps : List Step)
    (hrun : (system k).exec s steps = some s')
    (hroom : (system k).Always (fun s a => roomy k s a = true) s steps) :
    Kept k s' ↔ (system k).Always (fun s a => undisturbed k s a = true) s steps := by
  obtain ⟨hreach, hbegun⟩ := hs
  have hconsistent := (TransactionQueue.reach_invariant (I := fun _ => True)
    (fun _ _ hop => hop) (fun _ _ => trivial) (fun _ _ _ _ _ _ _ _ => trivial) hreach).1
  have hinvariant : Invariant k s := by
    refine ⟨hconsistent, ?_, ?_, ?_⟩
    · intro who n hsent
      rw [hbegun] at hsent
      cases hsent
    · intro who n hread
      rw [hbegun] at hread
      cases hread
    · intro who n hread
      rw [hbegun] at hread
      cases hread
  have hkept : Kept k s := by
    constructor
    · intro n n' hn
      rw [hbegun] at hn
      cases hn
    · intro who n result hsent
      rw [hbegun] at hsent
      cases hsent
  refine (system k).exec_iff_always (I := Invariant k) ?_ ?_ ?_ steps hinvariant hkept hroom hrun
  · intro s a s' hs hr hstep
    exact hs.keep hr hstep
  · intro s a s' hs hstep hk
    exact hs.kept_back hstep hk
  · intro s a s' hs hr hk hstep
    cases a with
    | maxNonce who p => exact hs.kept_maxNonce_iff hk hr hstep
    | «import» who env => exact hs.kept_import_iff hk hr hstep

/-- **Two submissions get different nonces, and both are accepted and stay in the queue, if
every step is roomy and undisturbed.  Of the runs with room throughout these are all.** -/
theorem submissions_kept (k : Signer) {s s' : Submissions} (hs : (system k).init s)
    (steps : List Step) (hrun : (system k).exec s steps = some s') :
    ((system k).Always (fun s a => roomy k s a = true ∧ undisturbed k s a = true) s steps →
      Kept k s') ∧
    ((system k).Always (fun s a => roomy k s a = true) s steps → Kept k s' →
      (system k).Always (fun s a => undisturbed k s a = true) s steps) := by
  constructor
  · intro hcond
    obtain ⟨hroom, hapart⟩ := (System.always_and steps s).mp hcond
    exact (kept_iff_of_roomy hs steps hrun hroom).mpr hapart
  · intro hroom
    exact (kept_iff_of_roomy hs steps hrun hroom).mp

/-- Two calls whose transactions have different hashes. -/
def sampleSigner : Signer where
  address := 3
  sign who n :=
    { sha3 := (if who = .first then 0x100 else 0x200) + n, nonce := n, gasPrice := 5
      sender := some 3 }
  sender := by simp
  nonce := by simp
  isSigned := by simp
  hasZeroSignature := by simp

/-- An empty queue with room for eight transactions. -/
def sampleStart : Submissions where
  queue := { limit := 8, futureLimit := 8 }

theorem init_sampleStart : (system sampleSigner).init sampleStart :=
  ⟨.init ⟨8, 8, rfl⟩, rfl⟩

/-- One call after the other gets the next nonce. -/
def oneByOne : List Step :=
  [.maxNonce .first 0, .import .first TransactionQueue.sampleEnv, .maxNonce .second 0,
    .import .second TransactionQueue.sampleEnv]

theorem submissions_kept_one_by_one :
    ∃ s', (system sampleSigner).exec sampleStart oneByOne = some s' ∧
      (s'.stage .second).nonce = some 1 ∧ Kept sampleSigner s' := by
  have hrun : ((system sampleSigner).exec sampleStart oneByOne).any
      (fun s => (s.stage .second).nonce == some 1) = true := by
    decide +kernel
  obtain ⟨s', hs', hnonce⟩ := Option.any_eq_true _ _ |>.mp hrun
  refine ⟨s', hs', beq_iff_eq.mp hnonce, ?_⟩
  exact (submissions_kept sampleSigner init_sampleStart oneByOne hs').1
    (System.always_of_check oneByOne (by decide +kernel))

/-- Two calls that take their nonces before either imports get the same one. -/
theorem same_nonce :
    ∃ s', (system sampleSigner).exec sampleStart
        [.maxNonce .first 0, .maxNonce .second 0, .import .first TransactionQueue.sampleEnv,
          .import .second TransactionQueue.sampleEnv] = some s' ∧
      (s'.queue.pending.map Transaction.sha3 = [0x200]) ∧ ¬Kept sampleSigner s' := by
  have hrun : ((system sampleSigner).exec sampleStart
      [.maxNonce .first 0, .maxNonce .second 0, .import .first TransactionQueue.sampleEnv,
        .import .second TransactionQueue.sampleEnv]).any
      (fun s => (s.stage .first).nonce == some 0 && (s.stage .second).nonce == some 0 &&
        s.queue.pending.map Transaction.sha3 == [0x200]) = true := by
    decide +kernel
  obtain ⟨s', hs', hsame⟩ := Option.any_eq_true _ _ |>.mp hrun
  rw [Bool.and_eq_true, Bool.and_eq_true, beq_iff_eq, beq_iff_eq, beq_iff_eq] at hsame
  refine ⟨s', hs', hsame.2, ?_⟩
  intro hk
  exact hk.apart 0 0 hsame.1.1 hsame.1.2 rfl

end Submissions

end CppSwc
