import CppSwc.State.Commit
import CppSwc.State.Rollback

/-!
# Runs between savepoints

An `Operation` is a call of a public member function of `State`.  `Reachable` are the
states that operations lead to from a state that has been opened on a trie, and
`rollback_restores` says that a rollback to a savepoint undoes every run of the operations
that have an undo entry, with savepoints and rollbacks in between.

It needs that the operations were recorded.  `setCode` must not be called on an account
that is not dirty, and a call of `incNonce`, `setNonce` or `setStorage` must not be the
first touch of an empty account.
-/

namespace CppSwc.State

open Std Lib CodeHash Account

variable {H : Type} [DecidableEq H] [CodeHash H]

/-- Calls of the public member functions.  All that only look up an account are
`account`. -/
inductive Operation where
  | account (pick : Pick) (a : Address)
  | storage (pick : Pick) (a : Address) (key : U256)
  | code (pick : Pick) (a : Address)
  | incNonce (pick : Pick) (a : Address)
  | setNonce (pick : Pick) (a : Address) (nonce : U256)
  | addBalance (pick : Pick) (a : Address) (amount : U256)
  | subBalance (pick : Pick) (a : Address) (value : U256)
  | setBalance (pick : Pick) (a : Address) (value : U256)
  | transferBalance (pick pick' : Pick) (source target : Address) (value : U256)
  | createContract (pick : Pick) (a : Address)
  | setStorage (pick : Pick) (a : Address) (key value : U256)
  | setCode (pick : Pick) (a : Address) (new : Bytes)
  | clearStorage (a : Address)
  | kill (pick : Pick) (a : Address)
  | rollback (savepoint : Nat)
  | commit (behaviour : CommitBehaviour)

/-- What a call does. -/
def perform : Operation → Action H Unit
  | .account pick a => do
      let _ ← account pick a
      pure ()
  | .storage pick a key => do
      let _ ← storage pick a key
      pure ()
  | .code pick a => do
      let _ ← code pick a
      pure ()
  | .incNonce pick a => incNonce pick a
  | .setNonce pick a nonce => setNonce pick a nonce
  | .addBalance pick a amount => addBalance pick a amount
  | .subBalance pick a value => subBalance pick a value
  | .setBalance pick a value => setBalance pick a value
  | .transferBalance pick pick' source target value =>
      transferBalance pick pick' source target value
  | .createContract pick a => createContract pick a
  | .setStorage pick a key value => setStorage pick a key value
  | .setCode pick a new => setCode pick a new
  | .clearStorage a => clearStorage a
  | .kill pick a => kill pick a
  | .rollback savepoint => modify (rollback savepoint)
  | .commit behaviour => modify (commit behaviour)

variable {s t : State H} {a : Address} {x y : Account H}

/-! ## What the operations keep -/

theorem coherent_of_undoes (h : Undoes s t) (hs : s.Coherent) : t.Coherent := (h hs).1.good

/-- The change log can be anything. -/
theorem Coherent.logged (h : s.Coherent) (c : Change H) : (s.logged c).Coherent :=
  { h with clean := h.clean }

/-- A found account is replaced by a dirty one. -/
theorem Coherent.replace (h : s.Coherent) (hx : s.cache[a]? = some x) (hnoted : y.CodeNoted)
    (halive : x.isAlive = false → y.isAlive = false) (hdirty : y.isDirty = true) :
    (s.put a y).Coherent :=
  h.put hnoted (fun ha => halive ((h.absent a ha).2 x hx)) hdirty

omit [DecidableEq H] in
theorem codeNoted_dead : (Account.dead : Account H).CodeNoted := .inl rfl

omit [DecidableEq H] in
theorem codeNoted_kill (x : Account H) : x.kill.CodeNoted := .inl rfl

omit [DecidableEq H] in
theorem entry_of_none (h : s.cache[a]? = none) : s.entry a = .dead := by
  rw [entry, ExtTreeMap.getD_eq_getD_getElem?, h, Option.getD_none]

/-- A change of `m_cache[a]` that makes it dirty. -/
theorem Coherent.change (h : s.Coherent) {f : Account H → Account H}
    (hnoted : ∀ x, x.CodeNoted → (f x).CodeNoted) (halive : ∀ x, (f x).isAlive = x.isAlive)
    (hdirty : ∀ x : Account H, s.entry a = x → (f x).isDirty = true) :
    (s.put a (f (s.entry a))).Coherent := by
  cases hx : s.cache[a]? with
  | some x =>
      have hentry := entry_of_cache hx
      rw [hentry]
      exact h.replace hx (hnoted x (h.noted a x hx)) (fun hdead => (halive x).trans hdead)
        (hdirty x hentry)
  | none =>
      have hentry := entry_of_none hx
      rw [hentry]
      exact h.put (hnoted _ codeNoted_dead) (fun _ => halive _) (hdirty _ hentry)

theorem coherent_writeNonce {pick : Pick} {new : Account H → U256} {first : Action H U256}
    (hs : s.Coherent) (hfirst : ∀ t : State H, after first t = t) :
    (after (writeNonce pick a new first) s).Coherent := by
  have hload := (covers_load pick a hs).coherent hs
  show (after (_ : Action H Unit) (s.load pick a)).Coherent
  generalize s.load pick a = t at hload ⊢
  cases hx : t.cache[a]? with
  | some x =>
      have hput : (t.put a (x.setNonce (new x))).Coherent :=
        hload.replace hx (hload.noted a x hx) id rfl
      exact hput.logged _
  | none =>
      refine after_bind (m := first) (fun e u hu => ?_) fun nonce u hu => ?_
      · rw [← after_of_error hu, hfirst]
        exact hload
      · rw [← after_of_ok hu, hfirst] at *
        exact coherent_of_undoes (undoes_createAccount pick a (codeNoted_create nonce 0) rfl t) hload

omit [DecidableEq H] [CodeHash H] in
theorem after_requireAccountStartNonce_bind {α : Type} (f : U256 → α) (t : State H) :
    after (do let nonce ← requireAccountStartNonce; pure (f nonce)) t = t := by
  rw [requireAccountStartNonce, bind_assoc, after_get_bind, bind_assoc, after_throwIf_bind]
  split <;> rfl

theorem coherent_setStorage (pick : Pick) (key value : U256) (hs : s.Coherent) :
    (after (setStorage pick a key value) s).Coherent := by
  have hread := (covers_storage pick a key hs).coherent hs
  refine after_bind (m := storage pick a key) (fun e t ht => ?_) fun old t ht => ?_
  · rwa [after_of_error ht] at hread
  · rw [after_of_ok ht] at hread
    have hput : (t.put a ((t.entry a).setStorage key value)).Coherent :=
      hread.change (fun _ h => h) (fun _ => rfl) fun _ _ => rfl
    exact hput.logged _

/-- Reading code is not visible. -/
theorem covers_code (pick : Pick) (a : Address) (hs : s.Coherent) :
    Covers (after (code pick a) s) s := by
  have hcovers := covers_load pick a hs
  have hload := hcovers.coherent hs
  refine Covers.trans (t := s.load pick a) ?_ hcovers
  rw [after, code, account_bind]
  generalize s.load pick a = t at hload ⊢
  cases hx : t.cache[a]? with
  | none => exact Covers.refl hload.toTidy
  | some x => exact covers_readCode hload hx

/-- `setCode`, if the account is dirty or there is none. -/
theorem coherent_setCode (pick : Pick) (new : Bytes) (hs : s.Coherent)
    (hdirty : ∀ x, s.view a = some x → x.isDirty = true) :
    (after (setCode pick a new) s).Coherent := by
  have hcovers := covers_code pick a hs
  refine after_bind (m := code pick a) (fun e t ht => ?_) fun old t ht => ?_
  · rw [after_of_error ht] at hcovers
    exact hcovers.coherent hs
  · rw [after_of_ok ht] at hcovers
    have hput : (t.put a ((t.entry a).setCode new)).Coherent := by
      refine (hcovers.coherent hs).change (fun x _ => codeNoted_setCode x new) (fun _ => rfl) ?_
      intro x hentry
      cases hx : t.cache[a]? with
      | none =>
          rw [entry_of_none hx] at hentry
          rw [← hentry]
          rfl
      | some z =>
          rw [entry_of_cache hx] at hentry
          subst hentry
          -- an account that is shown by the state before is dirty, and stays so
          have hview := hcovers.view a
          rw [view, hx, Option.some_or] at hview
          cases hy : s.view a with
          | none =>
              rw [hy] at hview
              cases hview
          | some y =>
              cases hc : s.cache[a]? with
              | some w =>
                  obtain ⟨v, hv, hdirty'⟩ := hcovers.dirty a w hc (hdirty w (by rw [view, hc]; rfl))
                  rw [hx] at hv
                  cases hv
                  exact hdirty'
              | none =>
                  have hd := hdirty y hy
                  rw [view, hc, Option.none_or] at hy
                  obtain ⟨leaf, -, rfl⟩ := Option.map_eq_some_iff.mp hy
                  cases hd
    exact hput.logged _

theorem coherent_clearStorage (hs : s.Coherent) : (after (clearStorage a) s).Coherent := by
  have hput : (s.put a (s.entry a)).Coherent := by
    cases hx : s.cache[a]? with
    | some x => rwa [entry_of_cache hx, put_self hx]
    | none =>
        rw [entry_of_none hx]
        exact hs.put codeNoted_dead (fun _ => rfl) rfl
  rw [clearStorage, after_modify]
  generalize s.put a (s.entry a) = t at hput ⊢
  show Coherent (if (t.entry a).storageRoot.isEmpty then t
    else (t.put a (t.entry a).clearStorage).logged _)
  split
  · exact hput
  · have hclear : (t.put a (t.entry a).clearStorage).Coherent :=
      hput.change (fun _ h => h) (fun _ => rfl) fun _ _ => rfl
    exact hclear.logged _

theorem coherent_kill (pick : Pick) (hs : s.Coherent) : (after (kill pick a) s).Coherent := by
  have hload := (covers_load pick a hs).coherent hs
  show (after (_ : Action H Unit) (s.load pick a)).Coherent
  generalize s.load pick a = t at hload ⊢
  cases hx : t.cache[a]? with
  | none => exact hload
  | some x => exact hload.replace hx (codeNoted_kill x) (fun _ => rfl) rfl

/-! ## Runs above a savepoint -/

/-- The calls that may stand between a savepoint and a rollback to it: those that have an
undo entry or only read, and rollbacks to savepoints in between. -/
def Undoable (start : Nat) (s : State H) : Operation → Prop
  | .setStorage _ a _ _ => (s.view a).isSome = true
  | .rollback savepoint => start ≤ savepoint ∧ savepoint ≤ s.savepoint
  | .clearStorage _ | .kill _ _ | .commit _ => False
  | _ => True

/-- The undo entry of the call says all that the call changes. -/
def Recorded (s : State H) : Operation → Prop
  | .incNonce _ a | .setNonce _ a _ | .setStorage _ a _ _ => s.TouchedIfEmpty a
  | .setCode _ a _ => ∃ x, s.cache[a]? = some x ∧ x.isDirty = true
  | _ => True

instance (s : State H) (a : Address) : Decidable (s.TouchedIfEmpty a) :=
  inferInstanceAs (Decidable (∀ x ∈ s.view a, _))

instance (start : Nat) (s : State H) (op : Operation) : Decidable (s.Undoable start op) :=
  match op with
  | .setStorage _ a _ _ => inferInstanceAs (Decidable ((s.view a).isSome = true))
  | .rollback n => inferInstanceAs (Decidable (start ≤ n ∧ n ≤ s.savepoint))
  | .clearStorage _ | .kill _ _ | .commit _ => .isFalse id
  | .account _ _ | .storage _ _ _ | .code _ _ | .incNonce _ _ | .setNonce _ _ _
  | .addBalance _ _ _ | .subBalance _ _ _ | .setBalance _ _ _ | .transferBalance _ _ _ _ _
  | .createContract _ _ | .setCode _ _ _ => .isTrue trivial

instance (s : State H) (op : Operation) : Decidable (s.Recorded op) :=
  match op with
  | .incNonce _ a | .setNonce _ a _ | .setStorage _ a _ _ =>
      inferInstanceAs (Decidable (s.TouchedIfEmpty a))
  | .setCode _ a _ => inferInstanceAs (Decidable (∃ x ∈ s.cache[a]?, x.isDirty = true))
  | .account _ _ | .storage _ _ _ | .code _ _ | .addBalance _ _ _ | .subBalance _ _ _
  | .setBalance _ _ _ | .transferBalance _ _ _ _ _ | .createContract _ _ | .clearStorage _
  | .kill _ _ | .rollback _ | .commit _ => .isTrue trivial

/-- The runs from a state. -/
def runs (s : State H) : System (State H) Operation where
  init x := x = s
  step x op := some (after (perform op) x)

/-- A run from the savepoint of `s` on whose calls are all recorded. -/
def Run (s t : State H) : Prop :=
  (runs s).Reach (fun x op => x.Undoable s.savepoint op ∧ x.Recorded op) t

/-- An action whose result is dropped. -/
theorem undoes_discard {α : Type} {m : Action H α} (h : Undoes s (after m s)) :
    Undoes s (after (do let _ ← m; pure ()) s) :=
  h.bind fun _ t _ => Journal.Undoes.refl t

/-- A call other than a rollback is undone by its entries. -/
theorem undoes_perform {start : Nat} {op : Operation} (hundo : s.Undoable start op)
    (hrecorded : s.Recorded op) (hrollback : ∀ n, op ≠ .rollback n) :
    Undoes s (after (perform op) s) := by
  cases op with
  | account pick a => exact undoes_discard (undoes_load pick a s)
  | storage pick a key =>
      exact undoes_discard (Journal.Undoes.of_covers fun hs => covers_storage pick a key hs)
  | code pick a =>
      exact undoes_discard (Journal.Undoes.of_covers fun hs => covers_code pick a hs)
  | incNonce pick a => exact undoes_incNonce pick hrecorded
  | setNonce pick a nonce => exact undoes_setNonce pick nonce hrecorded
  | addBalance pick a amount => exact undoes_addBalance pick a amount s
  | subBalance pick a value => exact undoes_subBalance pick a value s
  | setBalance pick a value => exact undoes_setBalance pick a value s
  | transferBalance pick pick' source target value =>
      exact undoes_transferBalance pick pick' source target value s
  | createContract pick a => exact undoes_createContract pick a s
  | setStorage pick a key value => exact undoes_setStorage pick key value hrecorded hundo
  | setCode pick a new =>
      obtain ⟨x, hx, hdirty⟩ := hrecorded
      exact undoes_setCode pick new hx hdirty
  | clearStorage a | kill pick a | commit behaviour => exact hundo.elim
  | rollback n => exact absurd rfl (hrollback n)

/-- Every state of a run is one whose undoing covers the start. -/
theorem Run.undoes (h : Run s t) : Undoes s t := by
  refine System.Reach.invariant (I := Undoes s) ?_ ?_ h
  · rintro _ rfl
    exact Journal.Undoes.refl _
  · rintro x op y - hx ⟨hundo, hrecorded⟩ hstep
    cases hstep
    by_cases hop : ∃ n, op = .rollback n
    · obtain ⟨n, rfl⟩ := hop
      exact hx.rollback hundo.1
    · exact hx.trans (undoes_perform hundo hrecorded fun n hn => hop ⟨n, hn⟩)

/-- `setCode` is called on dirty accounts only. -/
def Marked (s : State H) : Operation → Prop
  | .setCode _ a _ => ∀ x, s.view a = some x → x.isDirty = true
  | .rollback _ => False
  | _ => True

/-- The states that are reached from one that is opened on a trie, with rollbacks that
undo recorded runs. -/
inductive Reachable : State H → Prop where
  | opened (trie : ExtTreeMap Address (Leaf H)) (codes : H → Bytes) (accountStartNonce : U256) :
      Reachable (opened trie codes accountStartNonce)
  | perform {s : State H} {op : Operation} : Reachable s → s.Marked op →
      Reachable (after (perform op) s)
  | run {s t : State H} : Reachable s → Run s t → Reachable t

theorem coherent_opened (trie : ExtTreeMap Address (Leaf H)) (codes : H → Bytes)
    (accountStartNonce : U256) : (opened trie codes accountStartNonce).Coherent where
  absent _ hb := absurd hb ExtTreeSet.not_mem_empty
  noted b y hy := by
    rw [show (State.opened trie codes accountStartNonce).cache = ∅ from rfl,
      ExtTreeMap.getElem?_empty] at hy
    cases hy
  clean b y hy := by
    rw [show (State.opened trie codes accountStartNonce).cache = ∅ from rfl,
      ExtTreeMap.getElem?_empty] at hy
    cases hy

/-- A call keeps the clean accounts as the trie has them. -/
theorem coherent_perform {op : Operation} (hs : s.Coherent) (hmarked : s.Marked op) :
    (after (perform op) s).Coherent := by
  cases op with
  | setCode pick a new => exact coherent_setCode pick new hs hmarked
  | rollback n => exact hmarked.elim
  | clearStorage a => exact coherent_clearStorage hs
  | kill pick a => exact coherent_kill pick hs
  | commit behaviour => exact coherent_commit behaviour hs.toTidy
  | incNonce pick a => exact coherent_writeNonce hs (after_requireAccountStartNonce_bind _)
  | setNonce pick a nonce => exact coherent_writeNonce hs fun _ => rfl
  | setStorage pick a key value => exact coherent_setStorage pick key value hs
  | account pick a | storage pick a key | code pick a | addBalance pick a amount
  | subBalance pick a value | setBalance pick a value | createContract pick a
  | transferBalance pick pick' source target value =>
      exact coherent_of_undoes
        (undoes_perform (show s.Undoable 0 _ from trivial) trivial (by simp)) hs

theorem Reachable.coherent (h : Reachable s) : s.Coherent := by
  induction h with
  | opened trie codes nonce => exact coherent_opened trie codes nonce
  | perform _ hmarked ih => exact coherent_perform ih hmarked
  | run _ hrun ih => exact coherent_of_undoes hrun.undoes ih

/-- **A rollback restores the state.**  After a run from any coherent state (such as the reachable
ones, by `Reachable.coherent`) whose calls are all recorded, going back to the savepoint leaves
every account as it was, and `commit` then removes the accounts that it would have removed before
the run. -/
theorem rollback_restores (hs : s.Coherent) (hrun : Run s t) :
    ReadAlike (t.rollback s.savepoint) s ∧
      ∀ a, (t.rollback s.savepoint).Removes a ↔ s.Removes a := by
  obtain ⟨-, hcovers⟩ := hrun.undoes hs
  refine ⟨?_, fun a => hcovers.removes_iff hs⟩
  exact readAlike (hcovers.coherent hs) hs hcovers.codes hcovers.accountStartNonce hcovers.view

/-- A state opened on a trie with a contract at 1 and an empty account at 2. -/
def sample : State Bytes :=
  opened ((ExtTreeMap.empty.insert 1 ⟨1, 10, ExtTreeMap.empty.insert 7 7, [0]⟩).insert 2
    ⟨0, 0, ∅, []⟩) id 0

/-- Calls that change both accounts and create one, with a rollback in between. -/
def sampleRun : List Operation :=
  let pick : Pick := fun _ => 0
  [.incNonce pick 1, .setCode pick 1 [1, 2], .transferBalance pick pick 1 2 4, .incNonce pick 2,
    .rollback 3, .setStorage pick 1 7 8, .addBalance pick 3 5]

/-- The theorem at this run. -/
theorem rollback_restores_sample :
    ∃ t, Reachable sample ∧ Run sample t ∧ t.savepoint = 6 ∧
      ReadAlike (t.rollback sample.savepoint) sample ∧
      ∀ a, (t.rollback sample.savepoint).Removes a ↔ sample.Removes a := by
  have hs : Reachable sample := .opened _ _ _
  have hrun : ∃ t, (runs sample).Reach
      (fun x op => x.Undoable sample.savepoint op ∧ x.Recorded op) t ∧
        decide (t.savepoint = 6) = true :=
    System.Reach.exists_of_check sampleRun (.init rfl) (by decide +kernel) (by decide +kernel)
  obtain ⟨t, ht, hlog⟩ := hrun
  exact ⟨t, hs, ht, of_decide_eq_true hlog, rollback_restores hs.coherent ht⟩

/-- A new nonce of an empty account, taken back, leaves the account dirty, so that `commit`
removes it. -/
theorem first_touch_not_undone :
    ∃ s t : State Bytes, Reachable s ∧
      (runs s).Reach (fun x op => x.Undoable s.savepoint op) t ∧
      ¬∀ a, (t.rollback s.savepoint).Removes a ↔ s.Removes a := by
  have hrun : ∃ t, (runs sample).Reach (fun x op => x.Undoable sample.savepoint op) t ∧
      decide ((t.rollback 0).Removes 2) = true :=
    System.Reach.exists_of_check [.incNonce (fun _ => 0) 2] (.init rfl) (by decide +kernel)
      (by decide +kernel)
  obtain ⟨t, ht, hremoved⟩ := hrun
  refine ⟨sample, t, .opened _ _ _, ht, fun h => ?_⟩
  have hkept : ¬sample.Removes 2 := by decide +kernel
  exact hkept ((h 2).mp (of_decide_eq_true hremoved))

end CppSwc.State
