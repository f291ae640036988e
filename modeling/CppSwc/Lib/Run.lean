import Mathlib.Order.Basic

/-!
# Runs of a transition system

A `System` has initial states and a partial, labelled step function.  `Reach ok`
is reachability along steps whose label and source state meet `ok`.  A safety
theorem about every run is `Reach` with `ok` always true, and a theorem about
the runs that avoid some situation is `Reach` with `ok` its negation.

`Reach.invariant` is the one induction over runs.  `exec` runs a list of labels,
and `Reach.of_check` turns an evaluated run into reachability.  `Always` says that
a condition holds wherever a run tries a step, the last and failing one included.
`exec_iff_always` is for a property that is never won back once it is lost.

The last section is about a total step function.  `Along ok` says that every step
of a run meets `ok`, and `pairwise_trail_iff` reads a quantity off the states: it
never decreases exactly if no single step decreases it.  `forall_trail_iff` says so of a
property of the states that an invariant turns into a condition on the next step.
-/

namespace CppSwc.Lib

universe u v

/-- A transition system with labels `α`.  A label that is not enabled in a
state has no step there. -/
structure System (σ : Type u) (α : Type v) where
  /-- The initial states. -/
  init : σ → Prop
  /-- The step a label makes, if it is enabled. -/
  step : σ → α → Option σ

namespace System

variable {σ : Type u} {α : Type v} {S : System σ α} {ok : σ → α → Prop}

/-- The state after a list of labels. -/
def exec (S : System σ α) : σ → List α → Option σ
  | s, [] => some s
  | s, a :: as => (S.step s a).bind (S.exec · as)

/-- Where every label is enabled, a run is a fold. -/
theorem exec_of_total {next : σ → α → σ} (total : ∀ s a, S.step s a = some (next s a))
    (as : List α) (s : σ) : S.exec s as = some (as.foldl next s) := by
  induction as generalizing s with
  | nil => rfl
  | cons a as ih => rw [exec, total, Option.bind_some, ih, List.foldl_cons]

/-- The states reachable by steps that meet `ok`. -/
inductive Reach (S : System σ α) (ok : σ → α → Prop) : σ → Prop where
  | init {s : σ} : S.init s → Reach S ok s
  | step {s s' : σ} {a : α} : Reach S ok s → ok s a → S.step s a = some s' → Reach S ok s'

/-- What holds initially and is kept by every admitted step holds in every
state reached. -/
theorem Reach.invariant {I : σ → Prop} (start : ∀ s, S.init s → I s)
    (keep : ∀ s a s', S.Reach ok s → I s → ok s a → S.step s a = some s' → I s') {s : σ}
    (h : S.Reach ok s) : I s := by
  induction h with
  | init h => exact start _ h
  | step hs hok hstep ih => exact keep _ _ _ hs ih hok hstep

/-- Whether the labels run from `s` and every one of them meets `ok`. -/
def check (S : System σ α) (ok : σ → α → Prop) [∀ s a, Decidable (ok s a)] :
    σ → List α → Bool
  | _, [] => true
  | s, a :: as =>
      match S.step s a with
      | none => false
      | some s' => decide (ok s a) && S.check ok s' as

/-- A checked run ends in a reachable state. -/
theorem Reach.of_check [∀ s a, Decidable (ok s a)] {as : List α} {s s' : σ} (h : S.Reach ok s)
    (hc : S.check ok s as = true) (he : S.exec s as = some s') : S.Reach ok s' := by
  induction as generalizing s with
  | nil =>
      cases he
      exact h
  | cons a as ih =>
      cases hstep : S.step s a with
      | none => simp [check, hstep] at hc
      | some t =>
          simp only [check, hstep, Bool.and_eq_true, decide_eq_true_eq] at hc
          simp only [exec, hstep, Option.bind_some] at he
          exact ih (h.step hc.1 hstep) hc.2 he

/-- A checked run to a state with a given property. -/
theorem Reach.exists_of_check [∀ s a, Decidable (ok s a)] (as : List α) {s : σ} {p : σ → Bool}
    (h : S.Reach ok s) (hc : S.check ok s as = true) (hp : (S.exec s as).any p = true) :
    ∃ s', S.Reach ok s' ∧ p s' = true := by
  cases he : S.exec s as with
  | none => simp [he] at hp
  | some s' =>
      rw [he, Option.any_some] at hp
      exact ⟨s', h.of_check hc he, hp⟩

/-- `Q` holds wherever a label is tried along the labels from `s`.  A label that is
not enabled is tried and ends the run. -/
def Always (S : System σ α) (Q : σ → α → Prop) : σ → List α → Prop
  | _, [] => True
  | s, a :: as => Q s a ∧ ∀ s', S.step s a = some s' → S.Always Q s' as

/-- Two conditions hold all along exactly if either does. -/
theorem always_and {Q Q' : σ → α → Prop} (as : List α) (s : σ) :
    S.Always (fun s a => Q s a ∧ Q' s a) s as ↔ S.Always Q s as ∧ S.Always Q' s as := by
  induction as generalizing s with
  | nil => simp [Always]
  | cons a as ih =>
      simp only [Always, ih]
      constructor
      · rintro ⟨hhere, hrest⟩
        exact ⟨⟨hhere.1, fun s' h => (hrest s' h).1⟩, hhere.2, fun s' h => (hrest s' h).2⟩
      · rintro ⟨⟨hq, hrest⟩, hq', hrest'⟩
        exact ⟨⟨hq, hq'⟩, fun s' h => ⟨hrest s' h, hrest' s' h⟩⟩

/-- A condition that is checked along a run holds all along. -/
theorem always_of_check {Q : σ → α → Prop} [∀ s a, Decidable (Q s a)] (as : List α) {s : σ}
    (h : S.check Q s as = true) : S.Always Q s as := by
  induction as generalizing s with
  | nil => trivial
  | cons a as ih =>
      cases hstep : S.step s a with
      | none => simp [check, hstep] at h
      | some t =>
          simp only [check, hstep, Bool.and_eq_true, decide_eq_true_eq] at h
          refine ⟨h.1, ?_⟩
          intro s' hs'
          cases hstep.symm.trans hs'
          exact ih h.2

/-- Conditions that agree in every reachable state agree along every run. -/
theorem always_congr {Q Q' : σ → α → Prop}
    (h : ∀ s a, S.Reach (fun _ _ => True) s → (Q s a ↔ Q' s a)) (as : List α) {s : σ}
    (hs : S.Reach (fun _ _ => True) s) : S.Always Q s as ↔ S.Always Q' s as := by
  induction as generalizing s with
  | nil => exact Iff.rfl
  | cons a as ih =>
      rw [Always, Always, h s a hs]
      refine and_congr_right fun _ => forall_congr' fun s' => imp_congr_right fun hstep => ?_
      exact ih (hs.step trivial hstep)

section Kept

variable {I P : σ → Prop} {R Q : σ → α → Prop}
  (keep : ∀ s a s', I s → R s a → S.step s a = some s' → I s')
  (back : ∀ s a s', I s → S.step s a = some s' → P s' → P s)

include keep back

/-- A property that a run cannot win back: what it has lost it lacks at the end. -/
theorem of_exec (as : List α) {s t : σ} (hs : I s) (hr : S.Always R s as)
    (h : S.exec s as = some t) (ht : P t) : P s := by
  induction as generalizing s with
  | nil =>
      cases h
      exact ht
  | cons a as ih =>
      obtain ⟨s', hstep, hrun⟩ := Option.bind_eq_some_iff.mp h
      exact back s a s' hs hstep (ih (keep s a s' hs hr.1 hstep) (hr.2 s' hstep) hrun)

/-- If a run cannot win a property back, and single steps keep it exactly where `Q` holds,
then a run keeps it exactly if `Q` holds all along.  It is enough to look at steps that
meet `R`. -/
theorem exec_iff_always
    (single : ∀ s a s', I s → R s a → P s → S.step s a = some s' → (P s' ↔ Q s a))
    (as : List α) {s t : σ} (hs : I s) (hp : P s) (hr : S.Always R s as)
    (h : S.exec s as = some t) : P t ↔ S.Always Q s as := by
  induction as generalizing s with
  | nil =>
      cases h
      exact iff_of_true hp trivial
  | cons a as ih =>
      obtain ⟨s', hstep, hrun⟩ := Option.bind_eq_some_iff.mp h
      have hs' : I s' := keep s a s' hs hr.1 hstep
      have hr' : S.Always R s' as := hr.2 s' hstep
      rw [Always]
      constructor
      · intro ht
        have hp' : P s' := S.of_exec keep back as hs' hr' hrun ht
        refine ⟨(single s a s' hs hr.1 hp hstep).mp hp', ?_⟩
        intro s'' hstep''
        cases hstep.symm.trans hstep''
        exact (ih hs' hp' hr' hrun).mp ht
      · rintro ⟨hq, hrest⟩
        exact (ih hs' ((single s a s' hs hr.1 hp hstep).mpr hq) hr' hrun).mpr (hrest s' hstep)

end Kept

end System

/-! ## Quantities along a run -/

section Trail

variable {σ : Type u} {α : Type v}

/-- Every step of the run from `s` meets `ok`. -/
def Along (next : σ → α → σ) (ok : σ → α → Prop) : σ → List α → Prop
  | _, [] => True
  | s, a :: as => ok s a ∧ Along next ok (next s a) as

/-- A quantity of the states of the run from `s`, the first state included. -/
def trail {β : Type*} (next : σ → α → σ) (f : σ → β) : σ → List α → List β
  | s, [] => [f s]
  | s, a :: as => f s :: trail next f (next s a) as

/-- If single steps that do not decrease `f` are those that meet `ok`, then `f`
never decreases along a run exactly if every step of the run meets `ok`. -/
theorem pairwise_trail_iff {β : Type*} [Preorder β] {next : σ → α → σ} {f : σ → β}
    {ok : σ → α → Prop} (single : ∀ s a, f s ≤ f (next s a) ↔ ok s a) (as : List α) (s : σ) :
    (trail next f s as).Pairwise (· ≤ ·) ↔ Along next ok s as := by
  induction as generalizing s with
  | nil => simp [trail, Along]
  | cons a as ih =>
      rw [trail, List.pairwise_cons, Along, ih, ← single s a]
      constructor
      · rintro ⟨hle, hrun⟩
        refine ⟨hle _ ?_, hrun⟩
        cases as <;> simp [trail]
      · rintro ⟨hle, hrun⟩
        refine ⟨?_, hrun⟩
        intro x hx
        have hmono := (ih _).mpr hrun
        cases as with
        | nil =>
            simp only [trail, List.mem_singleton] at hx
            exact hx ▸ hle
        | cons b bs =>
            simp only [trail, List.mem_cons] at hx
            rw [trail, List.pairwise_cons] at hmono
            rcases hx with rfl | hx
            · exact hle
            · exact hle.trans (hmono.1 x hx)

/-- The states of a run include the first. -/
theorem mem_trail_self (next : σ → α → σ) (s : σ) (as : List α) : s ∈ trail next id s as := by
  cases as <;> simp [trail]

theorem along_append {next : σ → α → σ} {ok : σ → α → Prop} (as bs : List α) (s : σ) :
    Along next ok s (as ++ bs) ↔ Along next ok s as ∧ Along next ok (as.foldl next s) bs := by
  induction as generalizing s with
  | nil => simp [Along]
  | cons a as ih => rw [List.cons_append, Along, Along, ih, List.foldl_cons, and_assoc]

/-- Every step of a run meets a condition where it is taken. -/
theorem along_iff_forall {next : σ → α → σ} {ok : σ → α → Prop} (as : List α) (s : σ) :
    Along next ok s as ↔
      ∀ before a after, as = before ++ a :: after → ok (before.foldl next s) a := by
  constructor
  · rintro h before a after rfl
    exact ((along_append before _ s).mp h).2.1
  · induction as generalizing s with
    | nil => exact fun _ => trivial
    | cons a as ih =>
        intro h
        refine ⟨h [] a as rfl, ih _ fun before b after hsplit => ?_⟩
        exact h (a :: before) b after (congrArg (a :: ·) hsplit)

/-- An invariant holds in every state of a run. -/
theorem forall_trail {next : σ → α → σ} {I : σ → Prop} (keep : ∀ s a, I s → I (next s a))
    (as : List α) {s : σ} (h : I s) : ∀ t ∈ trail next id s as, I t := by
  induction as generalizing s with
  | nil => simp [trail, h]
  | cons a as ih =>
      rw [trail, List.forall_mem_cons]
      exact ⟨h, ih (keep s a h)⟩

/-- Where the steps meet a condition, what they keep under it holds in every state. -/
theorem forall_trail_of_along {next : σ → α → σ} {ok : σ → α → Prop} {I : σ → Prop}
    (keep : ∀ s a, I s → ok s a → I (next s a)) (as : List α) {s : σ} (h : I s)
    (hok : Along next ok s as) : ∀ t ∈ trail next id s as, I t := by
  induction as generalizing s with
  | nil => simp [trail, h]
  | cons a as ih =>
      rw [trail, List.forall_mem_cons]
      exact ⟨h, ih (keep s a h hok.1) hok.2⟩

theorem invariant_foldl {next : σ → α → σ} {I : σ → Prop} (keep : ∀ s a, I s → I (next s a))
    (as : List α) {s : σ} (h : I s) : I (as.foldl next s) := by
  induction as generalizing s with
  | nil => exact h
  | cons a as ih => exact ih (keep s a h)

/-- Conditions that agree where an invariant holds agree along a run. -/
theorem along_congr {next : σ → α → σ} {ok ok' : σ → α → Prop} {I : σ → Prop}
    (keep : ∀ s a, I s → I (next s a)) (same : ∀ s a, I s → (ok s a ↔ ok' s a)) (as : List α)
    {s : σ} (h : I s) : Along next ok s as ↔ Along next ok' s as := by
  induction as generalizing s with
  | nil => exact Iff.rfl
  | cons a as ih => rw [Along, Along, same s a h, ih (keep s a h)]

/-- If the steps that are possible are good exactly where they meet `ok`, and meeting it
keeps the invariant, then a run of possible steps is good throughout exactly if every step
meets `ok`. -/
theorem along_iff {next : σ → α → σ} {possible good ok : σ → α → Prop} {I : σ → Prop}
    (single : ∀ s a, I s → possible s a → (good s a ↔ ok s a))
    (keep : ∀ s a, I s → possible s a → ok s a → I (next s a)) (as : List α) {s : σ} (h : I s)
    (hall : Along next possible s as) : Along next good s as ↔ Along next ok s as := by
  induction as generalizing s with
  | nil => exact Iff.rfl
  | cons a as ih =>
      rw [Along, Along, single s a h hall.1]
      exact and_congr_right fun hok => ih (keep s a h hall.1 hok) hall.2

/-- A property holds throughout a run exactly if it holds at first and after every step. -/
theorem forall_trail_iff_along {next : σ → α → σ} {P : σ → Prop} (as : List α) (s : σ) :
    (∀ t ∈ trail next id s as, P t) ↔ P s ∧ Along next (fun s a => P (next s a)) s as := by
  induction as generalizing s with
  | nil => simp [trail, Along]
  | cons a as ih =>
      rw [trail, List.forall_mem_cons, Along, ih]
      exact Iff.rfl

/-- If an invariant gives a property, and single steps lead to the property again exactly
where they meet `ok`, then the property holds throughout a run exactly if every step of
the run meets `ok`. -/
theorem forall_trail_iff {next : σ → α → σ} {ok : σ → α → Prop} {I P : σ → Prop}
    (holds : ∀ s, I s → P s) (single : ∀ s a, I s → (P (next s a) ↔ ok s a))
    (keep : ∀ s a, I s → ok s a → I (next s a)) (as : List α) {s : σ} (h : I s) :
    (∀ t ∈ trail next id s as, P t) ↔ Along next ok s as := by
  rw [forall_trail_iff_along, and_iff_right (holds s h)]
  induction as generalizing s with
  | nil => exact Iff.rfl
  | cons a as ih =>
      rw [Along, Along, single s a h]
      exact and_congr_right fun hok => ih (keep s a h hok)

end Trail

end CppSwc.Lib
