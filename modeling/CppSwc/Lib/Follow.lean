import Mathlib.Tactic.Common

/-!
# One function on two kinds of state

The same function may be run on states of two kinds, as when a counter of fixed width stands for
a number.  `Follows` says that the second run does what the first does as long as the states are
alike.  States of the first kind may be spoiled instead; they stay so, and nothing is said of the
second run then.

There is a rule for each way to put functions together.
-/

namespace CppSwc.Lib

universe u v w

variable {σ : Type u} {τ : Type v} {α β γ : Type w}

/-- What a function does on the first kind of state, another one does on the second. -/
structure Follows (Like : σ → τ → Prop) (Spoiled : σ → Prop) (f : σ → Option (α × σ))
    (f' : τ → Option (α × τ)) : Prop where
  spoiled : ∀ {s a s'}, Spoiled s → f s = some (a, s') → Spoiled s'
  like : ∀ {s t a s'}, Like s t → f s = some (a, s') →
    Spoiled s' ∨ ∃ t', f' t = some (a, t') ∧ Like s' t'

namespace Follows

variable {Like : σ → τ → Prop} {Spoiled : σ → Prop} {f g : σ → Option (α × σ)}
  {f' g' : τ → Option (α × τ)}

/-- A function that throws. -/
theorem fail : Follows Like Spoiled (fun _ => (none : Option (α × σ))) fun _ => none where
  spoiled _ hrun := by cases hrun
  like _ hrun := by cases hrun

/-- A change of the state. -/
theorem change {c : σ → σ} {c' : τ → τ} (a : α) (hspoiled : ∀ s, Spoiled s → Spoiled (c s))
    (hlike : ∀ s t, Like s t → Spoiled (c s) ∨ Like (c s) (c' t)) :
    Follows Like Spoiled (fun s => some (a, c s)) fun t => some (a, c' t) where
  spoiled hs hrun := by
    cases hrun
    exact hspoiled _ hs
  like hst hrun := by
    cases hrun
    exact (hlike _ _ hst).imp_right fun h => ⟨_, rfl, h⟩

/-- A value. -/
theorem pure (a : α) : Follows Like Spoiled (fun s => some (a, s)) fun t => some (a, t) where
  spoiled hs hrun := by
    cases hrun
    exact hs
  like hst hrun := by
    cases hrun
    exact .inr ⟨_, rfl, hst⟩

/-- One function after another. -/
theorem bind {k : α × σ → Option (β × σ)} {k' : α × τ → Option (β × τ)}
    (hf : Follows Like Spoiled f f')
    (hk : ∀ a, Follows Like Spoiled (fun s => k (a, s)) fun t => k' (a, t)) :
    Follows Like Spoiled (fun s => (f s).bind k) fun t => (f' t).bind k' where
  spoiled hs hrun := by
    obtain ⟨⟨a, s₁⟩, hfirst, hrest⟩ := Option.bind_eq_some_iff.mp hrun
    exact (hk a).spoiled (hf.spoiled hs hfirst) hrest
  like hst hrun := by
    obtain ⟨⟨a, s₁⟩, hfirst, hrest⟩ := Option.bind_eq_some_iff.mp hrun
    rcases hf.like hst hfirst with hs₁ | ⟨t₁, hfirst', hst₁⟩
    · exact .inl ((hk a).spoiled hs₁ hrest)
    · refine ((hk a).like hst₁ hrest).imp_right ?_
      rintro ⟨t', hrest', hst'⟩
      exact ⟨t', by rw [hfirst', Option.bind_some, hrest'], hst'⟩

/-- What is read in alike states is the same. -/
theorem read {r : σ → γ} {r' : τ → γ} {k : γ → σ → Option (α × σ)} {k' : γ → τ → Option (α × τ)}
    (hr : ∀ s t, Like s t → r s = r' t) (hk : ∀ c, Follows Like Spoiled (k c) (k' c)) :
    Follows Like Spoiled (fun s => k (r s) s) fun t => k' (r' t) t where
  spoiled hs hrun := (hk _).spoiled hs hrun
  like hst hrun := by
    rw [← hr _ _ hst]
    exact (hk _).like hst hrun

/-- A condition. -/
theorem ite {p : Prop} [Decidable p] (hf : p → Follows Like Spoiled f f')
    (hg : ¬p → Follows Like Spoiled g g') :
    Follows Like Spoiled (fun s => if p then f s else g s) fun t => if p then f' t else g' t := by
  by_cases hp : p
  · simp only [if_pos hp]
    exact hf hp
  · simp only [if_neg hp]
    exact hg hp

/-- A value made of another one. -/
theorem map (hf : Follows Like Spoiled f f') (m : α → β) :
    Follows Like Spoiled (fun s => (f s).map fun p => (m p.1, p.2))
      fun t => (f' t).map fun p => (m p.1, p.2) where
  spoiled hs hrun := by
    obtain ⟨⟨a, s₁⟩, hfirst, heq⟩ := Option.map_eq_some_iff.mp hrun
    cases heq
    exact hf.spoiled hs hfirst
  like hst hrun := by
    obtain ⟨⟨a, s₁⟩, hfirst, heq⟩ := Option.map_eq_some_iff.mp hrun
    cases heq
    refine (hf.like hst hfirst).imp_right ?_
    rintro ⟨t₁, hfirst', hst₁⟩
    exact ⟨t₁, by rw [hfirst', Option.map_some], hst₁⟩

end Follows

end CppSwc.Lib
