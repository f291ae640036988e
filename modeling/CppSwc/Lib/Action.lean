import Mathlib.Order.Defs.Unbundled
import Mathlib.Tactic.Common

/-!
# Actions with a state and exceptions

An action `EStateM ε σ α` ends with a value or an exception, and in both cases with
a state.  A member function of an object that throws is one: what it wrote before
the throw stays.

`Moves R m` says that `m` takes every state to one that `R` relates it to, thrown or
not.  For a preorder `R` it is closed under sequencing, so that a function moves
along `R` if the actions it is made of do.  `Throws P m s` says what `m` can throw in the
state `s`.  `bind_eq_ok` and `bind_eq_error` take a sequence apart where more has to be
known.
-/

namespace CppSwc.Lib

universe u

variable {ε σ α β : Type u}

/-- An exception under a condition. -/
def throwIf (p : Prop) [Decidable p] (e : ε) : EStateM ε σ PUnit := if p then throw e else pure ⟨⟩

/-- An action under a condition. -/
def runIf (p : Prop) [Decidable p] (m : EStateM ε σ PUnit) : EStateM ε σ PUnit :=
  if p then m else pure ⟨⟩

/-- The state an action leaves, thrown or not. -/
def after (m : EStateM ε σ α) (s : σ) : σ :=
  match m s with
  | .ok _ s' => s'
  | .error _ s' => s'

/-- The value or exception an action ends with. -/
def outcome (m : EStateM ε σ α) (s : σ) : Except ε α :=
  match m s with
  | .ok a _ => .ok a
  | .error e _ => .error e

theorem after_of_ok {m : EStateM ε σ α} {s s' : σ} {a : α} (h : m s = .ok a s') :
    after m s = s' := by
  simp [after, h]

theorem after_of_error {m : EStateM ε σ α} {s s' : σ} {e : ε} (h : m s = .error e s') :
    after m s = s' := by
  simp [after, h]

theorem eq_ok_of_outcome {m : EStateM ε σ α} {s : σ} {a : α}
    (h : (outcome m s).toOption = some a) : m s = .ok a (after m s) := by
  unfold outcome at h
  unfold after
  cases hm : m s with
  | ok b t =>
      rw [hm] at h
      cases h
      rfl
  | error e t =>
      rw [hm] at h
      cases h

theorem eq_error_of_outcome {m : EStateM ε σ α} {s : σ} {P : ε → Bool}
    (h : (match outcome m s with | .ok _ => false | .error e => P e) = true) :
    ∃ e, m s = .error e (after m s) ∧ P e = true := by
  unfold outcome at h
  unfold after
  cases hm : m s with
  | ok a t =>
      rw [hm] at h
      cases h
  | error e t =>
      rw [hm] at h
      exact ⟨e, rfl, h⟩

/-- A sequence that ends well is two actions that do. -/
theorem bind_eq_ok {m : EStateM ε σ α} {f : α → EStateM ε σ β} {s s' : σ} {b : β} :
    (m >>= f) s = .ok b s' ↔ ∃ a t, m s = .ok a t ∧ f a t = .ok b s' := by
  show EStateM.bind m f s = .ok b s' ↔ _
  cases h : m s with
  | ok a t => simp [EStateM.bind, h]
  | error e t => simp [EStateM.bind, h]

/-- A sequence that throws does so in one of its actions. -/
theorem bind_eq_error {m : EStateM ε σ α} {f : α → EStateM ε σ β} {s s' : σ} {e : ε} :
    (m >>= f) s = .error e s' ↔
      m s = .error e s' ∨ ∃ a t, m s = .ok a t ∧ f a t = .error e s' := by
  show EStateM.bind m f s = .error e s' ↔ _
  cases h : m s with
  | ok a t => simp [EStateM.bind, h]
  | error e' t => simp [EStateM.bind, h]

theorem bind_of_ok {m : EStateM ε σ α} {f : α → EStateM ε σ β} {s t : σ} {a : α}
    (h : m s = .ok a t) : (m >>= f) s = f a t := by
  show EStateM.bind m f s = _
  simp [EStateM.bind, h]

theorem bind_of_error {m : EStateM ε σ α} {f : α → EStateM ε σ β} {s t : σ} {e : ε}
    (h : m s = .error e t) : (m >>= f) s = .error e t := by
  show EStateM.bind m f s = _
  simp [EStateM.bind, h]

/-- What a sequence leaves is what its second action leaves, if the first one ends
well. -/
theorem after_bind_of_ok {m : EStateM ε σ α} {f : α → EStateM ε σ β} {s t : σ} {a : α}
    (h : m s = .ok a t) : after (m >>= f) s = after (f a) t := by
  show after (EStateM.bind m f) s = _
  simp [after, EStateM.bind, h]

theorem after_bind_of_error {m : EStateM ε σ α} {f : α → EStateM ε σ β} {s t : σ} {e : ε}
    (h : m s = .error e t) : after (m >>= f) s = t := by
  show after (EStateM.bind m f) s = _
  simp [after, EStateM.bind, h]

/-- What a sequence leaves has a property if it does after an exception of the first
action and after the second one. -/
theorem after_bind {m : EStateM ε σ α} {f : α → EStateM ε σ β} {s : σ} {P : σ → Prop}
    (herror : ∀ e t, m s = .error e t → P t) (hok : ∀ a t, m s = .ok a t → P (after (f a) t)) :
    P (after (m >>= f) s) := by
  cases h : m s with
  | ok a t =>
      rw [after_bind_of_ok h]
      exact hok a t h
  | error e t =>
      rw [after_bind_of_error h]
      exact herror e t h

/-- A function of what an action gives. -/
theorem outcome_bind_pure {m : EStateM ε σ α} {f : α → β} {s : σ} :
    outcome (m >>= fun a => pure (f a)) s = (outcome m s).map f := by
  show outcome (EStateM.bind m fun a => pure (f a)) s = _
  cases h : m s with
  | ok a t =>
      simp only [outcome, EStateM.bind, h]
      rfl
  | error e t =>
      simp only [outcome, EStateM.bind, h]
      rfl

/-- A sequence of results that may be exceptions. -/
theorem except_bind_eq_ok {x : Except ε α} {f : α → Except ε β} {b : β} :
    (x >>= f) = .ok b ↔ ∃ a, x = .ok a ∧ f a = .ok b := by
  cases x with
  | ok a => exact ⟨fun h => ⟨a, rfl, h⟩, fun ⟨_, h, h'⟩ => Except.ok.inj h ▸ h'⟩
  | error e => exact ⟨fun h => (by cases h), fun ⟨_, h, _⟩ => (by cases h)⟩

/-! ## Sequences that start with a single action -/

theorem get_bind {f : σ → EStateM ε σ β} {s : σ} : (get >>= f) s = f s s := rfl

theorem modify_bind {g : σ → σ} {f : PUnit → EStateM ε σ β} {s : σ} :
    (modify g >>= f) s = f ⟨⟩ (g s) := rfl

theorem modify_eq_ok {f : σ → σ} {s t : σ} {u : PUnit} :
    (modify f : EStateM ε σ PUnit) s = .ok u t ↔ t = f s := by
  show EStateM.Result.ok PUnit.unit (f s) = .ok u t ↔ _
  simp [eq_comm]

theorem pure_eq_ok {s t : σ} {a b : α} :
    (pure a : EStateM ε σ α) s = .ok b t ↔ b = a ∧ t = s := by
  show EStateM.Result.ok a s = .ok b t ↔ _
  simp [eq_comm]

theorem throwIf_eq_ok {p : Prop} [Decidable p] {e : ε} {s t : σ} {u : PUnit} :
    throwIf p e s = .ok u t ↔ ¬p ∧ t = s := by
  by_cases hp : p
  · simp only [throwIf, hp, if_true, not_true, false_and, iff_false]
    show ¬EStateM.Result.error e s = .ok u t
    simp
  · simp [throwIf, hp, pure_eq_ok]

theorem throwIf_of {p : Prop} [Decidable p] {e : ε} {s : σ} (hp : p) :
    throwIf p e s = .error e s := by
  rw [throwIf, if_pos hp]
  rfl

theorem throwIf_of_not {p : Prop} [Decidable p] {e : ε} {s : σ} (hp : ¬p) :
    throwIf p e s = .ok ⟨⟩ s := throwIf_eq_ok.mpr ⟨hp, rfl⟩

theorem throwIf_bind_eq_ok {p : Prop} [Decidable p] {e : ε} {f : PUnit → EStateM ε σ β} {s t : σ}
    {b : β} : (throwIf p e >>= f) s = .ok b t ↔ ¬p ∧ f ⟨⟩ s = .ok b t := by
  rw [bind_eq_ok]
  simp only [throwIf_eq_ok]
  constructor
  · rintro ⟨_, _, ⟨hp, rfl⟩, h⟩
    exact ⟨hp, h⟩
  · rintro ⟨hp, h⟩
    exact ⟨⟨⟩, s, ⟨hp, rfl⟩, h⟩

theorem runIf_eq_ok {p : Prop} [Decidable p] {m : EStateM ε σ PUnit} {s t : σ} {u : PUnit} :
    runIf p m s = .ok u t ↔ p ∧ m s = .ok u t ∨ ¬p ∧ t = s := by
  by_cases hp : p
  · simp [runIf, hp]
  · simp [runIf, hp, pure_eq_ok]

/-! ## The state that is left -/

@[simp] theorem after_pure (a : α) (s : σ) : after (pure a : EStateM ε σ α) s = s := rfl

@[simp] theorem after_throw (e : ε) (s : σ) : after (throw e : EStateM ε σ α) s = s := rfl

@[simp] theorem after_modify (f : σ → σ) (s : σ) :
    after (modify f : EStateM ε σ PUnit) s = f s := rfl

@[simp] theorem after_get_bind (f : σ → EStateM ε σ β) (s : σ) :
    after (get >>= f) s = after (f s) s := rfl

@[simp] theorem after_modify_bind (g : σ → σ) (f : PUnit → EStateM ε σ β) (s : σ) :
    after (modify g >>= f) s = after (f ⟨⟩) (g s) := rfl

@[simp] theorem after_throwIf_bind (p : Prop) [Decidable p] (e : ε) (f : PUnit → EStateM ε σ β)
    (s : σ) : after (throwIf p e >>= f) s = if p then s else after (f ⟨⟩) s := by
  by_cases hp : p
  · rw [if_pos hp, throwIf, if_pos hp]
    rfl
  · rw [if_neg hp, throwIf, if_neg hp]
    rfl

/-! ## Relations along an action -/

/-- The action takes every state along `R`. -/
def Moves (R : σ → σ → Prop) (m : EStateM ε σ α) : Prop := ∀ s, R s (after m s)

namespace Moves

variable {R : σ → σ → Prop}

theorem mono {Q : σ → σ → Prop} {m : EStateM ε σ α} (h : Moves Q m) (hle : ∀ s t, Q s t → R s t) :
    Moves R m := fun s => hle _ _ (h s)

/-- A change of the state. -/
theorem modify {f : σ → σ} (h : ∀ s, R s (f s)) :
    Moves R (modify f : EStateM ε σ PUnit) := h

section Preorder

variable [Std.Refl R]

theorem pure (a : α) : Moves R (pure a : EStateM ε σ α) := refl_of R

theorem throw (e : ε) : Moves R (throw e : EStateM ε σ α) := refl_of R

theorem get : Moves R (get : EStateM ε σ σ) := refl_of R

theorem throwIf (p : Prop) [Decidable p] (e : ε) : Moves R (throwIf p e : EStateM ε σ PUnit) := by
  intro s
  by_cases hp : p
  · rw [Lib.throwIf, if_pos hp]
    exact throw e s
  · rw [Lib.throwIf, if_neg hp]
    exact pure _ s

theorem runIf {p : Prop} [Decidable p] {m : EStateM ε σ PUnit} (hm : Moves R m) :
    Moves R (runIf p m) := by
  intro s
  by_cases hp : p
  · rw [Lib.runIf, if_pos hp]
    exact hm s
  · rw [Lib.runIf, if_neg hp]
    exact pure _ s

variable [IsTrans σ R]

omit [Std.Refl R] in
theorem bind {m : EStateM ε σ α} {f : α → EStateM ε σ β} (hm : Moves R m)
    (hf : ∀ a, Moves R (f a)) : Moves R (m >>= f) := by
  intro s
  have hfirst := hm s
  cases h : m s with
  | ok a t =>
      rw [after_of_ok h] at hfirst
      rw [after_bind_of_ok h]
      exact trans_of R hfirst (hf a t)
  | error e t =>
      rw [after_of_error h] at hfirst
      rw [after_bind_of_error h]
      exact hfirst

/-- An action for each item of a list. -/
theorem forM {β : Type} {l : List β} {f : β → EStateM ε σ PUnit} (hf : ∀ x, Moves R (f x)) :
    Moves R (l.forM f) := by
  induction l with
  | nil => exact pure _
  | cons x l ih => exact bind (hf x) fun _ => ih

end Preorder

/-- A sequence whose first action moves along a relation that `Q` absorbs. -/
theorem before {Q : σ → σ → Prop} {m : EStateM ε σ α} {f : α → EStateM ε σ β} (hm : Moves R m)
    (habsorbs : ∀ s t r, R s t → Q t r → Q s r) (hrefl : ∀ s, Q s s) (hf : ∀ a, Moves Q (f a)) :
    Moves Q (m >>= f) := by
  intro s
  have hfirst := hm s
  refine after_bind (fun e t h => ?_) fun a t h => ?_
  · rw [after_of_error h] at hfirst
    exact habsorbs _ _ _ hfirst (hrefl t)
  · rw [after_of_ok h] at hfirst
    exact habsorbs _ _ _ hfirst (hf a t)

theorem ite {p : Prop} [Decidable p] {m m' : EStateM ε σ α} (hm : Moves R m) (hm' : Moves R m') :
    Moves R (if p then m else m') := by
  split
  · exact hm
  · exact hm'

end Moves

/-! ## Actions that end well -/

/-- The action takes every state along `R` if it ends well. -/
def Ends (R : σ → σ → Prop) (m : EStateM ε σ α) : Prop := ∀ ⦃s : σ⦄ ⦃a : α⦄ ⦃t : σ⦄, m s = .ok a t → R s t

theorem Moves.ends {R : σ → σ → Prop} {m : EStateM ε σ α} (h : Moves R m) : Ends R m := by
  intro s a t ht
  have hmoves := h s
  rwa [after_of_ok ht] at hmoves

namespace Ends

variable {R : σ → σ → Prop}

theorem bind [IsTrans σ R] {m : EStateM ε σ α} {f : α → EStateM ε σ β} (hm : Ends R m)
    (hf : ∀ a, Ends R (f a)) : Ends R (m >>= f) := by
  intro s b r h
  obtain ⟨a, t, hfirst, hsecond⟩ := bind_eq_ok.mp h
  exact trans_of R (hm hfirst) (hf a hsecond)

theorem runIf [Std.Refl R] {p : Prop} [Decidable p] {m : EStateM ε σ PUnit} (hm : Ends R m) :
    Ends R (runIf p m) := by
  intro s u t h
  rcases runIf_eq_ok.mp h with ⟨-, h⟩ | ⟨-, rfl⟩
  · exact hm h
  · exact refl_of R _

theorem ite {p : Prop} [Decidable p] {m m' : EStateM ε σ α} (hm : Ends R m) (hm' : Ends R m') :
    Ends R (if p then m else m') := by
  split
  · exact hm
  · exact hm'

end Ends

/-! ## What is thrown -/

/-- What the action throws in the state has the property. -/
def Throws (P : ε → Prop) (m : EStateM ε σ α) (s : σ) : Prop := ∀ e t, m s = .error e t → P e

namespace Throws

variable {P Q : ε → Prop} {s : σ}

theorem mono {m : EStateM ε σ α} (h : Throws P m s) (hle : ∀ e, P e → Q e) : Throws Q m s :=
  fun e t ht => hle e (h e t ht)

theorem get_bind {f : σ → EStateM ε σ β} (h : Throws P (f s) s) : Throws P (get >>= f) s := h

theorem modify_bind {g : σ → σ} {f : PUnit → EStateM ε σ β} (h : Throws P (f ⟨⟩) (g s)) :
    Throws P (modify g >>= f) s := h

theorem pure (a : α) : Throws P (pure a : EStateM ε σ α) s := fun _ _ h => by cases h

theorem get : Throws P (get : EStateM ε σ σ) s := fun _ _ h => by cases h

theorem modify (f : σ → σ) : Throws P (modify f : EStateM ε σ PUnit) s := fun _ _ h => by cases h

theorem of_ok {m : EStateM ε σ α} {a : α} {t : σ} (h : m s = .ok a t) : Throws P m s :=
  fun _ _ herror => by cases h.symm.trans herror

theorem of_outcome {m : EStateM ε σ α} {a : α} (h : outcome m s = .ok a) : Throws P m s :=
  of_ok (eq_ok_of_outcome (congrArg Except.toOption h))

theorem throw {e : ε} (he : P e) : Throws P (throw e : EStateM ε σ α) s := by
  rintro _ _ ⟨⟩
  exact he

theorem throwIf {p : Prop} [Decidable p] {e : ε} (he : p → P e) :
    Throws P (throwIf p e : EStateM ε σ PUnit) s := by
  by_cases hp : p
  · rw [Lib.throwIf, if_pos hp]
    exact throw (he hp)
  · rw [Lib.throwIf, if_neg hp]
    exact pure _

theorem runIf {p : Prop} [Decidable p] {m : EStateM ε σ PUnit} (hm : p → Throws P m s) :
    Throws P (runIf p m) s := by
  by_cases hp : p
  · rw [Lib.runIf, if_pos hp]
    exact hm hp
  · rw [Lib.runIf, if_neg hp]
    exact pure _

theorem ite {p : Prop} [Decidable p] {m m' : EStateM ε σ α} (hm : p → Throws P m s)
    (hm' : ¬p → Throws P m' s) : Throws P (if p then m else m') s := by
  split
  · next hp => exact hm hp
  · next hp => exact hm' hp

/-- A sequence throws what its first action throws, and its second one where the first one
ends well. -/
theorem bind {m : EStateM ε σ α} {f : α → EStateM ε σ β} (hm : Throws P m s)
    (hf : ∀ a t, m s = .ok a t → Throws P (f a) t) : Throws P (m >>= f) s := by
  intro e t h
  rcases bind_eq_error.mp h with h | ⟨a, r, hok, h⟩
  · exact hm e t h
  · exact hf a r hok e t h

/-- An action for each item of a list, where an invariant says what each of them throws. -/
theorem forM {β : Type} {l : List β} {f : β → EStateM ε σ PUnit} {I : σ → Prop} (hs : I s)
    (hf : ∀ x t, I t → Throws P (f x) t) (hkeeps : ∀ x t t' u, I t → f x t = .ok u t' → I t') :
    Throws P (l.forM f) s := by
  induction l generalizing s with
  | nil => exact pure _
  | cons x l ih => exact bind (hf x s hs) fun u t ht => ih (hkeeps x s t u hs ht)

end Throws

end CppSwc.Lib
