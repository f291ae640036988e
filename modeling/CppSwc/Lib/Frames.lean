import Mathlib.Algebra.BigOperators.Group.List.Basic
import Mathlib.Tactic.Common

/-!
# Frames inside frames

A frame has effects of its own and enters other frames, and in the end it succeeds or fails.
`told` lists all effects in their order, each with the endings of the frames that it is in,
and the effects that survive are those for which all of these frames have succeeded.

`kept` finds them from the inside: a frame hands on what it has kept if it succeeds, and
nothing if it fails.  What is accrued that way in a monoid is the sum over the survivors.
-/

namespace CppSwc.Lib

universe u v

/-- What is done in a frame. -/
inductive Deed (ε : Type u) where
  | own (effect : ε)
  | frame (succeeded : Bool) (deeds : List (Deed ε))

variable {ε : Type u}

mutual

/-- The effects of a deed, each with the endings of its frames. -/
def Deed.told (around : List Bool) : Deed ε → List (List Bool × ε)
  | .own effect => [(around, effect)]
  | .frame succeeded deeds => told (succeeded :: around) deeds

/-- The effects of deeds, each with the endings of its frames, the innermost first. -/
def told (around : List Bool) : List (Deed ε) → List (List Bool × ε)
  | [] => []
  | deed :: deeds => deed.told around ++ told around deeds

end

/-- The effects all of whose frames have succeeded, in their order. -/
def survivors (deeds : List (Deed ε)) : List ε :=
  ((told [] deeds).filter fun x => x.1.all id).map Prod.snd

mutual

/-- What a deed hands on. -/
def Deed.kept : Deed ε → List ε
  | .own effect => [effect]
  | .frame succeeded deeds => if succeeded then kept deeds else []

/-- What deeds hand on. -/
def kept : List (Deed ε) → List ε
  | [] => []
  | deed :: deeds => deed.kept ++ kept deeds

end

@[simp] theorem kept_nil : kept ([] : List (Deed ε)) = [] := rfl

@[simp] theorem kept_own (effect : ε) : kept [.own effect] = [effect] := rfl

@[simp] theorem kept_frame (succeeded : Bool) (deeds : List (Deed ε)) :
    kept [.frame succeeded deeds] = if succeeded then kept deeds else [] := by
  rw [kept, Deed.kept, kept, List.append_nil]

@[simp] theorem kept_append (deeds deeds' : List (Deed ε)) :
    kept (deeds ++ deeds') = kept deeds ++ kept deeds' := by
  induction deeds with
  | nil => rfl
  | cons deed deeds ih => rw [List.cons_append, kept, kept, ih, List.append_assoc]

mutual

theorem Deed.filter_told (around : List Bool) (deed : Deed ε) :
    ((deed.told around).filter fun x => x.1.all id).map Prod.snd =
      if around.all id then deed.kept else [] := by
  cases deed with
  | own effect =>
      rw [Deed.told, Deed.kept]
      cases h : around.all id with
      | true => simp [h]
      | false => simp [h]
  | frame succeeded deeds =>
      rw [Deed.told, Deed.kept, filter_told (succeeded :: around) deeds, List.all_cons]
      cases succeeded with
      | true => rfl
      | false => simp

/-- What survives of deeds in frames with the given endings. -/
theorem filter_told (around : List Bool) (deeds : List (Deed ε)) :
    ((told around deeds).filter fun x => x.1.all id).map Prod.snd =
      if around.all id then kept deeds else [] := by
  cases deeds with
  | nil => simp [told]
  | cons deed deeds =>
      rw [told, kept, List.filter_append, List.map_append, Deed.filter_told around deed,
        filter_told around deeds]
      cases around.all id with
      | true => rfl
      | false => rfl

end

/-- **What frames hand on are the survivors.** -/
theorem kept_eq_survivors (deeds : List (Deed ε)) : kept deeds = survivors deeds :=
  (filter_told [] deeds).symm

/-! ## Accruing in a monoid -/

section Accrued

variable {A : Type v} [AddMonoid A] (f : ε → A)

/-- The sum of what deeds hand on. -/
def accrued (deeds : List (Deed ε)) : A := ((kept deeds).map f).sum

@[simp] theorem accrued_nil : accrued f ([] : List (Deed ε)) = 0 := rfl

@[simp] theorem accrued_own (effect : ε) : accrued f [.own effect] = f effect := by
  simp [accrued]

theorem accrued_frame (succeeded : Bool) (deeds : List (Deed ε)) :
    accrued f [.frame succeeded deeds] = if succeeded then accrued f deeds else 0 := by
  cases succeeded with
  | true => simp [accrued]
  | false => simp [accrued]

theorem accrued_append (deeds deeds' : List (Deed ε)) :
    accrued f (deeds ++ deeds') = accrued f deeds + accrued f deeds' := by
  simp [accrued]

end Accrued

end CppSwc.Lib
