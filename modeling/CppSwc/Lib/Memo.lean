import Mathlib.Algebra.Notation.Defs
import Mathlib.Tactic.Common

/-!
# Memos

A memo for a value that can be recomputed, or cannot, when recomputing it throws.  Zero means
that nothing is memoised.  `Fresh` says that a read gives what is recomputed.
-/

namespace CppSwc.Lib.Memo

universe u

variable {β : Type u} [Zero β] {memo : β} {value value' : Option β}

/-- The memo holds nothing or the value. -/
def Fresh (memo : β) (value : Option β) : Prop := memo = 0 ∨ value = some memo

theorem fresh_zero (value : Option β) : Fresh 0 value := .inl rfl

/-- A memo that is left when its value changes. -/
theorem Fresh.change_iff (h : Fresh memo value) :
    Fresh memo value' ↔ memo = 0 ∨ value' = value := by
  rcases h with h0 | hvalue
  · exact iff_of_true (.inl h0) (.inl h0)
  · rw [Fresh, hvalue]

variable [DecidableEq β]

/-- What a read gives. -/
def read (memo : β) (value : Option β) : Option β := if memo = 0 then value else some memo

/-- The memo after a read. -/
def fill (memo : β) (value : Option β) : β := (read memo value).getD memo

theorem read_eq_iff : read memo value = value ↔ Fresh memo value := by
  rw [read, Fresh]
  split
  · next h0 => exact iff_of_true rfl (.inl h0)
  · next h0 => rw [or_iff_right h0, eq_comm]

/-- A read keeps a memo fresh. -/
theorem Fresh.fill (h : Fresh memo value) : Fresh (fill memo value) value := by
  rw [Memo.fill, read_eq_iff.mpr h]
  cases value with
  | none => exact h
  | some v => exact .inr rfl

end CppSwc.Lib.Memo
