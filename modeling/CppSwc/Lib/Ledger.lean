import Mathlib.Algebra.BigOperators.Group.Finset.Piecewise
import Mathlib.Algebra.Order.BigOperators.Group.Finset
import Mathlib.Data.Fintype.BigOperators
import Mathlib.Tactic.Common

/-!
# Ledgers

A ledger gives every holder a balance of `k` bits.  As long as the balances add up to less
than `2 ^ k` no single one can overflow, so that a credit which keeps the sum below that
bound is an addition of naturals, and a debit that is covered is a subtraction.
-/

namespace CppSwc.Lib

universe u

/-- There are finitely many words. -/
instance fintypeBitVec (k : ℕ) : Fintype (BitVec k) :=
  Fintype.ofEquiv (Fin (2 ^ k)) ⟨BitVec.ofFin, BitVec.toFin, fun _ => rfl, fun _ => rfl⟩

namespace Ledger

variable {α : Type u} [Fintype α] {k : ℕ}

/-- The sum of the balances. -/
def total (b : α → BitVec k) : ℕ := ∑ a, (b a).toNat

theorem le_total (b : α → BitVec k) (a : α) : (b a).toNat ≤ total b :=
  Finset.single_le_sum (f := fun a => (b a).toNat) (fun _ _ => Nat.zero_le _) (Finset.mem_univ a)

variable [DecidableEq α]

/-- The balance of `a` grows by `x`. -/
def credit (b : α → BitVec k) (a : α) (x : BitVec k) : α → BitVec k :=
  Function.update b a (b a + x)

/-- The balance of `a` shrinks by `x`. -/
def debit (b : α → BitVec k) (a : α) (x : BitVec k) : α → BitVec k :=
  Function.update b a (b a - x)

/-- A new balance of one holder. -/
theorem total_update (b : α → BitVec k) (a : α) (x : BitVec k) :
    total (Function.update b a x) + (b a).toNat = total b + x.toNat := by
  have hnew : (fun c => (Function.update b a x c).toNat) =
      Function.update (fun c => (b c).toNat) a x.toNat := by
    funext c
    by_cases hc : c = a
    · subst hc
      simp
    · simp [hc]
  have hsum := Finset.sum_update_of_mem (Finset.mem_univ a) (fun c => (b c).toNat) x.toNat
  have hold := Finset.sum_eq_add_sum_sdiff_singleton_of_mem (Finset.mem_univ a) fun c => (b c).toNat
  unfold total
  rw [hnew, hsum]
  omega

/-- A credit that does not wrap. -/
theorem total_credit_of_lt {b : α → BitVec k} {a : α} {x : BitVec k}
    (h : (b a).toNat + x.toNat < 2 ^ k) :
    (b a + x).toNat = (b a).toNat + x.toNat ∧ total (credit b a x) = total b + x.toNat := by
  have hadd : (b a + x).toNat = (b a).toNat + x.toNat := by
    rw [BitVec.toNat_add]
    exact Nat.mod_eq_of_lt h
  have hupdate := total_update b a (b a + x)
  rw [← credit] at hupdate
  exact ⟨hadd, by omega⟩

/-- A credit that keeps the sum below the bound. -/
theorem total_credit {b : α → BitVec k} {a : α} {x : BitVec k}
    (h : total b + x.toNat < 2 ^ k) :
    (b a + x).toNat = (b a).toNat + x.toNat ∧ total (credit b a x) = total b + x.toNat :=
  total_credit_of_lt ((Nat.add_le_add_right (le_total b a) _).trans_lt h)

/-- A debit that is covered. -/
theorem total_debit {b : α → BitVec k} {a : α} {x : BitVec k} (h : x ≤ b a) :
    (b a - x).toNat = (b a).toNat - x.toNat ∧
      total (debit b a x) + x.toNat = total b := by
  have hsub : (b a - x).toNat = (b a).toNat - x.toNat := BitVec.toNat_sub_of_le h
  have hupdate := total_update b a (b a - x)
  have hle : x.toNat ≤ (b a).toNat := h
  exact ⟨hsub, by rw [debit]; omega⟩

end Ledger

end CppSwc.Lib
