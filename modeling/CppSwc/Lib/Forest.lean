import Mathlib.Logic.Function.Iterate
import Mathlib.Tactic.Common

/-!
# Ancestors

Nodes with parents and heights, where the known nodes are closed under parents and have
one root.  `ancestor x n` is the ancestor of `x` at height `n`.  `LastCommon x y k` says
that `k` is the height at which the chains of `x` and `y` part.
-/

namespace CppSwc.Lib

universe u

variable {α : Type u}

/-- The known nodes form a tree: a parent is one step lower, and only the root has
height zero. -/
structure Rooted (known : α → Prop) (parent : α → α) (height : α → ℕ) (root : α) : Prop where
  root_known : known root
  root_height : height root = 0
  eq_root : ∀ x, known x → height x = 0 → x = root
  up : ∀ x, known x → height x ≠ 0 → known (parent x) ∧ height x = height (parent x) + 1

/-- The ancestor of `x` at height `n`. -/
def ancestor (parent : α → α) (height : α → ℕ) (x : α) (n : ℕ) : α := parent^[height x - n] x

@[simp] theorem ancestor_self (parent : α → α) (height : α → ℕ) (x : α) :
    ancestor parent height x (height x) = x := by
  simp [ancestor]

/-- The chains of `x` and `y` agree at height `k` and at no height above it. -/
structure LastCommon (parent : α → α) (height : α → ℕ) (x y : α) (k : ℕ) : Prop where
  le_left : k ≤ height x
  le_right : k ≤ height y
  common : ancestor parent height x k = ancestor parent height y k
  last : ∀ j, k < j → j ≤ height x → j ≤ height y →
    ancestor parent height x j ≠ ancestor parent height y j

theorem LastCommon.unique {parent : α → α} {height : α → ℕ} {x y : α} {k k' : ℕ}
    (h : LastCommon parent height x y k) (h' : LastCommon parent height x y k') : k = k' := by
  rcases Nat.lt_trichotomy k k' with hlt | heq | hlt
  · exact absurd h'.common (h.last k' hlt h'.le_left h'.le_right)
  · exact heq
  · exact absurd h.common (h'.last k hlt h.le_left h.le_right)

namespace Rooted

variable {known : α → Prop} {parent parent' : α → α} {height height' : α → ℕ} {root x y : α}
  {m n k : ℕ}

/-- What climbing `k` steps reaches. -/
theorem iterate (r : Rooted known parent height root) (hx : known x) (hk : k ≤ height x) :
    known (parent^[k] x) ∧ height (parent^[k] x) + k = height x := by
  induction k with
  | zero => exact ⟨hx, rfl⟩
  | succ k ih =>
      obtain ⟨hknown, hheight⟩ := ih (by omega)
      obtain ⟨hp, hup⟩ := r.up _ hknown (by omega)
      rw [Function.iterate_succ_apply']
      exact ⟨hp, by omega⟩

theorem known_ancestor (r : Rooted known parent height root) (hx : known x) :
    known (ancestor parent height x n) :=
  (r.iterate hx (Nat.sub_le _ _)).1

theorem height_ancestor (r : Rooted known parent height root) (hx : known x)
    (hn : n ≤ height x) : height (ancestor parent height x n) = n := by
  have := (r.iterate hx (Nat.sub_le (height x) n)).2
  rw [ancestor]
  omega

/-- Every chain ends in the root. -/
theorem ancestor_zero (r : Rooted known parent height root) (hx : known x) :
    ancestor parent height x 0 = root :=
  r.eq_root _ (r.known_ancestor hx) (r.height_ancestor hx (Nat.zero_le _))

/-- The ancestors of an ancestor. -/
theorem ancestor_ancestor (r : Rooted known parent height root) (hx : known x) (hmn : m ≤ n)
    (hn : n ≤ height x) :
    ancestor parent height (ancestor parent height x n) m = ancestor parent height x m := by
  have hsplit : height x - m = (n - m) + (height x - n) := by omega
  rw [ancestor, r.height_ancestor hx hn, ancestor, ancestor, hsplit, Function.iterate_add_apply]

/-- The ancestors of the parent. -/
theorem ancestor_parent (r : Rooted known parent height root) (hx : known x)
    (hn : n < height x) :
    ancestor parent height x n = ancestor parent height (parent x) n := by
  obtain ⟨-, hup⟩ := r.up x hx (by omega)
  have hsplit : height x - n = (height (parent x) - n) + 1 := by omega
  rw [ancestor, hsplit, Function.iterate_succ_apply, ancestor]

/-- Chains that agree at one height agree below it. -/
theorem ancestor_eq_of_le (r : Rooted known parent height root) (hx : known x) (hy : known y)
    (hmn : m ≤ n) (hnx : n ≤ height x) (hny : n ≤ height y)
    (h : ancestor parent height x n = ancestor parent height y n) :
    ancestor parent height x m = ancestor parent height y m := by
  rw [← r.ancestor_ancestor hx hmn hnx, ← r.ancestor_ancestor hy hmn hny, h]

/-- Parents and heights that agree on the known nodes have the same ancestors. -/
theorem ancestor_congr (r : Rooted known parent height root)
    (h : ∀ x, known x → parent' x = parent x ∧ height' x = height x) (hx : known x) (n : ℕ) :
    ancestor parent' height' x n = ancestor parent height x n := by
  have hiter : ∀ k ≤ height x, parent'^[k] x = parent^[k] x := by
    intro k
    induction k with
    | zero => intro _; rfl
    | succ k ih =>
        intro hk
        have hknown := (r.iterate hx (k := k) (by omega)).1
        rw [Function.iterate_succ_apply', Function.iterate_succ_apply', ih (by omega),
          (h _ hknown).1]
  rw [ancestor, ancestor, (h x hx).2]
  exact hiter _ (Nat.sub_le _ _)

end Rooted

end CppSwc.Lib
