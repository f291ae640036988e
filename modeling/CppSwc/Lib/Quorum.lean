import Mathlib.Data.Finset.Card

/-!
# Majorities

Two majorities of one finite set share a member.  If every member backs at most
one choice, the choices of two majorities are the same.  Half of a set, rounded
up, is a majority if the set is odd, and an even set has two halves that share
nothing.
-/

namespace CppSwc.Lib

variable {V C : Type*} [DecidableEq V]

/-- More than half of `members`. -/
structure Majority (members Q : Finset V) : Prop where
  /-- The majority consists of members. -/
  sub : Q ⊆ members
  /-- It is more than half of them. -/
  card : members.card < 2 * Q.card

/-- Two majorities share a member. -/
theorem Majority.common {members Q₁ Q₂ : Finset V} (h₁ : Majority members Q₁)
    (h₂ : Majority members Q₂) : ∃ v, v ∈ Q₁ ∧ v ∈ Q₂ := by
  have hc : members.card < Q₁.card + Q₂.card := by
    have := h₁.card
    have := h₂.card
    omega
  obtain ⟨v, hv⟩ := Finset.inter_nonempty_of_card_lt_card_add_card h₁.sub h₂.sub hc
  exact ⟨v, Finset.mem_inter.mp hv⟩

/-- Majorities whose members back one choice each back the same choice. -/
theorem Majority.agree {members Q₁ Q₂ : Finset V} (h₁ : Majority members Q₁)
    (h₂ : Majority members Q₂) (backs : V → C → Prop) {c₁ c₂ : C}
    (one : ∀ v, backs v c₁ → backs v c₂ → c₁ = c₂)
    (b₁ : ∀ v ∈ Q₁, backs v c₁) (b₂ : ∀ v ∈ Q₂, backs v c₂) : c₁ = c₂ := by
  obtain ⟨v, hv₁, hv₂⟩ := h₁.common h₂
  exact one v (b₁ v hv₁) (b₂ v hv₂)

omit [DecidableEq V] in
/-- Half of an odd set, rounded up, is a majority. -/
theorem Majority.of_odd {members Q : Finset V} (hsub : Q ⊆ members) (hodd : members.card % 2 = 1)
    (hcard : (members.card + 1) / 2 ≤ Q.card) : Majority members Q where
  sub := hsub
  card := by omega

/-- An even set has two halves that share nothing. -/
theorem exists_disjoint_halves {members : Finset V} (heven : members.card % 2 = 0) :
    ∃ Q₁ Q₂, Q₁ ⊆ members ∧ Q₂ ⊆ members ∧ Disjoint Q₁ Q₂ ∧
      Q₁.card = members.card / 2 ∧ Q₂.card = members.card / 2 := by
  obtain ⟨Q, hsub, hcard⟩ := Finset.exists_subset_card_eq (Nat.div_le_self members.card 2)
  refine ⟨Q, members \ Q, hsub, Finset.sdiff_subset, Finset.disjoint_sdiff, hcard, ?_⟩
  rw [Finset.card_sdiff_of_subset hsub, hcard]
  omega

end CppSwc.Lib
