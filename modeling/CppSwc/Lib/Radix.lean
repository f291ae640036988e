import Mathlib.Data.List.Infix
import Mathlib.Data.Set.Lattice
import Mathlib.Logic.ExistsUnique
import Mathlib.Tactic.Common

/-!
# Tries with values inside

Tries over an alphabet `ι` with compressed paths whose keys may be prefixes of each other: a
branch has a place for the value of the key that ends at it.  Deletion joins what a branch is left
with if only one of its places is still in use.

A trie is sound if every extension leads to a branch.  It may still have nodes that could be left
out, so that the entries do not determine it.
-/

namespace CppSwc.Lib

universe u v

/-- A trie.  The key of a leaf or an extension is what is left of the path, and a branch has the
value of the path that ends there, if there is one. -/
inductive Radix (ι : Type u) (υ : Type v) where
  | empty
  | leaf (key : List ι) (value : υ)
  | ext (key : List ι) (child : Radix ι υ)
  | branch (children : ι → Radix ι υ) (value : Option υ)

namespace Radix

variable {ι : Type u} {υ : Type v} [DecidableEq ι]

/-! ## Lookups -/

/-- The value at a key. -/
def lookup : Radix ι υ → List ι → Option υ
  | empty, _ => none
  | leaf k₀ v, k => if k = k₀ then some v else none
  | ext k₀ c, k => if k₀ <+: k then c.lookup (k.drop k₀.length) else none
  | branch cs v, k => match k with
      | [] => v
      | i :: k => (cs i).lookup k

variable {t c : Radix ι υ} {cs : ι → Radix ι υ} {v : Option υ} {w : υ} {k l p : List ι} {i : ι}

@[simp] theorem lookup_empty (k : List ι) : (empty : Radix ι υ).lookup k = none := rfl

@[simp] theorem lookup_leaf (k₀ k : List ι) (w : υ) :
    (leaf k₀ w).lookup k = if k = k₀ then some w else none := rfl

@[simp] theorem lookup_ext_append (p k : List ι) (c : Radix ι υ) :
    (ext p c).lookup (p ++ k) = c.lookup k := by
  rw [lookup, if_pos (List.prefix_append p k), List.drop_left]

theorem lookup_ext_apart (h : ¬p <+: k) : (ext p c).lookup k = none := if_neg h

@[simp] theorem lookup_branch_nil (cs : ι → Radix ι υ) (v : Option υ) :
    (branch cs v).lookup [] = v := rfl

@[simp] theorem lookup_branch_cons (cs : ι → Radix ι υ) (v : Option υ) (i : ι) (k : List ι) :
    (branch cs v).lookup (i :: k) = (cs i).lookup k := rfl

/-! ## Sound tries -/

/-- Extensions lead to branches, and the values of branches are as `P` says. -/
inductive Sound (P : υ → Prop) : Radix ι υ → Prop where
  | empty : Sound P empty
  | leaf (k : List ι) (w : υ) : Sound P (leaf k w)
  | ext {k : List ι} {cs : ι → Radix ι υ} {v : Option υ} :
      k ≠ [] → Sound P (branch cs v) → Sound P (ext k (branch cs v))
  | branch {cs : ι → Radix ι υ} {v : Option υ} :
      (∀ w, v = some w → P w) → (∀ i, Sound P (cs i)) → Sound P (branch cs v)

/-! ## Paths in front of a trie -/

omit [DecidableEq ι] in
/-- A trie with a path in front of it, which a leaf or an extension takes into its key. -/
def join (p : List ι) : Radix ι υ → Radix ι υ
  | empty => empty
  | leaf k w => leaf (p ++ k) w
  | ext k c => ext (p ++ k) c
  | branch cs v => ext p (branch cs v)

omit [DecidableEq ι] in
theorem join_ne_empty (hc : c ≠ empty) : join p c ≠ empty := by
  cases c with
  | empty => exact absurd rfl hc
  | leaf k w => simp [join]
  | ext k c => simp [join]
  | branch cs v => simp [join]

@[simp] theorem lookup_join_append (p k : List ι) (c : Radix ι υ) :
    (join p c).lookup (p ++ k) = c.lookup k := by
  cases c with
  | empty => rfl
  | leaf q w => simp only [join, lookup_leaf, List.append_cancel_left_eq]
  | ext q c =>
      simp only [join, lookup, List.prefix_append_right_inj, List.length_append, ← List.drop_drop,
        List.drop_left]
  | branch cs v => exact lookup_ext_append p k _

theorem lookup_join_apart (h : ¬p <+: k) : (join p c).lookup k = none := by
  cases c with
  | empty => rfl
  | leaf q w =>
      refine if_neg ?_
      rintro rfl
      exact h (List.prefix_append p q)
  | ext q c => exact lookup_ext_apart fun hq => h ((List.prefix_append p q).trans hq)
  | branch cs v => exact lookup_ext_apart h

omit [DecidableEq ι] in
variable {P : υ → Prop} in
theorem Sound.join (hc : Sound P c) (hp : p ≠ []) : Sound P (Radix.join p c) := by
  cases hc with
  | empty => exact .empty
  | leaf k w => exact .leaf _ w
  | ext hk hb => exact .ext (fun h => hk (List.append_eq_nil_iff.mp h).2) hb
  | branch hv hcs => exact .ext hp (.branch hv hcs)

/-! ## Deletion -/

open Classical in
/-- A branch, or what its only place in use holds. -/
noncomputable def squash (cs : ι → Radix ι υ) : Option υ → Radix ι υ
  | none =>
      if h : ∃ i, cs i ≠ empty ∧ ∀ j, cs j ≠ empty → j = i then join [h.choose] (cs h.choose)
      else branch cs none
  | some w => if ∀ i, cs i = empty then leaf [] w else branch cs (some w)

/-- The trie without the value at a key. -/
noncomputable def erase : Radix ι υ → List ι → Radix ι υ
  | empty, _ => empty
  | leaf k₀ w, k => if k₀ = k then empty else leaf k₀ w
  | ext k₀ c, k => if k₀ <+: k then join k₀ (c.erase (k.drop k₀.length)) else ext k₀ c
  | branch cs v, k => match k with
      | [] => squash cs none
      | i :: k => squash (Function.update cs i ((cs i).erase k)) v

omit [DecidableEq ι] in
theorem squash_of_only (hi : cs i ≠ empty) (h : ∀ j, cs j ≠ empty → j = i) :
    squash cs none = join [i] (cs i) := by
  have hex : ∃ i, cs i ≠ empty ∧ ∀ j, cs j ≠ empty → j = i := ⟨i, hi, h⟩
  rw [squash, dif_pos hex, h _ hex.choose_spec.1]

omit [DecidableEq ι] in
theorem squash_of_not_only (h : ¬∃ i, cs i ≠ empty ∧ ∀ j, cs j ≠ empty → j = i) :
    squash cs none = branch cs none := dif_neg h

omit [DecidableEq ι] in
theorem squash_of_alone (h : ∀ i, cs i = empty) (w : υ) :
    squash cs (some w) = leaf [] w := if_pos h

omit [DecidableEq ι] in
theorem squash_of_not_alone (h : ¬∀ i, cs i = empty) (w : υ) :
    squash cs (some w) = branch cs (some w) := if_neg h

theorem lookup_squash (cs : ι → Radix ι υ) (v : Option υ) (k : List ι) :
    (squash cs v).lookup k = (branch cs v).lookup k := by
  cases v with
  | none =>
      by_cases hex : ∃ i, cs i ≠ empty ∧ ∀ j, cs j ≠ empty → j = i
      · obtain ⟨i, hi, hall⟩ := hex
        rw [squash_of_only hi hall]
        cases k with
        | nil => exact lookup_join_apart (by simp)
        | cons j k =>
            rcases eq_or_ne j i with rfl | hji
            · exact lookup_join_append [j] k _
            · rw [lookup_join_apart (by simp [List.cons_prefix_cons, hji.symm]),
                lookup_branch_cons, not_not.mp fun hj => hji (hall j hj), lookup_empty]
      · rw [squash_of_not_only hex]
  | some w =>
      by_cases hall : ∀ i, cs i = empty
      · rw [squash_of_alone hall]
        cases k with
        | nil => rfl
        | cons j k => rw [lookup_branch_cons, hall j]; rfl
      · rw [squash_of_not_alone hall]

@[simp] theorem erase_ext_append (k : List ι) :
    (ext p c).erase (p ++ k) = join p (c.erase k) := by
  rw [erase, if_pos (List.prefix_append p k), List.drop_left]

@[simp] theorem erase_branch_nil (cs : ι → Radix ι υ) (v : Option υ) :
    (branch cs v).erase [] = squash cs none := rfl

@[simp] theorem erase_branch_cons (cs : ι → Radix ι υ) (v : Option υ) (i : ι) (k : List ι) :
    (branch cs v).erase (i :: k) = squash (Function.update cs i ((cs i).erase k)) v := rfl

/-- Deletion changes the value at its key and no other. -/
theorem lookup_erase (t : Radix ι υ) (k l : List ι) :
    (t.erase k).lookup l = if l = k then none else t.lookup l := by
  induction t generalizing k l with
  | empty => rw [erase, lookup_empty, ite_self]
  | leaf k₀ w =>
      rw [erase]
      rcases eq_or_ne k₀ k with rfl | hne
      · rw [if_pos rfl, lookup_empty, lookup_leaf]
        split <;> rfl
      · rw [if_neg hne, lookup_leaf]
        split
        · next heq => rw [if_neg (heq ▸ hne)]
        · rw [ite_self]
  | ext k₀ c ih =>
      by_cases hp : k₀ <+: k
      · obtain ⟨k, rfl⟩ := hp
        rw [erase_ext_append]
        by_cases hl : k₀ <+: l
        · obtain ⟨l, rfl⟩ := hl
          rw [lookup_join_append, lookup_ext_append, ih]
          simp only [List.append_cancel_left_eq]
        · rw [lookup_join_apart hl, lookup_ext_apart hl, ite_self]
      · rw [erase, if_neg hp]
        split
        · next heq => rw [heq, lookup_ext_apart hp]
        · rfl
  | branch cs v ih =>
      cases k with
      | nil =>
          rw [erase_branch_nil, lookup_squash]
          cases l <;> simp
      | cons i k =>
          rw [erase_branch_cons, lookup_squash]
          cases l with
          | nil => simp
          | cons j l =>
              rw [lookup_branch_cons, lookup_branch_cons]
              rcases eq_or_ne j i with rfl | hji
              · rw [Function.update_self, ih]
                simp
              · rw [Function.update_of_ne hji]
                simp [hji]

omit [DecidableEq ι] in
variable {P : υ → Prop} in
theorem Sound.squash (hv : ∀ w, v = some w → P w) (hcs : ∀ i, Sound P (cs i)) :
    Sound P (Radix.squash cs v) := by
  cases v with
  | none =>
      by_cases hex : ∃ i, cs i ≠ .empty ∧ ∀ j, cs j ≠ .empty → j = i
      · obtain ⟨i, hi, hall⟩ := hex
        rw [squash_of_only hi hall]
        exact (hcs i).join (List.cons_ne_nil i [])
      · rw [squash_of_not_only hex]
        exact .branch hv hcs
  | some w =>
      by_cases hall : ∀ i, cs i = .empty
      · rw [squash_of_alone hall]
        exact .leaf [] w
      · rw [squash_of_not_alone hall]
        exact .branch hv hcs

omit [DecidableEq ι] in
theorem squash_ne_empty (cs : ι → Radix ι υ) (v : Option υ) : squash cs v ≠ empty := by
  cases v with
  | none =>
      by_cases hex : ∃ i, cs i ≠ empty ∧ ∀ j, cs j ≠ empty → j = i
      · obtain ⟨i, hi, hall⟩ := hex
        rw [squash_of_only hi hall]
        exact join_ne_empty hi
      · simp [squash_of_not_only hex]
  | some w =>
      rw [squash]
      split <;> simp

/-- Something is left of a branch. -/
theorem erase_branch_ne_empty (cs : ι → Radix ι υ) (v : Option υ) (k : List ι) :
    (branch cs v).erase k ≠ empty := by
  cases k with
  | nil => exact squash_ne_empty cs none
  | cons i k => exact squash_ne_empty _ v

variable {P : υ → Prop} in
/-- Deletion keeps soundness. -/
theorem Sound.erase (h : Sound P t) (k : List ι) : Sound P (t.erase k) := by
  induction h generalizing k with
  | empty => exact .empty
  | leaf k₀ w =>
      rw [Radix.erase]
      split
      · exact .empty
      · exact .leaf k₀ w
  | @ext k₀ cs v hk hb ih =>
      rw [Radix.erase]
      split
      · exact (ih _).join hk
      · exact .ext hk hb
  | @branch cs v hv hcs ih =>
      cases k with
      | nil => exact .squash (by simp) hcs
      | cons i k =>
          refine .squash hv fun j => ?_
          rcases eq_or_ne j i with rfl | hji
          · rw [Function.update_self]
            exact ih j k
          · rw [Function.update_of_ne hji]
            exact hcs j

/-- Only a leaf goes away as a whole. -/
theorem Sound.eq_leaf_of_erase {P : υ → Prop} (h : Sound P t) (hk : t.lookup k ≠ none)
    (he : t.erase k = .empty) : ∃ w, t = .leaf k w := by
  cases h with
  | empty => exact absurd rfl hk
  | leaf k₀ w =>
      rw [lookup_leaf] at hk
      by_cases heq : k = k₀
      · exact ⟨w, by rw [heq]⟩
      · rw [if_neg heq] at hk
        exact absurd rfl hk
  | @ext k₀ cs v hne hb =>
      by_cases hp : k₀ <+: k
      · obtain ⟨k, rfl⟩ := hp
        rw [erase_ext_append] at he
        exact absurd he (join_ne_empty (erase_branch_ne_empty cs v k))
      · exact absurd (lookup_ext_apart hp) hk
  | branch hv hcs => exact absurd he (erase_branch_ne_empty _ _ k)

/-! ## What is inside -/

omit [DecidableEq ι] in
/-- The tries in a trie, and itself. -/
def parts : Radix ι υ → Set (Radix ι υ)
  | empty => {empty}
  | leaf k w => {leaf k w}
  | ext k c => insert (ext k c) c.parts
  | branch cs v => insert (branch cs v) (⋃ i, (cs i).parts)

omit [DecidableEq ι] in
theorem self_mem_parts (t : Radix ι υ) : t ∈ t.parts := by
  cases t with
  | empty => exact rfl
  | leaf k w => exact rfl
  | ext k c => exact Set.mem_insert _ _
  | branch cs v => exact Set.mem_insert _ _

omit [DecidableEq ι] in
theorem parts_ext_subset (k : List ι) (c : Radix ι υ) : c.parts ⊆ (ext k c).parts :=
  Set.subset_insert _ _

omit [DecidableEq ι] in
theorem parts_branch_subset (cs : ι → Radix ι υ) (v : Option υ) (i : ι) :
    (cs i).parts ⊆ (branch cs v).parts :=
  (Set.subset_iUnion (fun i => (cs i).parts) i).trans (Set.subset_insert _ _)

/-- The tries that deletion builds on its way up: what it leaves of each trie on the path. -/
def remains : Radix ι υ → List ι → Set (Radix ι υ)
  | empty, _ => {empty}
  | leaf k₀ w, k => {(leaf k₀ w).erase k}
  | ext k₀ c, k => insert ((ext k₀ c).erase k) (c.remains (k.drop k₀.length))
  | branch cs v, k => insert ((branch cs v).erase k) (match k with
      | [] => ∅
      | i :: k => (cs i).remains k)

theorem erase_mem_remains (t : Radix ι υ) (k : List ι) : t.erase k ∈ t.remains k := by
  cases t with
  | empty => exact rfl
  | leaf k₀ w => exact rfl
  | ext k₀ c => exact Set.mem_insert _ _
  | branch cs v => cases k <;> exact Set.mem_insert _ _

theorem remains_ext_append (p k : List ι) (c : Radix ι υ) :
    c.remains k ⊆ (ext p c).remains (p ++ k) := by
  rw [remains, List.drop_left]
  exact Set.subset_insert _ _

theorem remains_branch_cons (cs : ι → Radix ι υ) (v : Option υ) (i : ι) (k : List ι) :
    (cs i).remains k ⊆ (branch cs v).remains (i :: k) :=
  Set.subset_insert _ _

/-! ## Branches with one child -/

/-- A branch with one child, and perhaps a value. -/
def lone (i : ι) (c : Radix ι υ) (v : Option υ) : Radix ι υ :=
  branch (Function.update (fun _ => empty) i c) v

/-- A property of the child and of the empty trie holds of all children. -/
theorem forall_lone {Q : Radix ι υ → Prop} (hc : Q c) (hempty : Q empty) (j : ι) :
    Q (Function.update (fun _ => empty) i c j) := by
  rcases eq_or_ne j i with rfl | hji
  · rwa [Function.update_self]
  · rwa [Function.update_of_ne hji]

theorem Sound.lone {P : υ → Prop} (hv : ∀ w, v = some w → P w) (hc : Sound P c) :
    Sound P (Radix.lone i c v) := .branch hv (forall_lone hc .empty)

theorem exists_of_lookup_lone (h : (lone i c v).lookup k = some w) :
    v = some w ∨ ∃ l, c.lookup l = some w := by
  cases k with
  | nil => exact .inl h
  | cons j k =>
      have hchild : ∀ j, (Function.update (fun _ => empty) i c j).lookup k = some w →
          ∃ l, c.lookup l = some w :=
        forall_lone (Q := fun u => u.lookup k = some w → ∃ l, c.lookup l = some w)
          (fun hu => ⟨k, hu⟩) fun hu => by cases hu
      exact .inr (hchild j h)

theorem mem_parts_lone {u : Radix ι υ} (h : u ∈ (lone i c v).parts) :
    u = lone i c v ∨ u = empty ∨ u ∈ c.parts := by
  rcases h with rfl | h
  · exact .inl rfl
  · obtain ⟨j, hj⟩ := Set.mem_iUnion.mp h
    refine .inr ?_
    rcases eq_or_ne j i with rfl | hji
    · rw [Function.update_self] at hj
      exact .inr hj
    · rw [Function.update_of_ne hji] at hj
      exact .inl hj

/-- Without the value the child goes up. -/
theorem erase_lone_nil (hc : c ≠ empty) : (lone i c v).erase [] = join [i] c := by
  have hi : Function.update (fun _ => empty) i c i ≠ empty := by rwa [Function.update_self]
  rw [lone, erase_branch_nil, squash_of_only hi, Function.update_self]
  intro j hj
  by_contra hji
  exact hj (Function.update_of_ne hji _ _)

theorem erase_lone_cons (hc : c.erase k ≠ empty) (w : υ) :
    (lone i c (some w)).erase (i :: k) = lone i (c.erase k) (some w) := by
  rw [lone, erase_branch_cons, Function.update_self, Function.update_idem]
  refine squash_of_not_alone (fun hall => hc ?_) w
  rw [← hall i, Function.update_self]

end Radix

end CppSwc.Lib
