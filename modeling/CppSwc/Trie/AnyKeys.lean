import CppSwc.Lib.Radix
import CppSwc.Trie.Contents

/-!
# Keys of any length

How a trie whose keys may be prefixes of each other is written as a node.  A branch has the value
of the key that ends at it in its last place, and an empty string there if there is none, so the
value of a branch is never empty.  Looking up follows the trie.
-/

namespace CppSwc.Trie

open Lib

/-- The tries that nodes stand for, with keys of any length. -/
abbrev AnyMap := Radix (Fin 16) Bytes

/-- Extensions lead to branches, and no branch has an empty value. -/
abbrev Legal (t : AnyMap) : Prop := t.Sound fun v => v ≠ []

section

variable (sha3 : Rlp → H256)

/-- The node of a trie. -/
def nodeOf : AnyMap → Rlp
  | .empty => RLPNull
  | .leaf k v => pair k true (.data v)
  | .ext k c => pair k false (ref sha3 (nodeOf c))
  | .branch cs v => .list (withLast (fun i => ref sha3 (nodeOf (cs i))) (.data (v.getD [])))

/-- The references in a node and below it, one for each place. -/
def refsOf : AnyMap → Multiset H256
  | .empty => 0
  | .leaf _ _ => 0
  | .ext _ c => own sha3 (nodeOf sha3 c) + refsOf c
  | .branch cs _ => ∑ i, (own sha3 (nodeOf sha3 (cs i)) + refsOf (cs i))

/-- The references to a trie and in it. -/
def heldOf (t : AnyMap) : Multiset H256 := own sha3 (nodeOf sha3 t) + refsOf sha3 t

end

variable {sha3 : Rlp → H256} {S : Ground} {t : AnyMap} {cs : Fin 16 → AnyMap} {v : Option Bytes}
  {key k : Nibbles} {i : Fin 16} {fuel : ℕ} {M : Multiset H256} {db : MemoryDB}

/-! ## The node of a trie -/

/-- Only the empty trie has an empty node. -/
theorem isEmpty_nodeOf (t : AnyMap) : isEmpty (nodeOf sha3 t) = true ↔ t = .empty := by
  cases t with
  | empty => exact iff_of_true rfl rfl
  | leaf k v => exact iff_of_false (by simp [nodeOf]) (by simp)
  | ext k c => exact iff_of_false (by simp [nodeOf]) (by simp)
  | branch cs v => exact iff_of_false (by simp [nodeOf]) (by simp)

theorem isEmpty_nodeOf_eq_false (ht : t ≠ .empty) : isEmpty (nodeOf sha3 t) = false :=
  Bool.eq_false_iff.mpr fun h => ht ((isEmpty_nodeOf t).mp h)

variable (sha3) in
/-- The other nodes are lists. -/
theorem isList_nodeOf (ht : t ≠ .empty) : (nodeOf sha3 t).isList = true := by
  cases t with
  | empty => exact absurd rfl ht
  | leaf k v => rfl
  | ext k c => rfl
  | branch cs v => rfl

theorem isEmpty_ref_nodeOf (t : AnyMap) :
    isEmpty (ref sha3 (nodeOf sha3 t)) = true ↔ t = .empty := by
  rcases ref_or_hash sha3 (nodeOf sha3 t) with ⟨-, heq, -⟩ | ⟨hsize, heq, -⟩
  · rw [heq, isEmpty_nodeOf]
  · refine iff_of_false (by rw [heq, isEmpty_ofHash]; exact Bool.false_ne_true) ?_
    rintro rfl
    exact hsize (by simp [nodeOf])

theorem isEmpty_ref_nodeOf_eq_false (t : AnyMap) :
    isEmpty (ref sha3 (nodeOf sha3 t)) = false ↔ t ≠ .empty := by
  rw [Bool.eq_false_iff, ne_eq, ne_eq, isEmpty_ref_nodeOf]

@[simp] theorem heldOf_empty : heldOf sha3 .empty = 0 := by
  rw [heldOf, nodeOf, own_RLPNull]
  rfl

variable (sha3) in
/-- The references in a branch, apart from those of one child. -/
def othersOf (cs : Fin 16 → AnyMap) (i : Fin 16) : Multiset H256 :=
  ∑ j ∈ Finset.univ.erase i, heldOf sha3 (cs j)

theorem refsOf_branch (cs : Fin 16 → AnyMap) (v : Option Bytes) (i : Fin 16) :
    refsOf sha3 (.branch cs v) = heldOf sha3 (cs i) + othersOf sha3 cs i :=
  (Finset.add_sum_erase Finset.univ (fun j => heldOf sha3 (cs j)) (Finset.mem_univ i)).symm

theorem refsOf_update (cs : Fin 16 → AnyMap) (v : Option Bytes) (i : Fin 16) (c : AnyMap) :
    refsOf sha3 (.branch (Function.update cs i c) v) = heldOf sha3 c + othersOf sha3 cs i := by
  rw [refsOf_branch _ v i, Function.update_self]
  congr 1
  refine Finset.sum_congr rfl fun j hj => ?_
  rw [Function.update_of_ne (Finset.ne_of_mem_erase hj)]

theorem othersOf_empty (i : Fin 16) : othersOf sha3 (fun _ => .empty) i = 0 :=
  Finset.sum_eq_zero fun _ _ => heldOf_empty

theorem refsOf_lone (i : Fin 16) (c : AnyMap) (v : Option Bytes) :
    refsOf sha3 (.lone i c v) = heldOf sha3 c := by
  rw [Radix.lone, refsOf_update, othersOf_empty, add_zero]

theorem nodeOf_update (cs : Fin 16 → AnyMap) (v : Option Bytes) (i : Fin 16) (c : AnyMap) :
    nodeOf sha3 (.branch (Function.update cs i c) v) =
      .list ((withLast (fun j => ref sha3 (nodeOf sha3 (cs j))) (.data (v.getD []))).set i
        (ref sha3 (nodeOf sha3 c))) := by
  rw [withLast_set, nodeOf]
  congr 2
  funext j
  rcases eq_or_ne j i with rfl | hji
  · rw [Function.update_self, Function.update_self]
  · rw [Function.update_of_ne hji, Function.update_of_ne hji]

variable (sha3 cs) in
/-- The value of a branch is in use, and so are its children. -/
theorem inUse_nodeOf (hv : ∀ w, v = some w → w ≠ []) (except j : ℕ) :
    InUse (nodeOf sha3 (.branch cs v)) except j ↔
      j ≠ except ∧ ((∃ i : Fin 16, j = i ∧ cs i ≠ .empty) ∨ j = 16 ∧ v ≠ none) := by
  have hlast : isEmpty (.data (v.getD [])) = false ↔ v ≠ none := by
    cases v with
    | none => simp [isEmpty]
    | some w =>
        cases w with
        | nil => exact absurd rfl (hv [] rfl)
        | cons b w => simp [isEmpty]
  rw [nodeOf, inUse_withLast, hlast]
  simp only [isEmpty_ref_nodeOf_eq_false]

/-! ## Looking up -/

theorem Holds.of_heldOf {c : AnyMap} (hdb : Holds sha3 S db (heldOf sha3 c + M)) :
    Holds sha3 S db (refsOf sha3 c + (own sha3 (nodeOf sha3 c) + M)) := by
  rwa [heldOf, add_comm (own _ _), add_assoc] at hdb

theorem Holds.own_of_heldOf {c : AnyMap} (hdb : Holds sha3 S db (heldOf sha3 c + M)) :
    Holds sha3 S db (own sha3 (nodeOf sha3 c) + (refsOf sha3 c + M)) := by
  rwa [heldOf, add_assoc] at hdb

/-- `atAux` looks up. -/
theorem atAux_nodeOf (hinj : Set.InjOn sha3 S.nodes) (hlegal : Legal t)
    (hparts : ∀ u ∈ t.parts, nodeOf sha3 u ∈ S.nodes) (hfuel : key.length < fuel)
    (hdb : Holds sha3 S db (refsOf sha3 t + M)) :
    atAux db fuel (nodeOf sha3 t) key = some ((t.lookup key).getD []) := by
  obtain ⟨fuel, rfl⟩ : ∃ f, fuel = f + 1 := ⟨fuel - 1, by omega⟩
  induction hlegal generalizing key fuel M with
  | empty => cases key <;> rfl
  | leaf k₀ w =>
      rw [nodeOf, atAux_pair, Radix.lookup_leaf]
      split
      · next h => rw [if_pos h.1]; rfl
      · next h =>
          rw [if_neg fun h => Bool.false_ne_true h.2.symm, if_neg fun he => h ⟨he, rfl⟩]
          rfl
  | @ext k₀ cs v hne hb ih =>
      rw [nodeOf, atAux_pair, if_neg fun h => Bool.false_ne_true h.2]
      by_cases hp : k₀ <+: key
      · obtain ⟨key, rfl⟩ := hp
        have hparts' := fun u hu => hparts u (Radix.parts_ext_subset k₀ _ hu)
        have hpos : 0 < k₀.length := List.length_pos_of_ne_nil hne
        rw [List.length_append] at hfuel
        obtain ⟨fuel, rfl⟩ : ∃ f, fuel = f + 1 := ⟨fuel - 1, by omega⟩
        have hdb' : Holds sha3 S db (heldOf sha3 (.branch cs v) + M) := hdb
        rw [if_pos ⟨List.prefix_append k₀ key, rfl⟩, List.drop_left, Radix.lookup_ext_append,
          follow_of_isList (f := fun r => atAux db (fuel + 1) r key) hinj rfl
            (hparts' _ (Radix.self_mem_parts _)) hdb'.own_of_heldOf]
        exact ih hparts' hdb'.of_heldOf fuel (by omega)
      · rw [if_neg fun h => hp h.1, Radix.lookup_ext_apart hp]
        rfl
  | @branch cs v hv hcs ih =>
      cases key with
      | nil =>
          rw [nodeOf, atAux_withLast_nil]
          rfl
      | cons i key =>
          have hparts' := fun u hu => hparts u (Radix.parts_branch_subset cs v i hu)
          rw [List.length_cons] at hfuel
          obtain ⟨fuel, rfl⟩ : ∃ f, fuel = f + 1 := ⟨fuel - 1, by omega⟩
          rw [nodeOf, atAux_withLast, Radix.lookup_branch_cons]
          rw [refsOf_branch cs v i, add_assoc] at hdb
          by_cases hc : cs i = .empty
          · rw [if_pos ((isEmpty_ref_nodeOf _).mpr hc), hc]
            rfl
          · rw [if_neg fun h => hc ((isEmpty_ref_nodeOf _).mp h),
              follow_of_isList (f := fun r => atAux db (fuel + 1) r key) hinj
                (isList_nodeOf sha3 hc) (hparts' _ (Radix.self_mem_parts _)) hdb.own_of_heldOf]
            exact ih i hparts' hdb.of_heldOf fuel (by omega)

end CppSwc.Trie
