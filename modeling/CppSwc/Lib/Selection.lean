import CppSwc.Lib.Grouped

/-!
# The nearest elements of a collection

Elements that are grouped by a distance and read group by group are sorted, and the first `k` of
them are nearest.  `IsNearest` says what it is for a list to be the `k` nearest elements of a
collection.  If only a part of the collection was sorted, the first `k` of it are the nearest of
the whole exactly if every element that was missed has `k` others before it
(`isNearest_take_iff`).
-/

namespace CppSwc.Lib

open Std

variable {α : Type*}

/-! ## Groups of a distance -/

/-- The elements of all groups, the nearest first. -/
def contents (m : ExtTreeMap Nat (List α)) : List α := (m.toList.map Prod.snd).flatten

/-- One more element at the end of its group. -/
def pushAt (m : ExtTreeMap Nat (List α)) (n : Nat) (x : α) : ExtTreeMap Nat (List α) :=
  m.insert n ((m[n]?).getD [] ++ [x])

/-- Every element is in the group of its distance. -/
def Placed (d : α → Nat) (m : ExtTreeMap Nat (List α)) : Prop :=
  ∀ (n : Nat) (l : List α), m[n]? = some l → ∀ x ∈ l, d x = n

variable {d : α → Nat} {m : ExtTreeMap Nat (List α)} {xs missed : List α} {n k c : Nat} {x : α}

theorem contents_perm_of_getElem? {l : List α} (h : m[n]? = some l) :
    (contents m).Perm (l ++ contents (m.erase n)) := by
  have hperm := ((toList_perm_of_getElem? h).map Prod.snd).flatten
  rwa [List.map_cons, List.flatten_cons] at hperm

theorem contents_pushAt (m : ExtTreeMap Nat (List α)) (n : Nat) (x : α) :
    (contents (pushAt m n x)).Perm (x :: contents m) := by
  have hnew := contents_perm_of_getElem? (m := pushAt m n x) (getElem?_insert_eq.trans (if_pos rfl))
  rw [pushAt, erase_insert, ← pushAt, List.append_assoc] at hnew
  cases hget : m[n]? with
  | none =>
      rw [hget, erase_of_getElem?_eq_none hget] at hnew
      exact hnew
  | some l =>
      rw [hget] at hnew
      exact (hnew.trans List.perm_middle).trans ((contents_perm_of_getElem? hget).symm.cons x)

theorem Placed.pushAt (h : Placed d m) (x : α) : Placed d (pushAt m (d x) x) := by
  intro n l hget y hy
  rw [Lib.pushAt, getElem?_insert_eq] at hget
  split at hget
  · rename_i heq
    obtain rfl := Option.some.inj hget
    rcases List.mem_append.mp hy with hy | hy
    · cases hold : m[d x]? with
      | none =>
          rw [hold] at hy
          cases hy
      | some l =>
          rw [hold] at hy
          rw [h _ l hold y hy, heq]
    · rw [List.mem_singleton.mp hy, heq]
  · exact h n l hget y hy

/-- Elements in the groups of their distances are sorted. -/
theorem Placed.pairwise (h : Placed d m) : (contents m).Pairwise fun x y => d x ≤ d y := by
  have hgroup : ∀ e ∈ m.toList, ∀ x ∈ e.2, d x = e.1 := fun e he =>
    h e.1 e.2 (ExtTreeMap.mem_toList_iff_getElem?_eq_some.mp he)
  rw [contents, List.pairwise_flatten]
  constructor
  · intro l hl
    obtain ⟨e, he, rfl⟩ := List.mem_map.mp hl
    refine List.pairwise_of_forall_mem_list fun x hx y hy => ?_
    rw [hgroup e he x hx, hgroup e he y hy]
  · rw [List.pairwise_map]
    refine (ExtTreeMap.ordered_keys_toList (t := m)).imp_of_mem ?_
    intro e e' he he' hlt x hx y hy
    rw [hgroup e he x hx, hgroup e' he' y hy]
    exact Nat.le_of_lt (Nat.compare_eq_lt.mp hlt)

/-- Elements pushed one after the other. -/
theorem foldl_pushAt (xs : List α) (h : Placed d m) :
    Placed d (xs.foldl (fun m x => Lib.pushAt m (d x) x) m) ∧
      (contents (xs.foldl (fun m x => Lib.pushAt m (d x) x) m)).Perm (xs ++ contents m) := by
  induction xs generalizing m with
  | nil => exact ⟨h, .refl _⟩
  | cons x xs ih =>
      obtain ⟨hplaced, hperm⟩ := ih (h.pushAt x)
      refine ⟨hplaced, hperm.trans ?_⟩
      exact ((contents_pushAt m (d x) x).append_left xs).trans List.perm_middle

theorem placed_empty : Placed d ∅ := by
  intro n l hget
  simp at hget

/-- The first elements that pass a test, taken one by one. -/
theorem foldl_take (p : α → Bool) (k : Nat) (xs acc : List α) :
    xs.foldl (fun acc x => if acc.length < k && p x then acc ++ [x] else acc) acc =
      acc ++ (xs.filter p).take (k - acc.length) := by
  induction xs generalizing acc with
  | nil => simp
  | cons x xs ih =>
      rw [List.foldl_cons, ih, List.filter_cons]
      cases hp : p x with
      | false => simp
      | true =>
          rw [Bool.and_true, if_pos rfl]
          split
          · rename_i hlt
            have hlt : acc.length < k := of_decide_eq_true hlt
            have hsucc : k - acc.length = k - (acc ++ [x]).length + 1 := by
              rw [List.length_append, List.length_singleton]
              omega
            rw [hsucc, List.take_succ_cons, List.append_assoc, List.singleton_append]
          · rename_i hge
            have hzero : k - acc.length = 0 := by
              have : ¬acc.length < k := fun hlt => hge (decide_eq_true hlt)
              omega
            rw [hzero, List.take_zero, List.take_zero]

/-! ## The nearest elements -/

/-- A list of the `k` nearest elements of a collection, the nearest first. -/
structure IsNearest (k : Nat) (d : α → Nat) (all result : List α) : Prop where
  length : result.length = min k all.length
  sorted : result.Pairwise fun x y => d x ≤ d y
  nearest : ∃ rest, (result ++ rest).Perm all ∧ ∀ x ∈ result, ∀ y ∈ rest, d x ≤ d y

/-- If enough of a sorted list is near, its first elements are. -/
theorem le_of_mem_take (hsorted : xs.Pairwise fun x y => d x ≤ d y)
    (hcount : k ≤ xs.countP fun x => d x ≤ c) (hx : x ∈ xs.take k) : d x ≤ c := by
  induction xs generalizing k with
  | nil => simp at hx
  | cons y xs ih =>
      obtain ⟨hy, hsorted⟩ := List.pairwise_cons.mp hsorted
      cases k with
      | zero => simp at hx
      | succ k =>
          rcases Nat.lt_or_ge c (d y) with hfar | hnear
          · -- all of the list is far
            have hnone : (y :: xs).countP (fun x => d x ≤ c) = 0 := by
              rw [List.countP_eq_zero]
              intro z hz
              rcases List.mem_cons.mp hz with rfl | hz
              · simpa using hfar
              · simpa using Nat.lt_of_lt_of_le hfar (hy z hz)
            omega
          · rw [List.countP_cons_of_pos (by simpa using hnear)] at hcount
            rw [List.take_succ_cons] at hx
            rcases List.mem_cons.mp hx with rfl | hx
            · exact hnear
            · exact ih hsorted (by omega) hx

/-- **The first elements of a sorted part are nearest in the whole** exactly if every element
that was missed has `k` elements of the part before it. -/
theorem isNearest_take_iff {all : List α} (hsorted : xs.Pairwise fun x y => d x ≤ d y)
    (hall : (xs ++ missed).Perm all) :
    IsNearest k d all (xs.take k) ↔ ∀ y ∈ missed, k ≤ xs.countP fun x => d x ≤ d y := by
  have hlength := hall.length_eq
  rw [List.length_append] at hlength
  have hsplit : (xs.take k ++ (xs.drop k ++ missed)).Perm all := by
    rw [← List.append_assoc, List.take_append_drop]
    exact hall
  constructor
  · rintro ⟨hmin, -, rest, hperm, hnearest⟩ y hy
    have hrest : rest.Perm (xs.drop k ++ missed) :=
      (List.perm_append_left_iff _).mp (hperm.trans hsplit.symm)
    have hpos : 0 < missed.length := List.length_pos_of_mem hy
    rw [List.length_take] at hmin
    have hnear : ∀ x ∈ xs.take k, d x ≤ d y := fun x hx =>
      hnearest x hx y (hrest.mem_iff.mpr (List.mem_append_right _ hy))
    have htake : (xs.take k).countP (fun x => d x ≤ d y) = (xs.take k).length :=
      List.countP_eq_length.mpr fun x hx => by simpa using hnear x hx
    have hsub := (List.take_sublist k xs).countP_le (p := fun x => decide (d x ≤ d y))
    rw [htake, List.length_take] at hsub
    omega
  · intro hcount
    refine ⟨?_, hsorted.sublist (List.take_sublist k xs), _, hsplit, fun x hx y hy => ?_⟩
    · rw [List.length_take]
      cases missed with
      | nil => simpa using congrArg (min k) hlength
      | cons y missed =>
          have hle := (hcount y (.head _)).trans List.countP_le_length
          omega
    · rcases List.mem_append.mp hy with hy | hy
      · have hcut := hsorted
        rw [← List.take_append_drop k xs] at hcut
        exact (List.pairwise_append.mp hcut).2.2 x hx y hy
      · exact le_of_mem_take hsorted (hcount y hy) hx

end CppSwc.Lib
