import Mathlib.Algebra.BigOperators.Group.List.Basic
import Mathlib.Algebra.Order.Ring.Nat
import Mathlib.Data.Finset.Card
import Std.Data.ExtTreeMap
import Std.Data.ExtTreeSet

/-!
# Ordered sets and maps with equality keys

`Std.ExtTreeSet` and `Std.ExtTreeMap` state their lemmas up to the comparison.
Where the comparison decides equality they read as for sets and finite maps, and
a set has the cardinality of the finite set of its elements.
-/

namespace CppSwc.Lib

open Std

section Set

variable {α : Type*} {cmp : α → α → Ordering} [TransCmp cmp] [LawfulEqCmp cmp]
  {t : ExtTreeSet α cmp} {k a : α}

theorem mem_insert_iff : a ∈ t.insert k ↔ k = a ∨ a ∈ t := by
  rw [ExtTreeSet.mem_insert, LawfulEqCmp.compare_eq_iff_eq]

theorem mem_erase_iff : a ∈ t.erase k ↔ k ≠ a ∧ a ∈ t := by
  rw [ExtTreeSet.mem_erase, Ne, LawfulEqCmp.compare_eq_iff_eq]

/-- The elements of a list are inserted. -/
theorem mem_foldl_insert {l : List α} : a ∈ l.foldl .insert t ↔ a ∈ l ∨ a ∈ t := by
  induction l generalizing t with
  | nil => simp
  | cons k l ih =>
      rw [List.foldl_cons, ih, mem_insert_iff, List.mem_cons]
      tauto

/-- The elements of a list are erased. -/
theorem mem_foldl_erase {l : List α} : a ∈ l.foldl .erase t ↔ a ∉ l ∧ a ∈ t := by
  induction l generalizing t with
  | nil => simp
  | cons k l ih =>
      rw [List.foldl_cons, ih, mem_erase_iff, List.mem_cons]
      tauto

variable [DecidableEq α]

/-- The elements of a set as a finite set. -/
def finset (t : ExtTreeSet α cmp) : Finset α := t.toList.toFinset

@[simp] theorem mem_finset : a ∈ finset t ↔ a ∈ t := by
  simp [finset]

@[simp] theorem card_finset (t : ExtTreeSet α cmp) : (finset t).card = t.size := by
  have hnodup : t.toList.Nodup := by
    refine (ExtTreeSet.distinct_toList (t := t)).imp ?_
    intro a b hne heq
    exact hne (LawfulEqCmp.compare_eq_iff_eq.mpr heq)
  rw [finset, List.toFinset_card_of_nodup hnodup, ExtTreeSet.length_toList]

end Set

section Map

variable {α β : Type*} {cmp : α → α → Ordering} [TransCmp cmp] [LawfulEqCmp cmp]
  [DecidableEq α] {m : ExtTreeMap α β cmp} {k a : α}

theorem getElem?_insert_eq {v : β} : (m.insert k v)[a]? = if k = a then some v else m[a]? := by
  rw [ExtTreeMap.getElem?_insert]
  simp only [LawfulEqCmp.compare_eq_iff_eq]

theorem getElem?_erase_eq : (m.erase k)[a]? = if k = a then none else m[a]? := by
  rw [ExtTreeMap.getElem?_erase]
  simp only [LawfulEqCmp.compare_eq_iff_eq]

omit [DecidableEq α] in
/-- The keys of the entries of a map are distinct. -/
theorem nodup_map_fst_toList (m : ExtTreeMap α β cmp) : (m.toList.map Prod.fst).Nodup := by
  rw [List.Nodup, List.pairwise_map]
  refine (ExtTreeMap.ordered_keys_toList (t := m)).imp ?_
  intro a b hlt heq
  have : cmp a.1 b.1 = .eq := LawfulEqCmp.compare_eq_iff_eq.mpr heq
  simp [this] at hlt

/-- A map has as many keys as entries. -/
theorem card_keys (m : ExtTreeMap α β cmp) : m.keys.toFinset.card = m.size := by
  have hnodup : m.keys.Nodup := by
    refine ExtTreeMap.distinct_keys.imp ?_
    intro a b hne heq
    exact hne (LawfulEqCmp.compare_eq_iff_eq.mpr heq)
  rw [List.toFinset_card_of_nodup hnodup, ExtTreeMap.length_keys]

end Map

section Fold

variable {α β γ δ : Type*} {cmp : α → α → Ordering} [TransCmp cmp] [LawfulEqCmp cmp]
  [DecidableEq α] {f : γ → α × β → γ} {g : γ → α → δ} {h : β → δ → δ}

/-- A fold over entries with distinct keys, where each entry changes what is seen at its
key only. -/
theorem foldl_of_nodup (hstep : ∀ s e a, g (f s e) a = if e.1 = a then h e.2 (g s a) else g s a)
    {l : List (α × β)} (hl : (l.map Prod.fst).Nodup) (s : γ) (a : α) :
    (∀ v, (a, v) ∈ l → g (l.foldl f s) a = h v (g s a)) ∧
      (a ∉ l.map Prod.fst → g (l.foldl f s) a = g s a) := by
  induction l generalizing s with
  | nil => exact ⟨fun v hv => absurd hv List.not_mem_nil, fun _ => rfl⟩
  | cons e l ih =>
      rw [List.map_cons, List.nodup_cons] at hl
      obtain ⟨hin, hout⟩ := ih hl.2 (f s e)
      rw [List.foldl_cons]
      constructor
      · intro v hv
        rcases List.mem_cons.mp hv with rfl | hv
        · rw [hout hl.1, hstep, if_pos rfl]
        · have hne : e.1 ≠ a := by
            rintro rfl
            exact hl.1 (List.mem_map.mpr ⟨_, hv, rfl⟩)
          rw [hin v hv, hstep, if_neg hne]
      · intro ha
        rw [List.map_cons, List.mem_cons, not_or] at ha
        rw [hout ha.2, hstep, if_neg (Ne.symm ha.1)]

/-- What is seen at a key after a fold over a map. -/
theorem foldl_toList (hstep : ∀ s e a, g (f s e) a = if e.1 = a then h e.2 (g s a) else g s a)
    (m : ExtTreeMap α β cmp) (s : γ) (a : α) :
    g (m.toList.foldl f s) a = m[a]?.elim (g s a) fun v => h v (g s a) := by
  obtain ⟨hin, hout⟩ := foldl_of_nodup hstep (nodup_map_fst_toList m) s a
  cases hv : m[a]? with
  | some v => exact hin v (ExtTreeMap.mem_toList_iff_getElem?_eq_some.mpr hv)
  | none =>
      refine hout fun ha => ?_
      obtain ⟨⟨k, v⟩, hmem, rfl⟩ := List.mem_map.mp ha
      rw [ExtTreeMap.mem_toList_iff_getElem?_eq_some.mp hmem] at hv
      cases hv

end Fold

/-! ## Entries in the order of their keys -/

section Prefix

variable {α : Type*} {l : List α} {e : α} {p : α → Bool}

/-- If what meets `p` comes first, `takeWhile` takes all of it. -/
theorem mem_takeWhile_of_pairwise (hs : l.Pairwise fun a b => p b = true → p a = true) :
    e ∈ l.takeWhile p ↔ e ∈ l ∧ p e = true := by
  induction l with
  | nil => simp
  | cons a l ih =>
      rw [List.pairwise_cons] at hs
      cases ha : p a with
      | true =>
          rw [List.takeWhile_cons_of_pos ha, List.mem_cons, ih hs.2, List.mem_cons]
          constructor
          · rintro (rfl | ⟨he, hp⟩)
            · exact ⟨.inl rfl, ha⟩
            · exact ⟨.inr he, hp⟩
          · rintro ⟨rfl | he, hp⟩
            · exact .inl rfl
            · exact .inr ⟨he, hp⟩
      | false =>
          rw [List.takeWhile_cons_of_neg (by simp [ha])]
          constructor
          · intro he
            cases he
          · rintro ⟨he, hp⟩
            rcases List.mem_cons.mp he with rfl | he
            · rw [ha] at hp
              cases hp
            · rw [hs.1 e he hp] at ha
              cases ha

/-- And `dropWhile` leaves the rest. -/
theorem mem_dropWhile_of_pairwise (hs : l.Pairwise fun a b => p b = true → p a = true) :
    e ∈ l.dropWhile p ↔ e ∈ l ∧ p e = false := by
  induction l with
  | nil => simp
  | cons a l ih =>
      rw [List.pairwise_cons] at hs
      cases ha : p a with
      | true =>
          rw [List.dropWhile_cons_of_pos ha, ih hs.2, List.mem_cons]
          constructor
          · rintro ⟨he, hp⟩
            exact ⟨.inr he, hp⟩
          · rintro ⟨rfl | he, hp⟩
            · rw [ha] at hp
              cases hp
            · exact ⟨he, hp⟩
      | false =>
          rw [List.dropWhile_cons_of_neg (by simp [ha])]
          constructor
          · intro he
            refine ⟨he, ?_⟩
            rcases List.mem_cons.mp he with rfl | he'
            · exact ha
            · rw [← Bool.not_eq_true]
              intro hp
              rw [hs.1 e he' hp] at ha
              cases ha
          · exact fun h => h.1

end Prefix

section Ends

variable {α β : Type*} {cmp : α → α → Ordering} [TransCmp cmp] {m : ExtTreeMap α β cmp} {k : α}

/-- The lowest key. -/
def firstKey? (m : ExtTreeMap α β cmp) : Option α := m.toList.head?.map Prod.fst

/-- The highest key. -/
def lastKey? (m : ExtTreeMap α β cmp) : Option α := m.toList.getLast?.map Prod.fst

theorem getElem?_of_mem_toList [LawfulEqCmp cmp] {e : α × β} (h : e ∈ m.toList) :
    m[e.1]? = some e.2 :=
  ExtTreeMap.mem_toList_iff_getElem?_eq_some.mp h

/-- A map that is not empty has a lowest key, and the other keys are above it. -/
theorem firstKey?_of_mem [LawfulEqCmp cmp] (h : k ∈ m) :
    ∃ first, firstKey? m = some first ∧ (first = k ∨ cmp first k = .lt) := by
  rw [ExtTreeMap.mem_iff_isSome_getElem?, Option.isSome_iff_exists] at h
  obtain ⟨v, hv⟩ := h
  rw [← ExtTreeMap.mem_toList_iff_getElem?_eq_some] at hv
  have hsorted := ExtTreeMap.ordered_keys_toList (t := m)
  rw [firstKey?]
  generalize m.toList = l at hv hsorted
  cases l with
  | nil => cases hv
  | cons e l =>
      rw [List.pairwise_cons] at hsorted
      refine ⟨e.1, rfl, ?_⟩
      rcases List.mem_cons.mp hv with heq | hv
      · exact .inl (by rw [← heq])
      · exact .inr (hsorted.1 _ hv)

/-- A map that is not empty has a highest key, and the other keys are below it. -/
theorem lastKey?_of_mem [LawfulEqCmp cmp] (h : k ∈ m) :
    ∃ last, lastKey? m = some last ∧ last ∈ m ∧ (last = k ∨ cmp k last = .lt) := by
  rw [ExtTreeMap.mem_iff_isSome_getElem?, Option.isSome_iff_exists] at h
  obtain ⟨v, hv⟩ := h
  rw [← ExtTreeMap.mem_toList_iff_getElem?_eq_some] at hv
  have hne : m.toList ≠ [] := List.ne_nil_of_mem hv
  have hlast := List.getLast_mem hne
  refine ⟨(m.toList.getLast hne).1, by rw [lastKey?, List.getLast?_eq_some_getLast hne]; rfl, ?_, ?_⟩
  · rw [ExtTreeMap.mem_iff_isSome_getElem?, getElem?_of_mem_toList hlast]
    rfl
  · have hsorted := ExtTreeMap.ordered_keys_toList (t := m)
    rw [← List.dropLast_append_getLast hne] at hv hsorted
    rcases List.mem_append.mp hv with hv | hv
    · exact .inr ((List.pairwise_append.mp hsorted).2.2 _ hv _ (List.mem_singleton_self _))
    · exact .inl (congrArg Prod.fst (List.mem_singleton.mp hv)).symm

/-- A map that is not empty has a highest key, which is one of its keys. -/
theorem lastKey?_of_isEmpty [LawfulEqCmp cmp] (h : m.isEmpty = false) :
    ∃ last, lastKey? m = some last ∧ m[last]? ≠ none := by
  have hne : m.toList ≠ [] := by
    intro hnil
    rw [← ExtTreeMap.isEmpty_toList, hnil] at h
    cases h
  have hlast : m.toList.getLast? = some (m.toList.getLast hne) := List.getLast?_eq_some_getLast hne
  refine ⟨(m.toList.getLast hne).1, by rw [lastKey?, hlast]; rfl, ?_⟩
  rw [getElem?_of_mem_toList (List.getLast_mem hne)]
  exact nofun

end Ends

section Sorted

variable {β : Type*} {l : List (Nat × β)} {e : Nat × β} {n : Nat}

/-- The entries of a map with numbers for keys come in increasing order. -/
theorem pairwise_lt_toList (m : ExtTreeMap Nat β) :
    m.toList.Pairwise fun a b => a.1 < b.1 := by
  refine (ExtTreeMap.ordered_keys_toList (t := m)).imp ?_
  intro a b hlt
  exact Nat.compare_eq_lt.mp hlt

/-- So do those of a map with bit vectors for keys. -/
theorem pairwise_bitVec_lt_toList {w : Nat} (m : ExtTreeMap (BitVec w) β) :
    m.toList.Pairwise fun a b => a.1 < b.1 := by
  refine (ExtTreeMap.ordered_keys_toList (t := m)).imp ?_
  intro a b hlt
  exact compareOfLessAndEq_eq_lt.mp hlt

/-- The entries below a key are a first part of the list. -/
theorem mem_takeWhile_lt (hs : l.Pairwise fun a b => a.1 < b.1) :
    e ∈ l.takeWhile (fun e => e.1 < n) ↔ e ∈ l ∧ e.1 < n := by
  have hdown : l.Pairwise fun a b => decide (b.1 < n) = true → decide (a.1 < n) = true := by
    refine hs.imp fun {a b} hlt => ?_
    simp only [decide_eq_true_eq]
    omega
  rw [mem_takeWhile_of_pairwise hdown, decide_eq_true_eq]

/-- The entries from a key on are the rest. -/
theorem mem_dropWhile_lt (hs : l.Pairwise fun a b => a.1 < b.1) :
    e ∈ l.dropWhile (fun e => e.1 < n) ↔ e ∈ l ∧ n ≤ e.1 := by
  have hdown : l.Pairwise fun a b => decide (b.1 < n) = true → decide (a.1 < n) = true := by
    refine hs.imp fun {a b} hlt => ?_
    simp only [decide_eq_true_eq]
    omega
  rw [mem_dropWhile_of_pairwise hdown, decide_eq_false_iff_not, Nat.not_lt]

/-- The last entry has the highest key. -/
theorem le_getLast? (hs : l.Pairwise fun a b => a.1 < b.1) (he : e ∈ l) :
    ∃ a, l.getLast? = some a ∧ e.1 ≤ a.1 := by
  induction l generalizing e with
  | nil => cases he
  | cons a l ih =>
      rw [List.pairwise_cons] at hs
      cases l with
      | nil =>
          rw [List.mem_singleton.mp he]
          exact ⟨a, rfl, Nat.le_refl _⟩
      | cons b l =>
          rw [List.getLast?_cons_cons]
          rcases List.mem_cons.mp he with rfl | he
          · obtain ⟨c, hc, hle⟩ := ih hs.2 List.mem_cons_self
            have := hs.1 b List.mem_cons_self
            exact ⟨c, hc, by omega⟩
          · exact ih hs.2 he

end Sorted

/-! ## Values outside a list -/

/-- A list that is shorter than there are bit vectors misses one. -/
theorem exists_bitVec_not_mem {w : Nat} (l : List (BitVec w)) (h : l.length < 2 ^ w) :
    ∃ x, x ∉ l := by
  by_contra hall
  simp only [not_exists, not_not] at hall
  have hnodup : ((List.range (2 ^ w)).map (BitVec.ofNat w)).Nodup := by
    rw [List.nodup_map_iff_inj_on List.nodup_range]
    intro i hi j hj heq
    rw [List.mem_range] at hi hj
    have := congrArg BitVec.toNat heq
    rwa [BitVec.toNat_ofNat, BitVec.toNat_ofNat, Nat.mod_eq_of_lt hi, Nat.mod_eq_of_lt hj] at this
  have hle := (List.subperm_of_subset hnodup fun x _ => hall x).length_le
  rw [List.length_map, List.length_range] at hle
  omega

end CppSwc.Lib
