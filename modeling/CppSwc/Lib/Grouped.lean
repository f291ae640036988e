import CppSwc.Lib.Tree

/-!
# Maps of maps

A map from a key to a map, such as the entries of an account by their number.  The
map of a key is its group.  `lookup` reads an entry through both levels, and a store
that drops a group with its last entry keeps all groups occupied.  `total` counts
the entries of all groups.
-/

namespace CppSwc.Lib

open Std

/-! ## Sums over a map -/

section Sum

variable {α β : Type*} {cmp : α → α → Ordering} [TransCmp cmp] [LawfulEqCmp cmp]
  [DecidableEq α] {m : ExtTreeMap α β cmp} {k : α} {v : β}

/-- The sum of a quantity of the values. -/
def sumOf (f : β → Nat) (m : ExtTreeMap α β cmp) : Nat := (m.toList.map fun e => f e.2).sum

omit [DecidableEq α] in
theorem nodup_toList (m : ExtTreeMap α β cmp) : m.toList.Nodup :=
  (nodup_map_fst_toList m).of_map

theorem toList_perm_of_getElem? (h : m[k]? = some v) :
    m.toList.Perm ((k, v) :: (m.erase k).toList) := by
  have hfresh : (k, v) ∉ (m.erase k).toList := by
    intro hmem
    rw [ExtTreeMap.mem_toList_iff_getElem?_eq_some, getElem?_erase_eq, if_pos rfl] at hmem
    cases hmem
  rw [List.perm_ext_iff_of_nodup (nodup_toList m) (List.nodup_cons.mpr ⟨hfresh, nodup_toList _⟩)]
  rintro ⟨a, b⟩
  rw [List.mem_cons, ExtTreeMap.mem_toList_iff_getElem?_eq_some,
    ExtTreeMap.mem_toList_iff_getElem?_eq_some, getElem?_erase_eq, Prod.mk.injEq]
  by_cases hk : k = a
  · subst hk
    rw [if_pos rfl, h]
    simp [eq_comm]
  · rw [if_neg hk]
    simp [Ne.symm hk]

/-- One value and the rest. -/
theorem sumOf_of_getElem? (f : β → Nat) (h : m[k]? = some v) :
    sumOf f m = f v + sumOf f (m.erase k) := by
  rw [sumOf, sumOf, ((toList_perm_of_getElem? h).map _).sum_nat, List.map_cons, List.sum_cons]

theorem erase_insert (m : ExtTreeMap α β cmp) (k : α) (v : β) :
    (m.insert k v).erase k = m.erase k := by
  refine ExtTreeMap.ext_getElem? fun a => ?_
  rw [getElem?_erase_eq, getElem?_erase_eq, getElem?_insert_eq]
  split <;> rfl

theorem erase_of_getElem?_eq_none (h : m[k]? = none) : m.erase k = m := by
  refine ExtTreeMap.ext_getElem? fun a => ?_
  rw [getElem?_erase_eq]
  split
  · rename_i heq
    rw [← heq, h]
  · rfl

theorem sumOf_insert (f : β → Nat) (m : ExtTreeMap α β cmp) (k : α) (v : β) :
    sumOf f (m.insert k v) = f v + sumOf f (m.erase k) := by
  rw [sumOf_of_getElem? f (getElem?_insert_eq.trans (if_pos rfl)), erase_insert]

omit [DecidableEq α] [LawfulEqCmp cmp] in
theorem sumOf_map {γ : Type*} (f : γ → Nat) (g : α → β → γ) (m : ExtTreeMap α β cmp)
    {f' : β → Nat} (h : ∀ k v, f (g k v) = f' v) : sumOf f (m.map g) = sumOf f' m := by
  rw [sumOf, sumOf, ExtTreeMap.toList_map, List.map_map]
  refine congrArg List.sum (List.map_congr_left ?_)
  intro e _
  exact h e.1 e.2

omit [DecidableEq α] in
/-- A sum is zero if all its parts are. -/
theorem sumOf_eq_zero_iff {f : β → Nat} :
    sumOf f m = 0 ↔ ∀ (k : α) (v : β), m[k]? = some v → f v = 0 := by
  rw [sumOf, List.sum_eq_zero_iff_forall_eq_nat]
  constructor
  · intro h k v hv
    exact h _ (List.mem_map.mpr ⟨(k, v), ExtTreeMap.mem_toList_iff_getElem?_eq_some.mpr hv, rfl⟩)
  · intro h n hn
    obtain ⟨⟨k, v⟩, hmem, rfl⟩ := List.mem_map.mp hn
    exact h k v (ExtTreeMap.mem_toList_iff_getElem?_eq_some.mp hmem)

end Sum

/-! ## Removing several keys -/

section Keys

variable {α β : Type*} {cmp : α → α → Ordering} [TransCmp cmp] [LawfulEqCmp cmp]
  [DecidableEq α]

/-- The map without some keys. -/
def eraseKeys (keys : List α) (m : ExtTreeMap α β cmp) : ExtTreeMap α β cmp :=
  keys.foldl (·.erase ·) m

theorem getElem?_eraseKeys (keys : List α) (m : ExtTreeMap α β cmp) (a : α) :
    (eraseKeys keys m)[a]? = if a ∈ keys then none else m[a]? := by
  induction keys generalizing m with
  | nil => simp [eraseKeys]
  | cons k keys ih =>
      rw [eraseKeys, List.foldl_cons, ← eraseKeys, ih, getElem?_erase_eq]
      by_cases ha : a ∈ keys
      · simp [ha]
      · by_cases hk : k = a
        · simp [hk]
        · simp [ha, hk, Ne.symm hk]

omit [DecidableEq α] in
theorem size_eraseKeys {keys : List α} {m : ExtTreeMap α β cmp} (hnodup : keys.Nodup)
    (hmem : ∀ k ∈ keys, k ∈ m) : (eraseKeys keys m).size + keys.length = m.size := by
  induction keys generalizing m with
  | nil => rfl
  | cons k keys ih =>
      rw [List.nodup_cons] at hnodup
      have hk : k ∈ m := hmem k (.head _)
      have hrest : ∀ k' ∈ keys, k' ∈ m.erase k := by
        intro k' hk'
        rw [ExtTreeMap.mem_erase]
        refine ⟨?_, hmem k' (.tail _ hk')⟩
        intro heq
        exact hnodup.1 (LawfulEqCmp.compare_eq_iff_eq.mp heq ▸ hk')
      have hpos : 0 < m.size := by
        rw [Nat.pos_iff_ne_zero]
        intro hzero
        exact ExtTreeMap.ne_empty_of_mem hk (ExtTreeMap.eq_empty_iff_size_eq_zero.mpr hzero)
      have hsize := ih hnodup.2 hrest
      rw [ExtTreeMap.size_erase, if_pos (ExtTreeMap.contains_iff_mem.mpr hk)] at hsize
      rw [eraseKeys, List.foldl_cons, ← eraseKeys, List.length_cons]
      omega

end Keys

/-! ## Groups -/

section Groups

variable {κ ι β : Type*} {c : κ → κ → Ordering} {d : ι → ι → Ordering} [TransCmp c]
  [LawfulEqCmp c] [TransCmp d] [LawfulEqCmp d] [DecidableEq κ] [DecidableEq ι]
  {m : ExtTreeMap κ (ExtTreeMap ι β d) c} {a a' : κ} {n n' : ι} {v : β} {keys : List ι}

/-- The entry of a key and a number. -/
def lookup (m : ExtTreeMap κ (ExtTreeMap ι β d) c) (a : κ) (n : ι) : Option β :=
  m[a]?.bind (·[n]?)

/-- The group of a key, made if there is none: `m[a]`. -/
def group (m : ExtTreeMap κ (ExtTreeMap ι β d) c) (a : κ) : ExtTreeMap ι β d := m[a]?.getD ∅

/-- `m[a][n] = v`. -/
def insertAt (m : ExtTreeMap κ (ExtTreeMap ι β d) c) (a : κ) (n : ι) (v : β) :
    ExtTreeMap κ (ExtTreeMap ι β d) c :=
  m.insert a ((group m a).insert n v)

/-- The group of a key without some numbers.  An empty group goes with its key. -/
def eraseAt (m : ExtTreeMap κ (ExtTreeMap ι β d) c) (a : κ) (keys : List ι) :
    ExtTreeMap κ (ExtTreeMap ι β d) c :=
  match m[a]? with
  | none => m
  | some g =>
      let g := eraseKeys keys g
      if g.isEmpty then m.erase a else m.insert a g

/-- No group is empty. -/
def Occupied (m : ExtTreeMap κ (ExtTreeMap ι β d) c) : Prop :=
  ∀ (a : κ) (g : ExtTreeMap ι β d), m[a]? = some g → g.isEmpty = false

/-- The number of entries in all groups. -/
def total (m : ExtTreeMap κ (ExtTreeMap ι β d) c) : Nat := sumOf (·.size) m

omit [LawfulEqCmp c] [LawfulEqCmp d] [DecidableEq κ] [DecidableEq ι] in
theorem lookup_empty : lookup (∅ : ExtTreeMap κ (ExtTreeMap ι β d) c) a n = none := by
  simp [lookup]

omit [LawfulEqCmp c] [LawfulEqCmp d] [DecidableEq κ] [DecidableEq ι] in
theorem group_getElem? : (group m a)[n]? = lookup m a n := by
  rw [group, lookup]
  cases m[a]? with
  | none => simp
  | some g => rfl

theorem lookup_insertAt :
    lookup (insertAt m a n v) a' n' = if a = a' ∧ n = n' then some v else lookup m a' n' := by
  rw [lookup, insertAt, getElem?_insert_eq]
  by_cases ha : a = a'
  · subst ha
    rw [if_pos rfl, Option.bind_some, getElem?_insert_eq, group_getElem?]
    simp
  · rw [if_neg ha, if_neg fun h => ha h.1, lookup]

theorem insertAt_insertAt {w : β} : insertAt (insertAt m a n v) a n w = insertAt m a n w := by
  have hgroup : group (insertAt m a n v) a = (group m a).insert n v := by
    rw [group, insertAt, getElem?_insert_eq, if_pos rfl, Option.getD_some]
  rw [insertAt, hgroup, insertAt]
  refine ExtTreeMap.ext_getElem? fun a' => ?_
  rw [getElem?_insert_eq, getElem?_insert_eq, insertAt, getElem?_insert_eq]
  split
  · refine congrArg some (ExtTreeMap.ext_getElem? fun n' => ?_)
    rw [getElem?_insert_eq, getElem?_insert_eq, getElem?_insert_eq]
    split <;> rfl
  · rfl

/-- A group, unless it is empty. -/
def occupant (g : ExtTreeMap ι β d) : Option (ExtTreeMap ι β d) := if g.isEmpty then none else some g

omit [LawfulEqCmp d] [DecidableEq ι] in
/-- The groups after a removal. -/
theorem getElem?_eraseAt : (eraseAt m a keys)[a']? =
    if a = a' then m[a]?.bind fun g => occupant (eraseKeys keys g) else m[a']? := by
  rw [eraseAt]
  cases hg : m[a]? with
  | none =>
      dsimp only [Option.bind_none]
      split
      · rename_i heq
        rw [← heq, hg]
      · rfl
  | some g =>
      rw [Option.bind_some, occupant]
      dsimp only
      split
      · rw [getElem?_erase_eq]
      · rw [getElem?_insert_eq]

omit [LawfulEqCmp d] [DecidableEq ι] in
theorem getElem?_occupant (g : ExtTreeMap ι β d) (n : ι) : (occupant g).bind (·[n]?) = g[n]? := by
  rw [occupant]
  split
  · rename_i hempty
    rw [ExtTreeMap.isEmpty_iff.mp hempty]
    simp
  · rfl

theorem lookup_eraseAt :
    lookup (eraseAt m a keys) a' n' = if a = a' ∧ n' ∈ keys then none else lookup m a' n' := by
  rw [lookup, getElem?_eraseAt]
  by_cases ha : a = a'
  · subst ha
    rw [if_pos rfl, lookup]
    cases m[a]? with
    | none => simp
    | some g =>
        rw [Option.bind_some, getElem?_occupant, getElem?_eraseKeys]
        simp
  · rw [if_neg ha, if_neg fun h => ha h.1, lookup]

omit [LawfulEqCmp d] [DecidableEq ι] in
theorem eraseAt_nil (h : ∀ g, m[a]? = some g → g.isEmpty = false) : eraseAt m a [] = m := by
  refine ExtTreeMap.ext_getElem? fun a' => ?_
  rw [getElem?_eraseAt]
  split
  · rename_i heq
    subst heq
    cases hg : m[a]? with
    | none => rfl
    | some g =>
        have hfull : (eraseKeys [] g).isEmpty = false := h g hg
        rw [Option.bind_some, occupant, hfull]
        rfl
  · rfl

/-- Keys may be removed one after the other. -/
theorem eraseAt_cons (m : ExtTreeMap κ (ExtTreeMap ι β d) c) (a : κ) (n : ι) (keys : List ι) :
    eraseAt m a (n :: keys) = eraseAt (eraseAt m a [n]) a keys := by
  have hempty : eraseKeys keys (∅ : ExtTreeMap ι β d) = ∅ := by
    refine ExtTreeMap.ext_getElem? fun n' => ?_
    rw [getElem?_eraseKeys]
    simp
  refine ExtTreeMap.ext_getElem? fun a' => ?_
  rw [getElem?_eraseAt, getElem?_eraseAt, getElem?_eraseAt, getElem?_eraseAt, if_pos rfl]
  split
  · cases m[a]? with
    | none => rfl
    | some g =>
        have hkeys : eraseKeys (n :: keys) g = eraseKeys keys (eraseKeys [n] g) := rfl
        rw [Option.bind_some, Option.bind_some, hkeys]
        cases hg : (eraseKeys [n] g).isEmpty with
        | true =>
            rw [ExtTreeMap.isEmpty_iff.mp hg, hempty]
            rfl
        | false =>
            have hfull : occupant (eraseKeys [n] g) = some (eraseKeys [n] g) := by
              rw [occupant, hg]
              rfl
            rw [hfull, Option.bind_some]
  · rfl

omit [LawfulEqCmp c] [TransCmp d] [LawfulEqCmp d] [DecidableEq κ] [DecidableEq ι] in
theorem occupied_empty : Occupied (∅ : ExtTreeMap κ (ExtTreeMap ι β d) c) := by
  intro a g h
  simp at h

omit [LawfulEqCmp d] [DecidableEq ι] in
theorem Occupied.insertAt (h : Occupied m) (a : κ) (n : ι) (v : β) :
    Occupied (insertAt m a n v) := by
  intro a' g hg
  rw [Lib.insertAt, getElem?_insert_eq] at hg
  split at hg
  · cases hg
    simp
  · exact h a' g hg

omit [LawfulEqCmp d] [DecidableEq ι] in
theorem Occupied.eraseAt (h : Occupied m) (a : κ) (keys : List ι) : Occupied (eraseAt m a keys) := by
  intro a' g hg
  rw [getElem?_eraseAt] at hg
  split at hg
  · obtain ⟨g', -, hg⟩ := Option.bind_eq_some_iff.mp hg
    rw [occupant] at hg
    split at hg
    · cases hg
    · rename_i hfull
      cases hg
      exact Bool.not_eq_true _ ▸ hfull
  · exact h a' g hg

omit [LawfulEqCmp d] [DecidableEq ι] in
/-- Making a group that is missing does not matter for what is inserted. -/
theorem insertAt_touch (m : ExtTreeMap κ (ExtTreeMap ι β d) c) (a : κ) (n : ι) (v : β) :
    insertAt (m.insert a (group m a)) a n v = insertAt m a n v := by
  have hgroup : group (m.insert a (group m a)) a = group m a := by
    rw [group, getElem?_insert_eq, if_pos rfl, Option.getD_some]
  rw [insertAt, hgroup, insertAt]
  refine ExtTreeMap.ext_getElem? fun a' => ?_
  rw [getElem?_insert_eq, getElem?_insert_eq, getElem?_insert_eq]
  split <;> rfl

omit [LawfulEqCmp d] [DecidableEq ι] in
theorem lookup_touch : lookup (m.insert a (group m a)) a' n' = lookup m a' n' := by
  rw [lookup, getElem?_insert_eq]
  split
  · rename_i heq
    rw [Option.bind_some, group_getElem?, heq]
  · rfl

omit [LawfulEqCmp d] [DecidableEq ι] in
/-- A new entry counts one. -/
theorem total_insertAt (h : lookup m a n = none) (v : β) :
    total (insertAt m a n v) = total m + 1 := by
  have hfresh : n ∉ group m a := by
    rw [ExtTreeMap.mem_iff_isSome_getElem?, group_getElem?, h]
    simp
  have hsize : ((group m a).insert n v).size = (group m a).size + 1 := by
    rw [ExtTreeMap.size_insert, if_neg (mt ExtTreeMap.contains_iff_mem.mp hfresh)]
  rw [insertAt, total, sumOf_insert, hsize]
  cases hg : m[a]? with
  | none =>
      rw [erase_of_getElem?_eq_none hg, group, hg, total]
      simp
      omega
  | some g =>
      rw [total, sumOf_of_getElem? _ hg, group, hg]
      simp only [Option.getD_some]
      omega

omit [DecidableEq ι] in
/-- Entries that are removed are no longer counted. -/
theorem total_eraseAt (hnodup : keys.Nodup) (hmem : ∀ n ∈ keys, lookup m a n ≠ none) :
    total (eraseAt m a keys) + keys.length = total m := by
  cases hg : m[a]? with
  | none =>
      have hnone : keys = [] := by
        refine List.eq_nil_iff_forall_not_mem.mpr fun n hn => hmem n hn ?_
        rw [lookup, hg]
        rfl
      rw [eraseAt, hg, hnone]
      rfl
  | some g =>
      have hsize : (eraseKeys keys g).size + keys.length = g.size := by
        refine size_eraseKeys hnodup fun n hn => ?_
        have hn' := hmem n hn
        rw [lookup, hg, Option.bind_some] at hn'
        rw [ExtTreeMap.mem_iff_isSome_getElem?, Option.isSome_iff_ne_none]
        exact hn'
      have htotal : total m = g.size + sumOf (·.size) (m.erase a) := sumOf_of_getElem? _ hg
      rw [eraseAt, hg]
      dsimp only
      split
      · rename_i hempty
        have hzero : (eraseKeys keys g).size = 0 := by
          rw [ExtTreeMap.isEmpty_iff.mp hempty]
          rfl
        rw [total]
        omega
      · rw [total, sumOf_insert]
        omega

end Groups

end CppSwc.Lib
