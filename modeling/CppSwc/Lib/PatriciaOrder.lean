import CppSwc.Lib.Patricia
import Mathlib.Data.List.Lex
import Mathlib.Order.Basic

/-!
# Patricia tries in order

The entries of a trie as a walk meets them that takes the digits in order.  It lists what the
lookups find (`mem_entries`), in the lexicographic order of the keys (`sorted_entries`).

`since k` drops the entries before a key.  A path in front of the entries is compared with the
key first (`since_under_prefix`, `since_under_of_lt`, `since_under_of_gt`).
-/

namespace CppSwc.Lib

universe u v

namespace Patricia

variable {ι : Type u} {υ : Type v}

/-- An entry with a path put in front of its key. -/
def under (p : List ι) (e : List ι × υ) : List ι × υ := (p ++ e.1, e.2)

theorem under_under (p q : List ι) (es : List (List ι × υ)) :
    (es.map (under q)).map (under p) = es.map (under (p ++ q)) := by
  rw [List.map_map]
  exact List.map_congr_left fun e _ => Prod.ext (List.append_assoc p q e.1).symm rfl

theorem map_under_nil (es : List (List ι × υ)) : es.map (under []) = es := List.map_id _

/-- The entries of a trie. -/
def entries (digits : List ι) : Patricia ι υ → List (List ι × υ)
  | empty => []
  | leaf k v => [(k, v)]
  | ext k c => (c.entries digits).map (under k)
  | branch cs => digits.flatMap fun i => ((cs i).entries digits).map (under [i])

theorem mem_map_under {p k : List ι} {v : υ} {es : List (List ι × υ)} :
    (k, v) ∈ es.map (under p) ↔ ∃ l, k = p ++ l ∧ (l, v) ∈ es := by
  rw [List.mem_map]
  constructor
  · rintro ⟨⟨l, w⟩, hmem, heq⟩
    obtain ⟨rfl, rfl⟩ := Prod.mk.inj heq
    exact ⟨l, rfl, hmem⟩
  · rintro ⟨l, rfl, hmem⟩
    exact ⟨(l, v), hmem, rfl⟩

/-- The entries are what is found. -/
theorem mem_entries [DecidableEq ι] {digits : List ι} (hall : ∀ i, i ∈ digits) {t : Patricia ι υ}
    {k : List ι} {v : υ} : (k, v) ∈ t.entries digits ↔ t.lookup k = some v := by
  induction t generalizing k with
  | empty => exact iff_of_false List.not_mem_nil nofun
  | leaf k₀ w =>
      rw [entries, List.mem_singleton, Prod.mk.injEq, lookup_leaf]
      constructor
      · rintro ⟨rfl, rfl⟩
        exact if_pos rfl
      · intro h
        split at h
        · rename_i hk
          exact ⟨hk, (Option.some.inj h).symm⟩
        · cases h
  | ext p c ih =>
      rw [entries, mem_map_under]
      constructor
      · rintro ⟨l, rfl, hmem⟩
        rw [lookup_ext_append]
        exact ih.mp hmem
      · intro h
        obtain ⟨l, rfl⟩ := prefix_of_lookup_ext (h ▸ Option.some_ne_none v)
        rw [lookup_ext_append] at h
        exact ⟨l, rfl, ih.mpr h⟩
  | branch cs ih =>
      rw [entries, List.mem_flatMap]
      constructor
      · rintro ⟨i, -, hchild⟩
        obtain ⟨l, rfl, hmem⟩ := mem_map_under.mp hchild
        exact (ih i).mp hmem
      · intro h
        cases k with
        | nil => cases h
        | cons i k => exact ⟨i, hall i, mem_map_under.mpr ⟨k, rfl, (ih i).mpr h⟩⟩

variable [LinearOrder ι] {digits : List ι} {p k : List ι} {t : Patricia ι υ}
  {es : List (List ι × υ)}

/-! ## The order of the keys -/

theorem append_lt_append_iff (p : List ι) {k l : List ι} : p ++ k < p ++ l ↔ k < l := by
  induction p with
  | nil => exact Iff.rfl
  | cons i p ih => rw [List.cons_append, List.cons_append, List.cons_lt_cons_self, ih]

theorem append_le_append_iff (p : List ι) {k l : List ι} : p ++ k ≤ p ++ l ↔ k ≤ l := by
  rw [← not_lt, ← not_lt, append_lt_append_iff]

/-- What is before a path and not a part of it is before all keys behind it. -/
theorem lt_append_of_lt (h : k < p) (l : List ι) : k < p ++ l := by
  induction p generalizing k with
  | nil => exact absurd h (List.not_lt_nil k)
  | cons j p ih =>
      cases k with
      | nil => exact List.nil_lt_cons _ _
      | cons i k =>
          rw [List.cons_append, List.cons_lt_cons_iff]
          rcases List.cons_lt_cons_iff.mp h with hlt | ⟨rfl, hlt⟩
          · exact .inl hlt
          · exact .inr ⟨rfl, ih hlt⟩

/-- What is not before a path nor behind it is after all keys behind it. -/
theorem append_lt_of_not_lt (h : ¬k < p) (hp : ¬p <+: k) (l : List ι) : p ++ l < k := by
  induction p generalizing k with
  | nil => exact absurd List.nil_prefix hp
  | cons j p ih =>
      cases k with
      | nil => exact absurd (List.nil_lt_cons _ _) h
      | cons i k =>
          rw [List.cons_append, List.cons_lt_cons_iff]
          rcases lt_trichotomy i j with hlt | rfl | hgt
          · exact absurd (List.cons_lt_cons_iff.mpr (.inl hlt)) h
          · refine .inr ⟨rfl, ih (fun hlt => h ?_) fun hprefix => hp ?_⟩
            · exact List.cons_lt_cons_iff.mpr (.inr ⟨rfl, hlt⟩)
            · exact List.cons_prefix_cons.mpr ⟨rfl, hprefix⟩
          · exact .inl hgt

/-- The entries are listed in the order of their keys. -/
theorem sorted_entries (hdigits : digits.Pairwise (· < ·)) (t : Patricia ι υ) :
    (t.entries digits).Pairwise fun d e => d.1 < e.1 := by
  have hunder : ∀ (p : List ι) (es : List (List ι × υ)), (es.Pairwise fun d e => d.1 < e.1) →
      (es.map (under p)).Pairwise fun d e => d.1 < e.1 := by
    intro p es hes
    rw [List.pairwise_map]
    exact hes.imp fun h => (append_lt_append_iff p).mpr h
  induction t with
  | empty => exact .nil
  | leaf k v => exact List.pairwise_singleton _ _
  | ext k c ih => exact hunder k _ ih
  | branch cs ih =>
      rw [entries, List.pairwise_flatMap]
      refine ⟨fun i _ => hunder [i] _ (ih i), hdigits.imp ?_⟩
      intro i j hij d hd e he
      obtain ⟨d, -, rfl⟩ := List.mem_map.mp hd
      obtain ⟨e, -, rfl⟩ := List.mem_map.mp he
      exact List.cons_lt_cons_iff.mpr (.inl hij)

/-! ## From a key on -/

/-- The entries from a key on. -/
def since (k : List ι) (es : List (List ι × υ)) : List (List ι × υ) := es.filter fun e => k ≤ e.1

@[simp] theorem since_nil (es : List (List ι × υ)) : since [] es = es :=
  List.filter_eq_self.mpr fun e _ => decide_eq_true (not_lt.mp (List.not_lt_nil e.1))

@[simp] theorem since_empty (k : List ι) : since k ([] : List (List ι × υ)) = [] := rfl

/-- Behind its path a key is compared with the rest of the keys. -/
theorem since_under_prefix (p k : List ι) (es : List (List ι × υ)) :
    since (p ++ k) (es.map (under p)) = (since k es).map (under p) := by
  rw [since, since, List.filter_map]
  refine congrArg (List.map (under p)) (List.filter_congr fun e _ => ?_)
  exact decide_eq_decide.mpr (append_le_append_iff p)

theorem since_under_of_lt (h : k < p) (es : List (List ι × υ)) :
    since k (es.map (under p)) = es.map (under p) := by
  refine List.filter_eq_self.mpr fun e he => ?_
  obtain ⟨e, -, rfl⟩ := List.mem_map.mp he
  exact decide_eq_true (lt_append_of_lt h e.1).le

theorem since_under_of_gt (h : ¬k < p) (hp : ¬p <+: k) (es : List (List ι × υ)) :
    since k (es.map (under p)) = [] := by
  refine List.filter_eq_nil_iff.mpr fun e he => ?_
  obtain ⟨e, -, rfl⟩ := List.mem_map.mp he
  rw [decide_eq_true_iff, not_le]
  exact append_lt_of_not_lt h hp e.1

/-- In a branch the digits before the first one of the key are dropped, and the child at this
digit is entered with the rest of the key. -/
theorem since_branch {before after : List ι} {i : ι}
    (hdigits : (before ++ i :: after).Pairwise (· < ·)) (f : ι → List (List ι × υ)) (k : List ι) :
    since (i :: k) ((before ++ i :: after).flatMap fun j => (f j).map (under [j])) =
      (since k (f i)).map (under [i]) ++ after.flatMap fun j => (f j).map (under [j]) := by
  obtain ⟨-, hafter, hbefore⟩ := List.pairwise_append.mp hdigits
  have hskip : since (i :: k) (before.flatMap fun j => (f j).map (under [j])) = [] := by
    refine List.filter_eq_nil_iff.mpr fun e he => ?_
    obtain ⟨j, hj, he⟩ := List.mem_flatMap.mp he
    obtain ⟨e, -, rfl⟩ := List.mem_map.mp he
    rw [decide_eq_true_iff, not_le]
    exact List.cons_lt_cons_iff.mpr (.inl (hbefore j hj i (.head _)))
  have hkeep : since (i :: k) (after.flatMap fun j => (f j).map (under [j])) =
      after.flatMap fun j => (f j).map (under [j]) := by
    refine List.filter_eq_self.mpr fun e he => ?_
    obtain ⟨j, hj, he⟩ := List.mem_flatMap.mp he
    obtain ⟨e, -, rfl⟩ := List.mem_map.mp he
    refine decide_eq_true (le_of_lt ?_)
    exact List.cons_lt_cons_iff.mpr (.inl ((List.pairwise_cons.mp hafter).1 j hj))
  have hchild : since (i :: k) ((f i).map (under [i])) = (since k (f i)).map (under [i]) :=
    since_under_prefix [i] k (f i)
  rw [since] at hskip hkeep hchild ⊢
  rw [List.flatMap_append, List.flatMap_cons, List.filter_append, List.filter_append, hskip,
    hkeep, hchild, List.nil_append]

end Patricia

end CppSwc.Lib
