import Mathlib.Data.Finset.Sort
import Mathlib.Order.Basic

/-!
# Sets of half-open ranges

A set of elements of a linear order is kept as a list of ranges `[begin, end)` in increasing
order.  In a separated list no range is empty, and between any two there is an element that is
in none.  `covers` is the set, and the lemmas say when a range can be put between others and what
is left between the ranges of a separated list (`gaps`).
-/

namespace CppSwc.Lib.Ranges

variable {α : Type*} [LinearOrder α]

/-- An element is in one of the ranges. -/
def covers (rs : List (α × α)) (x : α) : Prop := ∃ r ∈ rs, r.1 ≤ x ∧ x < r.2

/-- Non-empty ranges that are in increasing order, do not overlap and are not adjacent. -/
structure Separated (rs : List (α × α)) : Prop where
  nonempty : ∀ r ∈ rs, r.1 < r.2
  apart : rs.Pairwise fun r s => r.2 < s.1

variable {rs lo hi : List (α × α)} {a b c d x start stop : α}

@[simp] theorem not_covers_nil : ¬covers ([] : List (α × α)) x := by
  rintro ⟨r, hr, -⟩
  cases hr

@[simp] theorem covers_cons {r : α × α} : covers (r :: rs) x ↔ (r.1 ≤ x ∧ x < r.2) ∨ covers rs x := by
  simp [covers]

@[simp] theorem covers_append : covers (lo ++ hi) x ↔ covers lo x ∨ covers hi x := by
  simp [covers, or_and_right, exists_or]

theorem Separated.nil : Separated ([] : List (α × α)) := ⟨by simp, .nil⟩

theorem separated_cons {r : α × α} :
    Separated (r :: rs) ↔ r.1 < r.2 ∧ (∀ s ∈ rs, r.2 < s.1) ∧ Separated rs := by
  constructor
  · rintro ⟨hne, hap⟩
    rw [List.pairwise_cons] at hap
    exact ⟨hne r (.head _), hap.1, fun s hs => hne s (.tail _ hs), hap.2⟩
  · rintro ⟨hr, hlt, hrs⟩
    refine ⟨?_, List.pairwise_cons.mpr ⟨hlt, hrs.apart⟩⟩
    intro s hs
    rcases List.mem_cons.mp hs with rfl | hs
    · exact hr
    · exact hrs.nonempty s hs

theorem separated_append :
    Separated (lo ++ hi) ↔ Separated lo ∧ Separated hi ∧ ∀ r ∈ lo, ∀ s ∈ hi, r.2 < s.1 := by
  constructor
  · rintro ⟨hne, hap⟩
    rw [List.pairwise_append] at hap
    exact ⟨⟨fun r hr => hne r (List.mem_append_left _ hr), hap.1⟩,
      ⟨fun r hr => hne r (List.mem_append_right _ hr), hap.2.1⟩, hap.2.2⟩
  · rintro ⟨hlo, hhi, hlt⟩
    refine ⟨?_, List.pairwise_append.mpr ⟨hlo.apart, hhi.apart, hlt⟩⟩
    intro r hr
    rcases List.mem_append.mp hr with hr | hr
    · exact hlo.nonempty r hr
    · exact hhi.nonempty r hr

/-- The starts of separated ranges increase. -/
theorem Separated.increasing (h : Separated rs) : rs.Pairwise fun r s => r.1 < s.1 :=
  h.apart.imp_of_mem fun hr _ hrs => (h.nonempty _ hr).trans hrs

/-- A range can be put between ranges that it does not touch. -/
theorem Separated.insert (h : Separated (lo ++ hi)) (hab : a < b) (hlo : ∀ r ∈ lo, r.2 < a)
    (hhi : ∀ r ∈ hi, b < r.1) : Separated (lo ++ (a, b) :: hi) := by
  obtain ⟨hslo, hshi, hlt⟩ := separated_append.mp h
  refine separated_append.mpr ⟨hslo, separated_cons.mpr ⟨hab, hhi, hshi⟩, ?_⟩
  intro r hr s hs
  rcases List.mem_cons.mp hs with rfl | hs
  · exact hlo r hr
  · exact hlt r hr s hs

/-- A range in a separated list ends after the ones before it and before the ones behind it. -/
theorem Separated.around (h : Separated (lo ++ (a, b) :: hi)) :
    Separated (lo ++ hi) ∧ a < b ∧ (∀ r ∈ lo, r.2 < a) ∧ ∀ r ∈ hi, b < r.1 := by
  obtain ⟨hslo, hs, hlt⟩ := separated_append.mp h
  obtain ⟨hab, hhi, hshi⟩ := separated_cons.mp hs
  exact ⟨separated_append.mpr ⟨hslo, hshi, fun r hr s hs => hlt r hr s (.tail _ hs)⟩, hab,
    fun r hr => hlt r hr _ (.head _), hhi⟩

/-- Every range ends before a bound that the last one ends before. -/
theorem Separated.ends_before (h : Separated (lo ++ [(a, b)])) (hb : b < x) :
    ∀ r ∈ lo ++ [(a, b)], r.2 < x := by
  obtain ⟨-, hab, hlo, -⟩ := h.around
  intro r hr
  rcases List.mem_append.mp hr with hr | hr
  · exact ((hlo r hr).trans hab).trans hb
  · rw [List.mem_singleton.mp hr]
    exact hb

/-- The end of a range is in no range. -/
theorem Separated.not_covers_end (h : Separated rs) {r : α × α} (hr : r ∈ rs) : ¬covers rs r.2 := by
  obtain ⟨lo, hi, rfl⟩ := List.append_of_mem hr
  obtain ⟨-, hlt, hlo, hhi⟩ := h.around
  rintro ⟨s, hs, hle, hlt'⟩
  rcases List.mem_append.mp hs with hs | hs
  · exact lt_asymm ((hlo s hs).trans hlt) hlt'
  · rcases List.mem_cons.mp hs with rfl | hs
    · exact lt_irrefl _ hlt'
    · exact not_lt.mpr hle (hhi s hs)

/-! ## Between the ranges -/

/-- The ranges between the ranges of a list, from a start to a stop. -/
def gaps (stop : α) : α → List (α × α) → List (α × α)
  | last, [] => if last ≠ stop then [(last, stop)] else []
  | last, r :: rs => if r.1 ≠ last then (last, r.1) :: gaps stop r.2 rs else gaps stop r.2 rs

/-- The ranges are between a start and a stop. -/
def Within (start stop : α) (rs : List (α × α)) : Prop := ∀ r ∈ rs, start ≤ r.1 ∧ r.2 ≤ stop

theorem Separated.within_tail {r : α × α} (h : Separated (r :: rs)) (hin : Within start stop (r :: rs)) :
    Within r.2 stop rs := fun s hs =>
  ⟨((separated_cons.mp h).2.1 s hs).le, (hin s (.tail _ hs)).2⟩

theorem gaps_within (h : Separated rs) (hin : Within start stop rs) (hle : start ≤ stop) :
    Within start stop (gaps stop start rs) := by
  induction rs generalizing start with
  | nil =>
      rw [gaps]
      split
      · intro r hr
        rw [List.mem_singleton.mp hr]
        exact ⟨le_rfl, le_rfl⟩
      · intro r hr
        cases hr
  | cons s rs ih =>
      obtain ⟨hstart, hstop⟩ := hin s (.head _)
      have hs := h.nonempty s (.head _)
      have hrest := ih (separated_cons.mp h).2.2 (h.within_tail hin) hstop
      have hwiden : ∀ r ∈ gaps stop s.2 rs, start ≤ r.1 ∧ r.2 ≤ stop := fun r hr =>
        ⟨(hstart.trans hs.le).trans (hrest r hr).1, (hrest r hr).2⟩
      rw [gaps]
      split
      · intro r hr
        rcases List.mem_cons.mp hr with rfl | hr
        · exact ⟨le_rfl, hs.le.trans hstop⟩
        · exact hwiden r hr
      · exact hwiden

theorem separated_gaps (h : Separated rs) (hin : Within start stop rs) (hle : start ≤ stop) :
    Separated (gaps stop start rs) := by
  induction rs generalizing start with
  | nil =>
      rw [gaps]
      split
      · rename_i hne
        exact separated_cons.mpr ⟨lt_of_le_of_ne hle hne, by simp, .nil⟩
      · exact .nil
  | cons s rs ih =>
      obtain ⟨hstart, hstop⟩ := hin s (.head _)
      have hs := h.nonempty s (.head _)
      have hin' := h.within_tail hin
      have hrs := (separated_cons.mp h).2.2
      rw [gaps]
      split
      · rename_i hne
        refine separated_cons.mpr ⟨lt_of_le_of_ne hstart hne.symm, ?_, ih hrs hin' hstop⟩
        exact fun r hr => hs.trans_le (gaps_within hrs hin' hstop r hr).1
      · exact ih hrs hin' hstop

/-- The gaps have exactly the elements that the ranges do not have. -/
theorem covers_gaps (h : Separated rs) (hin : Within start stop rs) (hle : start ≤ stop) :
    covers (gaps stop start rs) x ↔ (start ≤ x ∧ x < stop) ∧ ¬covers rs x := by
  induction rs generalizing start with
  | nil =>
      rw [gaps]
      split
      · simp
      · rename_i hne
        rw [not_not.mp hne]
        simp only [not_covers_nil, not_false_eq_true, and_true, false_iff, not_and, not_lt]
        exact fun h => h
  | cons s rs ih =>
      obtain ⟨hstart, hstop⟩ := hin s (.head _)
      have hs := h.nonempty s (.head _)
      obtain ⟨-, hlt, hrs⟩ := separated_cons.mp h
      have hrest := ih hrs (h.within_tail hin) hstop
      have hbehind : covers rs x → s.2 ≤ x := by
        rintro ⟨r, hr, hrx, -⟩
        exact (hlt r hr).le.trans hrx
      have hgap : covers (gaps stop start (s :: rs)) x ↔
          (start ≤ x ∧ x < s.1) ∨ covers (gaps stop s.2 rs) x := by
        rw [gaps]
        split
        · exact covers_cons
        · rename_i heq
          rw [not_not.mp heq]
          simp only [iff_or_self, and_imp]
          exact fun hx hx' => absurd hx' (not_lt.mpr hx)
      rw [hgap, hrest, covers_cons, not_or]
      constructor
      · rintro (⟨hx, hx'⟩ | ⟨⟨hx, hx'⟩, hno⟩)
        · refine ⟨⟨hx, hx'.trans (hs.trans_le hstop)⟩, fun hin => not_lt.mpr hin.1 hx', ?_⟩
          exact fun hc => not_lt.mpr (hbehind hc) (hx'.trans hs)
        · exact ⟨⟨hstart.trans (hs.le.trans hx), hx'⟩, fun hin => not_lt.mpr hx hin.2, hno⟩
      · rintro ⟨⟨hx, hx'⟩, hno, hno'⟩
        rcases lt_or_ge x s.1 with hlt' | hge
        · exact .inl ⟨hx, hlt'⟩
        · exact .inr ⟨⟨not_lt.mp fun hlt' => hno ⟨hge, hlt'⟩, hx'⟩, hno'⟩

/-! ## Ranges of numbers -/

/-- The numbers in the ranges, in the order of the ranges. -/
def enumerate (rs : List (ℕ × ℕ)) : List ℕ := rs.flatMap fun r => List.range' r.1 (r.2 - r.1)

variable {ns : List (ℕ × ℕ)} {n : ℕ}

@[simp] theorem enumerate_cons (r : ℕ × ℕ) (ns : List (ℕ × ℕ)) :
    enumerate (r :: ns) = List.range' r.1 (r.2 - r.1) ++ enumerate ns := rfl

theorem mem_enumerate : n ∈ enumerate ns ↔ covers ns n := by
  induction ns with
  | nil => simp [enumerate]
  | cons r ns ih =>
      rw [enumerate_cons, List.mem_append, ih, covers_cons, List.mem_range'_1]
      exact or_congr_left (by omega)

theorem Separated.enumerate_pairwise (h : Separated ns) : (enumerate ns).Pairwise (· < ·) := by
  induction ns with
  | nil => exact .nil
  | cons r ns ih =>
      obtain ⟨hr, hlt, hns⟩ := separated_cons.mp h
      rw [enumerate_cons, List.pairwise_append]
      refine ⟨List.pairwise_lt_range', ih hns, ?_⟩
      intro x hx y hy
      obtain ⟨s, hs, hsy, -⟩ := mem_enumerate.mp hy
      rw [List.mem_range'_1] at hx
      have := hlt s hs
      omega

/-- The numbers of a set in order are those of its ranges. -/
theorem Separated.sort_eq (h : Separated ns) {s : Finset ℕ} (hs : ∀ n, n ∈ s ↔ covers ns n) :
    s.sort = enumerate ns := by
  have heq : s = (enumerate ns).toFinset := by
    apply Finset.ext
    intro n
    rw [hs, List.mem_toFinset, mem_enumerate]
  rw [heq]
  exact (List.toFinset_sort (· ≤ ·) (h.enumerate_pairwise.imp ne_of_lt)).mpr
    (h.enumerate_pairwise.imp le_of_lt)

end CppSwc.Lib.Ranges
