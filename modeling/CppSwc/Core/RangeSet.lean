import CppSwc.Core.RangeMask

/-!
# Range masks as sets

A `GroundSet` is a set of elements of a ground range, with the operations of a range mask as
operations on sets.  `Represents` says that a mask keeps a set, in ranges that are sorted, not
empty, do not overlap and are not adjacent.
-/

namespace CppSwc

open Lib Lib.OrderedMap Lib.Ranges

/-- A set of elements of a ground range. -/
structure GroundSet where
  first : ℕ
  second : ℕ
  elems : Finset ℕ

namespace GroundSet

/-- The least element of a set, or the other number if it is empty. -/
def leastOr (s : Finset ℕ) (d : ℕ) : ℕ := s.min.untopD d

/-- All elements of the ground range. -/
def groundElems (S : GroundSet) : Finset ℕ := Finset.Ico S.first S.second

def complement (S : GroundSet) : GroundSet := { S with elems := S.groundElems \ S.elems }

/-- The smallest element that is larger, or the end of the ground range. -/
def next (S : GroundSet) (t : ℕ) : ℕ := leastOr (S.elems.filter (t < ·)) S.second

/-- The smallest element of the ground range that is not in the set, or its end. -/
def firstOut (S : GroundSet) : ℕ := leastOr (S.groundElems \ S.elems) S.second

/-- The smallest elements, so many of them. -/
def lowest (S : GroundSet) (n : ℕ) : GroundSet :=
  { S with elems := (S.elems.sort.take n).toFinset }

/-- No `unsigned` wraps when the smallest elements are looked for: of each of them, the range
that starts at it has space for those that are still to come. -/
def Fits (S : GroundSet) (n : ℕ) : Prop :=
  ∀ k x, k < n → S.elems.sort[k]? = some x → x + (n - k) < 2 ^ 32

variable {s : Finset ℕ} {d v : ℕ}

theorem leastOr_empty : leastOr ∅ d = d := rfl

theorem leastOr_eq (hv : v ∈ s) (hle : ∀ x ∈ s, v ≤ x) : leastOr s d = v := by
  have hmin : s.min = v := le_antisymm (Finset.min_le hv)
    (Finset.le_min fun x hx => WithTop.coe_le_coe.mpr (hle x hx))
  rw [leastOr, hmin]
  rfl

theorem leastOr_mem (h : s.Nonempty) : leastOr s d ∈ s := by
  rw [leastOr_eq (Finset.min'_mem s h) fun x hx => Finset.min'_le s x hx]
  exact Finset.min'_mem s h

/-- The next element of the elements in order. -/
theorem next_of_sort {S : GroundSet} {before rest : List ℕ} {x : ℕ}
    (hsort : S.elems.sort = before ++ x :: rest) : S.next x = rest.headD S.second := by
  have hpair : (before ++ x :: rest).Pairwise (· < ·) :=
    hsort ▸ List.sortedLT_iff_pairwise.mp (Finset.sortedLT_sort S.elems)
  obtain ⟨-, hrest, hbefore⟩ := List.pairwise_append.mp hpair
  obtain ⟨hx, hrest⟩ := List.pairwise_cons.mp hrest
  have hmem : ∀ y, y ∈ S.elems.filter (x < ·) ↔ y ∈ rest := by
    intro y
    rw [Finset.mem_filter, ← Finset.mem_sort (· ≤ ·), hsort, List.mem_append, List.mem_cons]
    constructor
    · rintro ⟨hy | rfl | hy, hlt⟩
      · exact absurd (hbefore y hy x (.head _)) hlt.asymm
      · exact absurd hlt (lt_irrefl _)
      · exact hy
    · exact fun hy => ⟨.inr (.inr hy), hx y hy⟩
  rw [next]
  cases rest with
  | nil =>
      rw [Finset.eq_empty_of_forall_notMem fun y hy => List.not_mem_nil ((hmem y).mp hy), leastOr_empty,
        List.headD_nil]
  | cons y rest =>
      refine leastOr_eq ((hmem y).mpr (.head _)) fun z hz => ?_
      rcases List.mem_cons.mp ((hmem z).mp hz) with rfl | hz
      · exact le_rfl
      · exact ((List.pairwise_cons.mp hrest).1 z hz).le

end GroundSet

namespace RangeMask

/-- A mask keeps a set. -/
structure Represents (m : RangeMask) (S : GroundSet) : Prop where
  all_eq : m.all = (S.first, S.second)
  le : S.first ≤ S.second
  second_lt : S.second < 2 ^ 32
  separated : Separated m.ranges
  covers_iff : ∀ x, covers m.ranges x ↔ x ∈ S.elems
  mem_ground : ∀ x ∈ S.elems, S.first ≤ x ∧ x < S.second

variable {m : RangeMask} {S : GroundSet} {ranges lo hi : List (ℕ × ℕ)} {i n t x : ℕ}

theorem Represents.within (h : m.Represents S) : Within S.first S.second m.ranges := by
  intro r hr
  have hne := h.separated.nonempty r hr
  have hbegin := h.mem_ground r.1 ((h.covers_iff r.1).mp ⟨r, hr, le_rfl, hne⟩)
  have hlast := h.mem_ground (r.2 - 1) ((h.covers_iff (r.2 - 1)).mp ⟨r, hr, by omega, by omega⟩)
  omega

theorem Represents.sort_eq (h : m.Represents S) : S.elems.sort = enumerate m.ranges :=
  h.separated.sort_eq fun x => (h.covers_iff x).symm

/-! ## Operations -/

theorem represents_ground {c : ℕ × ℕ} (hle : c.1 ≤ c.2) (hlt : c.2 < 2 ^ 32) :
    (ground c).Represents ⟨c.1, c.2, ∅⟩ where
  all_eq := rfl
  le := hle
  second_lt := hlt
  separated := .nil
  covers_iff x := by simp [ground]
  mem_ground x hx := by simp at hx

theorem Represents.clear (h : m.Represents S) : m.clear.Represents { S with elems := ∅ } where
  all_eq := h.all_eq
  le := h.le
  second_lt := h.second_lt
  separated := .nil
  covers_iff x := by simp [RangeMask.clear]
  mem_ground x hx := by simp at hx

theorem Represents.inverted (h : m.Represents S) : m.inverted.Represents S.complement where
  all_eq := h.all_eq
  le := h.le
  second_lt := h.second_lt
  separated := by
    rw [RangeMask.inverted, h.all_eq]
    exact separated_gaps h.separated h.within h.le
  covers_iff x := by
    simp only [RangeMask.inverted, h.all_eq, covers_gaps h.separated h.within h.le, h.covers_iff,
      GroundSet.complement, GroundSet.groundElems, Finset.mem_sdiff, Finset.mem_Ico]
  mem_ground x hx := by
    rw [GroundSet.complement, Finset.mem_sdiff, GroundSet.groundElems, Finset.mem_Ico] at hx
    exact hx.1

/-- The union with a range that is empty or in the ground range. -/
theorem Represents.unionWithRange (h : m.Represents S) {r : ℕ × ℕ}
    (hin : r.2 ≤ r.1 ∨ S.first ≤ r.1 ∧ r.2 ≤ S.second) :
    ∃ m', m.unionWithRange r = some m' ∧
      m'.Represents { S with elems := S.elems ∪ Finset.Ico r.1 r.2 } := by
  obtain ⟨ranges', hrun, hsep, hcov⟩ : ∃ ranges',
      unionLoop m.all r.2 (r.2 - r.1 + 1) r.1 m.ranges = some ranges' ∧
        IsUnion r.1 r.2 m.ranges ranges' := by
    rcases hin with hempty | ⟨hfirst, hlast⟩
    · rw [unionLoop, if_pos hempty]
      exact ⟨m.ranges, rfl, h.separated, fun x => (or_iff_left (by omega)).symm⟩
    · rw [h.all_eq]
      exact unionLoop_spec h.separated hfirst hlast (Nat.lt_succ_self _)
  refine ⟨{ m with ranges := ranges' }, by rw [RangeMask.unionWithRange, hrun]; rfl, ?_⟩
  refine ⟨h.all_eq, h.le, h.second_lt, hsep, fun x => ?_, fun x hx => ?_⟩
  · rw [hcov, h.covers_iff, Finset.mem_union, Finset.mem_Ico]
  · rcases Finset.mem_union.mp hx with hx | hx
    · exact h.mem_ground x hx
    · rw [Finset.mem_Ico] at hx
      dsimp only
      omega

/-- The union with one range after another. -/
theorem Represents.foldlM_unionWithRange (h : m.Represents S)
    (hin : Within S.first S.second ranges) :
    ∃ m', ranges.foldlM RangeMask.unionWithRange m = some m' ∧
      m'.Represents { S with elems := S.elems ∪ (enumerate ranges).toFinset } := by
  induction ranges generalizing m S with
  | nil =>
      refine ⟨m, rfl, ?_⟩
      simpa [enumerate] using h
  | cons r ranges ih =>
      obtain ⟨m', hone, h'⟩ := h.unionWithRange (.inr (hin r (.head _)))
      obtain ⟨m'', hrest, h''⟩ := ih h' fun s hs => hin s (.tail _ hs)
      refine ⟨m'', by rw [List.foldlM_cons, hone]; exact hrest, ?_⟩
      have hrange : Finset.Ico r.1 r.2 = (List.range' r.1 (r.2 - r.1)).toFinset := by
        apply Finset.ext
        intro x
        rw [Finset.mem_Ico, List.mem_toFinset, List.mem_range'_1]
        omega
      rwa [enumerate_cons, List.toFinset_append, ← hrange, ← Finset.union_assoc]

/-- The union with a mask of which the ground range is in the ground range. -/
theorem Represents.unionWith {m' : RangeMask} {S' : GroundSet} (h : m.Represents S)
    (h' : m'.Represents S') (hfirst : S.first ≤ S'.first) (hsecond : S'.second ≤ S.second) :
    ∃ m'', m.unionWith m' = some m'' ∧ m''.Represents { S with elems := S.elems ∪ S'.elems } := by
  have hall : { m with all := (min m'.all.1 m.all.1, max m'.all.2 m.all.2) } = m := by
    rw [h.all_eq, h'.all_eq, min_eq_right hfirst, max_eq_right hsecond, ← h.all_eq]
  have hin : Within S.first S.second m'.ranges := fun r hr =>
    ⟨hfirst.trans (h'.within r hr).1, (h'.within r hr).2.trans hsecond⟩
  rw [RangeMask.unionWith, hall]
  obtain ⟨m'', hrun, h''⟩ := h.foldlM_unionWithRange hin
  refine ⟨m'', hrun, ?_⟩
  rwa [← h'.sort_eq, Finset.sort_toFinset] at h''

/-! ## Elements -/

/-- An element is in the last range that does not start behind it, or in none. -/
theorem covers_iff_getLast? (h : Separated ranges) :
    covers ranges x ↔ ∃ r, (upTo x ranges).getLast? = some r ∧ x < r.2 := by
  obtain ⟨lo, hi, rfl, hupTo, -, hlo, hhi⟩ := exists_split h x
  obtain ⟨hslo, -, -⟩ := separated_append.mp h
  have hnot : ¬covers hi x := by
    rintro ⟨r, hr, hle, -⟩
    exact absurd (hhi r hr) (not_lt.mpr hle)
  rw [covers_append, or_iff_left hnot, hupTo]
  rcases List.eq_nil_or_concat lo with rfl | ⟨lo', ⟨a, b⟩, rfl⟩
  · simp
  · rw [List.concat_eq_append] at hlo hslo ⊢
    obtain ⟨-, hab, hlo', -⟩ := hslo.around
    have hax : a ≤ x := hlo (a, b) (List.mem_append_right _ (.head _))
    have hnot' : ¬covers lo' x := by
      rintro ⟨r, hr, -, hlt⟩
      have := hlo' r hr
      omega
    rw [covers_append, or_iff_right hnot', List.getLast?_concat]
    simp [hax]

theorem Represents.contains_eq (h : m.Represents S) (x : ℕ) :
    m.contains x = decide (x ∈ S.elems) := by
  rw [Bool.eq_iff_iff, decide_eq_true_iff, ← h.covers_iff, covers_iff_getLast? h.separated, contains]
  cases (upTo x m.ranges).getLast? <;> simp

theorem Represents.ne_nil (h : m.Represents S) : m.ranges = [] ↔ S.elems = ∅ := by
  constructor
  · intro hnil
    refine Finset.eq_empty_of_forall_notMem fun x hx => ?_
    have hcov := (h.covers_iff x).mpr hx
    rw [hnil] at hcov
    exact not_covers_nil hcov
  · intro hempty
    refine List.eq_nil_iff_forall_not_mem.mpr fun r hr => ?_
    have hmem := (h.covers_iff r.1).mp ⟨r, hr, le_rfl, h.separated.nonempty r hr⟩
    rw [hempty] at hmem
    exact absurd hmem (Finset.notMem_empty _)

theorem Represents.full_eq (h : m.Represents S) :
    m.full = decide (S.elems = S.groundElems) := by
  rw [Bool.eq_iff_iff, full, decide_eq_true_iff, decide_eq_true_iff, h.all_eq]
  constructor
  · rintro (hempty | hone)
    · dsimp only at hempty
      refine Finset.ext fun x => ?_
      rw [GroundSet.groundElems, Finset.mem_Ico]
      refine iff_of_false (fun hx => ?_) (by omega)
      have := h.mem_ground x hx
      omega
    · refine Finset.ext fun x => ?_
      rw [← h.covers_iff, hone, GroundSet.groundElems, Finset.mem_Ico, covers_cons]
      simp
  · intro hfull
    rcases h.le.eq_or_lt with heq | hlt
    · exact .inl heq
    right
    have hmem : ∀ x, S.first ≤ x → x < S.second → covers m.ranges x := by
      intro x hx hx'
      rw [h.covers_iff, hfull, GroundSet.groundElems, Finset.mem_Ico]
      exact ⟨hx, hx'⟩
    have hsep := h.separated
    have hwithin := h.within
    obtain ⟨r, hr, hle, hltr⟩ := hmem S.first le_rfl hlt
    have hrfirst : r.1 = S.first := le_antisymm hle (hwithin r hr).1
    cases hranges : m.ranges with
    | nil =>
        rw [hranges] at hr
        cases hr
    | cons q rest =>
        rw [hranges] at hmem hsep hwithin hr
        obtain ⟨hq, hbehind, -⟩ := separated_cons.mp hsep
        have hqfirst : q.1 = S.first := by
          rcases List.mem_cons.mp hr with rfl | hr
          · exact hrfirst
          · have := hbehind r hr
            have := (hwithin q (.head _)).1
            omega
        -- what is at the end of the first range is in no range
        have hqsecond : q.2 = S.second := by
          by_contra hne
          have hqle := (hwithin q (.head _)).2
          exact hsep.not_covers_end (.head _) (hmem q.2 (by omega) (by omega))
        have hrest : rest = [] := by
          refine List.eq_nil_iff_forall_not_mem.mpr fun s hs => ?_
          have := hbehind s hs
          have := hsep.nonempty s (.tail _ hs)
          have := (hwithin s (.tail _ hs)).2
          omega
        rw [hrest, ← hqfirst, ← hqsecond]

theorem length_enumerate (ranges : List (ℕ × ℕ)) :
    (enumerate ranges).length = (ranges.map fun r => r.2 - r.1).sum := by
  simp [enumerate, List.length_flatMap]

theorem Represents.size_eq (h : m.Represents S) : m.size = S.elems.card := by
  rw [size, ← length_enumerate, ← h.sort_eq, Finset.length_sort]

theorem Represents.firstOut_eq (h : m.Represents S) : m.firstOut = S.firstOut := by
  have hout : ∀ x, x ∈ S.groundElems \ S.elems ↔ (S.first ≤ x ∧ x < S.second) ∧ ¬covers m.ranges x := by
    intro x
    rw [Finset.mem_sdiff, GroundSet.groundElems, Finset.mem_Ico, h.covers_iff]
  rw [firstOut, GroundSet.firstOut, h.all_eq]
  cases hfind : m.ranges.find? fun r => decide (r.1 = S.first) with
  | none =>
      have hno : ¬covers m.ranges S.first := by
        rintro ⟨r, hr, hle, -⟩
        refine absurd (le_antisymm hle (h.within r hr).1) ?_
        simpa using List.find?_eq_none.mp hfind r hr
      rcases h.le.eq_or_lt with heq | hlt
      · have hempty : S.groundElems \ S.elems = ∅ := by
          refine Finset.eq_empty_of_forall_notMem fun x hx => ?_
          have := ((hout x).mp hx).1
          omega
        rw [hempty, GroundSet.leastOr_empty]
        exact heq
      · exact (GroundSet.leastOr_eq ((hout _).mpr ⟨⟨le_rfl, hlt⟩, hno⟩)
          fun x hx => ((hout x).mp hx).1.1).symm
  | some r =>
      have hr := List.mem_of_find?_eq_some hfind
      have hfirst : r.1 = S.first := by simpa using List.find?_some hfind
      have hin : ∀ x ∈ S.groundElems \ S.elems, r.2 ≤ x := by
        intro x hx
        obtain ⟨⟨hx, -⟩, hno⟩ := (hout x).mp hx
        by_contra hlt
        exact hno ⟨r, hr, by omega, by omega⟩
      rcases (h.within r hr).2.eq_or_lt with heq | hlt
      · have hempty : S.groundElems \ S.elems = ∅ := by
          refine Finset.eq_empty_of_forall_notMem fun x hx => ?_
          have := hin x hx
          have := ((hout x).mp hx).1
          omega
        rw [hempty, GroundSet.leastOr_empty]
        exact heq
      · have hne := h.separated.nonempty r hr
        have hmem := (hout r.2).mpr ⟨⟨by omega, hlt⟩, h.separated.not_covers_end hr⟩
        exact (GroundSet.leastOr_eq hmem hin).symm

/-- `next` looks for an element from the next `unsigned` on. -/
theorem Represents.next_eq_leastOr (h : m.Represents S) (t : ℕ) :
    m.next t = GroundSet.leastOr (S.elems.filter ((t + 1) % 2 ^ 32 ≤ ·)) S.second := by
  rw [next]
  generalize (t + 1) % 2 ^ 32 = t
  have hmem : ∀ x, x ∈ S.elems.filter (t ≤ ·) ↔ covers m.ranges x ∧ t ≤ x := by
    intro x
    rw [Finset.mem_filter, h.covers_iff]
  obtain ⟨lo, hi, hsplit, hupTo, hpast, hlo, hhi⟩ := exists_split h.separated t
  simp only [hupTo, hpast]
  by_cases hin : covers m.ranges t
  · obtain ⟨r, hlast, hlt⟩ := (covers_iff_getLast? h.separated).mp hin
    rw [hupTo] at hlast
    have hle := hlo r (List.mem_of_getLast? hlast)
    simp only [hlast, Option.filter_some, hle, hlt, and_self, decide_true, if_true]
    exact (GroundSet.leastOr_eq ((hmem _).mpr ⟨hin, le_rfl⟩) fun x hx => ((hmem x).mp hx).2).symm
  · have hnone : lo.getLast?.filter (fun r => decide (r.1 ≤ t ∧ t < r.2)) = none := by
      rw [Option.filter_eq_none_iff]
      intro r hr hlt
      refine hin ((covers_iff_getLast? h.separated).mpr ⟨r, hupTo ▸ hr, ?_⟩)
      exact (of_decide_eq_true hlt).2
    simp only [hnone]
    have hsep := hsplit ▸ h.separated
    obtain ⟨-, hshi, -⟩ := separated_append.mp hsep
    -- what is larger is in a range behind
    have hbehind : ∀ x, covers m.ranges x → t ≤ x → covers hi x := by
      intro x hx hle
      obtain ⟨r, hr, hrx, hxr⟩ := hx
      rw [hsplit] at hr
      rcases List.mem_append.mp hr with hr | hr
      · exact absurd ⟨r, hsplit ▸ List.mem_append_left _ hr, hlo r hr, by omega⟩ hin
      · exact ⟨r, hr, hrx, hxr⟩
    cases hi with
    | nil =>
        have hempty : S.elems.filter (t ≤ ·) = ∅ := by
          refine Finset.eq_empty_of_forall_notMem fun x hx => ?_
          obtain ⟨hx, hle⟩ := (hmem x).mp hx
          exact not_covers_nil (hbehind x hx hle)
        rw [hempty, GroundSet.leastOr_empty, h.all_eq]
        rfl
    | cons r hi =>
        have hr : r ∈ m.ranges := hsplit ▸ List.mem_append_right _ (.head _)
        have hrin : covers m.ranges r.1 := ⟨r, hr, le_rfl, h.separated.nonempty r hr⟩
        refine (GroundSet.leastOr_eq ((hmem _).mpr ⟨hrin, (hhi r (.head _)).le⟩) fun x hx => ?_).symm
        obtain ⟨hx, hle⟩ := (hmem x).mp hx
        obtain ⟨s, hs, hsx, -⟩ := hbehind x hx hle
        rcases List.mem_cons.mp hs with rfl | hs
        · exact hsx
        · have := (separated_cons.mp hshi).2.1 s hs
          have := hshi.nonempty r (.head _)
          omega

/-- `next`, where the number does not wrap. -/
theorem Represents.next_eq (h : m.Represents S) (ht : t + 1 < 2 ^ 32) : m.next t = S.next t := by
  rw [h.next_eq_leastOr, Nat.mod_eq_of_lt ht]
  rfl

/-- After the last `unsigned` the search starts over. -/
theorem Represents.next_eq_iff (h : m.Represents S) (ht : t < 2 ^ 32) :
    m.next t = S.next t ↔ t + 1 < 2 ^ 32 ∨ S.elems = ∅ := by
  rcases Nat.lt_or_ge (t + 1) (2 ^ 32) with hlt | hge
  · exact iff_of_true (h.next_eq hlt) (.inl hlt)
  rw [or_iff_right (not_lt.mpr hge)]
  have hlast : t + 1 = 2 ^ 32 := by omega
  have hall : S.elems.filter ((t + 1) % 2 ^ 32 ≤ ·) = S.elems := by
    rw [hlast, Nat.mod_self]
    exact Finset.filter_true_of_mem fun x _ => Nat.zero_le x
  have hnone : S.elems.filter (t < ·) = ∅ := by
    refine Finset.filter_false_of_mem fun x hx => ?_
    have := (h.mem_ground x hx).2
    have := h.second_lt
    omega
  rw [h.next_eq_leastOr, hall, GroundSet.next, hnone, GroundSet.leastOr_empty]
  constructor
  · intro heq
    by_contra hne
    have := (h.mem_ground _ (GroundSet.leastOr_mem (d := S.second)
      (Finset.nonempty_iff_ne_empty.mpr hne))).2
    omega
  · intro hempty
    rw [hempty, GroundSet.leastOr_empty]

/-! ## Iteration -/

/-- The elements that an iterator goes through are those that are left. -/
theorem Represents.iterate_eq (h : m.Represents S) {before rest : List ℕ} {fuel : ℕ}
    (hsort : S.elems.sort = before ++ rest) (hfuel : rest.length < fuel) :
    m.iterate fuel (rest.headD S.second) = some rest := by
  induction rest generalizing before fuel with
  | nil =>
      obtain ⟨fuel, rfl⟩ := Nat.exists_eq_succ_of_ne_zero (Nat.ne_zero_of_lt hfuel)
      rw [iterate, h.all_eq, List.headD_nil, if_pos rfl]
  | cons x rest ih =>
      obtain ⟨fuel, rfl⟩ := Nat.exists_eq_succ_of_ne_zero (Nat.ne_zero_of_lt hfuel)
      have hmem : x ∈ S.elems := by
        rw [← Finset.mem_sort (· ≤ ·), hsort]
        exact List.mem_append_right _ (.head _)
      have hx := (h.mem_ground x hmem).2
      have hsecond := h.second_lt
      rw [iterate, h.all_eq, List.headD_cons, if_neg hx.ne, h.next_eq (by omega),
        GroundSet.next_of_sort hsort, ih (by rw [hsort, List.append_cons]) (Nat.lt_of_succ_lt_succ hfuel)]
      rfl

theorem Represents.begin_eq (h : m.Represents S) : m.begin = S.elems.sort.headD S.second := by
  rw [h.sort_eq, begin, h.all_eq]
  cases hranges : m.ranges with
  | nil => rfl
  | cons r ranges =>
      have hr := h.separated.nonempty r (hranges ▸ .head _)
      obtain ⟨k, hk⟩ : ∃ k, r.2 - r.1 = k + 1 := ⟨r.2 - r.1 - 1, by omega⟩
      rw [enumerate_cons, hk]
      rfl

/-- The loop from `begin` to `end` goes through the elements in order. -/
theorem Represents.iterate_begin (h : m.Represents S) {fuel : ℕ} (hfuel : S.elems.card < fuel) :
    m.iterate fuel m.begin = some S.elems.sort := by
  rw [h.begin_eq]
  exact h.iterate_eq (List.nil_append _).symm (by rwa [Finset.length_sort])

/-! ## The smallest elements -/

theorem minus_of_le {x y : ℕ} (hyx : y ≤ x) (hx : x < 2 ^ 32) : minus x y = x - y := by
  rw [minus]
  omega

theorem lowestRanges_zero (ranges : List (ℕ × ℕ)) : lowestRanges 0 ranges = [] := by
  cases ranges <;> simp [lowestRanges]

/-- Where the begin of a range and the number of elements do not wrap. -/
theorem lowestRanges_cons {r : ℕ × ℕ} (hr : r.1 < r.2) (hend : r.2 < 2 ^ 32) (hn : n ≠ 0)
    (hlt : r.1 + n < 2 ^ 32) :
    lowestRanges n (r :: ranges) =
      (r.1, min (r.1 + n) r.2) :: lowestRanges (n - (r.2 - r.1)) ranges := by
  have hminus : minus n (minus (min (r.1 + n) r.2) r.1) = n - (r.2 - r.1) := by
    have hinner : minus (min (r.1 + n) r.2) r.1 = min (r.1 + n) r.2 - r.1 :=
      minus_of_le (by omega) (by omega)
    rw [hinner, minus_of_le (by omega) (by omega)]
    omega
  rw [lowestRanges, if_neg hn, Nat.mod_eq_of_lt hlt]
  simp only [hminus]

/-- Where they wrap, the range ends before it begins, and it is the last one. -/
theorem lowestRanges_of_wrap {r : ℕ × ℕ} (hr : r.1 < r.2) (hend : r.2 < 2 ^ 32) (hn : n < 2 ^ 32)
    (hge : 2 ^ 32 ≤ r.1 + n) :
    lowestRanges n (r :: ranges) = [(r.1, r.1 + n - 2 ^ 32)] := by
  have hstop : min ((r.1 + n) % 2 ^ 32) r.2 = r.1 + n - 2 ^ 32 := by omega
  have hminus : minus n (minus (r.1 + n - 2 ^ 32) r.1) = 0 := by
    rw [minus, minus]
    omega
  rw [lowestRanges, if_neg (by omega), hstop]
  simp only [hminus, lowestRanges_zero]

/-- The new ranges begin where ranges begin. -/
theorem exists_of_mem_lowestRanges {q : ℕ × ℕ} (hq : q ∈ lowestRanges n ranges) :
    ∃ r ∈ ranges, r.1 = q.1 := by
  induction ranges generalizing n with
  | nil => cases hq
  | cons r ranges ih =>
      rw [lowestRanges] at hq
      split at hq
      · cases hq
      · rcases List.mem_cons.mp hq with rfl | hq
        · exact ⟨r, .head _, rfl⟩
        · obtain ⟨s, hs, heq⟩ := ih hq
          exact ⟨s, .tail _ hs, heq⟩

/-- `Fits`, of the ranges. -/
def RangesFit (ranges : List (ℕ × ℕ)) (n : ℕ) : Prop :=
  ∀ k x, k < n → (enumerate ranges)[k]? = some x → x + (n - k) < 2 ^ 32

theorem rangesFit_cons {r : ℕ × ℕ} (hr : r.1 < r.2) (hn : n ≠ 0) :
    RangesFit (r :: ranges) n ↔
      r.1 + n < 2 ^ 32 ∧ (r.2 - r.1 < n → RangesFit ranges (n - (r.2 - r.1))) := by
  have hget : ∀ k, (enumerate (r :: ranges))[k]? =
      if k < r.2 - r.1 then some (r.1 + k) else (enumerate ranges)[k - (r.2 - r.1)]? := by
    intro k
    rw [enumerate_cons, List.getElem?_append, List.length_range']
    split
    · rename_i hk
      rw [List.getElem?_range' hk, Nat.one_mul]
    · rfl
  constructor
  · intro h
    refine ⟨?_, fun hlt k x hk hx => ?_⟩
    · have := h 0 r.1 (by omega) (by rw [hget, if_pos (by omega)]; rfl)
      omega
    · have := h (k + (r.2 - r.1)) x (by omega) (by rw [hget, if_neg (by omega)]; simpa using hx)
      omega
  · rintro ⟨hlt, hrest⟩ k x hk hx
    rw [hget] at hx
    split at hx
    · cases hx
      omega
    · have := hrest (by omega) (k - (r.2 - r.1)) x (by omega) hx
      omega

theorem take_range' (a k : ℕ) : (List.range' a k).take n = List.range' a (min n k) := by
  rcases Nat.le_total n k with hle | hle
  · rw [List.take_range'_of_length_ge hle, min_eq_left hle]
  · rw [List.take_range'_of_length_le hle, min_eq_right hle]

/-- If nothing wraps, the new ranges have the smallest elements. -/
theorem lowestRanges_spec (h : Separated ranges) (hend : ∀ r ∈ ranges, r.2 < 2 ^ 32)
    (hfit : RangesFit ranges n) :
    Separated (lowestRanges n ranges) ∧ enumerate (lowestRanges n ranges) = (enumerate ranges).take n := by
  induction ranges generalizing n with
  | nil => exact ⟨.nil, by simp [lowestRanges, enumerate]⟩
  | cons r ranges ih =>
      by_cases hn : n = 0
      · subst hn
        rw [lowestRanges_zero, List.take_zero]
        exact ⟨.nil, rfl⟩
      obtain ⟨hr, hbehind, hsep⟩ := separated_cons.mp h
      have hrend := hend r (.head _)
      obtain ⟨hlt, hrest⟩ := (rangesFit_cons hr hn).mp hfit
      have hrest' : RangesFit ranges (n - (r.2 - r.1)) := by
        rcases Nat.lt_or_ge (r.2 - r.1) n with hmore | hless
        · exact hrest hmore
        · intro k x hk
          omega
      obtain ⟨hsep', htake⟩ := ih hsep (fun s hs => hend s (.tail _ hs)) hrest'
      rw [lowestRanges_cons hr hrend hn hlt]
      constructor
      · refine separated_cons.mpr ⟨by dsimp only; omega, fun q hq => ?_, hsep'⟩
        obtain ⟨s, hs, heq⟩ := exists_of_mem_lowestRanges hq
        have := hbehind s hs
        dsimp only
        omega
      · rw [enumerate_cons, enumerate_cons, htake, List.take_append, take_range', List.length_range']
        congr 2
        dsimp only
        omega

/-- If something wraps, one of the smallest elements is missing. -/
theorem lowestRanges_misses (h : Separated ranges) (hend : ∀ r ∈ ranges, r.2 < 2 ^ 32)
    (hn : n < 2 ^ 32) (hfit : ¬RangesFit ranges n) :
    ∃ x ∈ (enumerate ranges).take n, ¬covers (lowestRanges n ranges) x := by
  induction ranges generalizing n with
  | nil => exact absurd (fun k x _ hx => by simp [enumerate] at hx) hfit
  | cons r ranges ih =>
      have hn0 : n ≠ 0 := by
        rintro rfl
        exact hfit fun k x hk => absurd hk (Nat.not_lt_zero k)
      obtain ⟨hr, hbehind, hsep⟩ := separated_cons.mp h
      have hrend := hend r (.head _)
      rcases Nat.lt_or_ge (r.1 + n) (2 ^ 32) with hlt | hge
      · rw [rangesFit_cons hr hn0, not_and, Classical.not_imp] at hfit
        obtain ⟨hmore, hfit⟩ := hfit hlt
        obtain ⟨x, hx, hmiss⟩ := ih hsep (fun s hs => hend s (.tail _ hs)) (by omega) hfit
        refine ⟨x, ?_, ?_⟩
        · rw [enumerate_cons, List.take_append, List.length_range']
          exact List.mem_append_right _ hx
        · rw [lowestRanges_cons hr hrend hn0 hlt, covers_cons, not_or]
          refine ⟨?_, hmiss⟩
          obtain ⟨s, hs, hsx, -⟩ := mem_enumerate.mp (List.mem_of_mem_take hx)
          have := hbehind s hs
          dsimp only
          omega
      · refine ⟨r.1, ?_, ?_⟩
        · rw [enumerate_cons, List.take_append, take_range']
          refine List.mem_append_left _ (List.mem_range'_1.mpr ?_)
          omega
        · rw [lowestRanges_of_wrap hr hrend hn hge, covers_cons]
          simp only [not_covers_nil, or_false, not_and]
          omega

/-- The mask with the smallest elements keeps them exactly if nothing wraps. -/
theorem Represents.lowest_iff (h : m.Represents S) (hn : n < 2 ^ 32) :
    (m.lowest n).Represents (S.lowest n) ↔ S.Fits n := by
  have hend : ∀ r ∈ m.ranges, r.2 < 2 ^ 32 := fun r hr => (h.within r hr).2.trans_lt h.second_lt
  have hfits : S.Fits n ↔ RangesFit m.ranges n := by rw [GroundSet.Fits, h.sort_eq]; rfl
  rw [hfits]
  constructor
  · intro hrep
    by_contra hfit
    obtain ⟨x, hx, hmiss⟩ := lowestRanges_misses h.separated hend hn hfit
    refine hmiss ((hrep.covers_iff x).mpr ?_)
    rw [GroundSet.lowest, List.mem_toFinset, h.sort_eq]
    exact hx
  · intro hfit
    obtain ⟨hsep, htake⟩ := lowestRanges_spec h.separated hend hfit
    refine ⟨h.all_eq, h.le, h.second_lt, hsep, fun x => ?_, fun x hx => ?_⟩
    · rw [← mem_enumerate, lowest, htake, GroundSet.lowest, List.mem_toFinset, h.sort_eq]
    · rw [GroundSet.lowest, List.mem_toFinset] at hx
      exact h.mem_ground x ((Finset.mem_sort (· ≤ ·)).mp (List.mem_of_mem_take hx))

end RangeMask

end CppSwc
