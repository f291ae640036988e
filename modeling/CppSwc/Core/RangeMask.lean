import CppSwc.Lib.OrderedMap
import CppSwc.Lib.Ranges
import CppSwc.Lib.Run
import Mathlib.Algebra.GroupWithZero.Nat
import Mathlib.Order.Interval.Finset.Nat

/-!
# Range masks

`RangeMask` of libdevcore, a set of elements of a ground range.  It is kept as a map from the
begin of a range to its end.  An element is an `unsigned`, so what is one past the last of them
is zero.

`unionWith` asserts that it stays in the ground range, and goes on until it has passed the end
of the new range; it has no result if an assertion fails.
-/

namespace CppSwc

open Lib Lib.OrderedMap Lib.Ranges

structure RangeMask where
  /-- `m_all`, the ground range. -/
  all : ℕ × ℕ := (0, 0)
  /-- `m_ranges`. -/
  ranges : List (ℕ × ℕ) := []

namespace RangeMask

/-- `RangeMask(_c)`. -/
def ground (c : ℕ × ℕ) : RangeMask := { all := c }

/-- The loop of `unionWith`, from an element on to the end of the range. -/
def unionLoop (all : ℕ × ℕ) (stop : ℕ) : ℕ → ℕ → List (ℕ × ℕ) → Option (List (ℕ × ℕ))
  | 0, _, _ => none
  | fuel + 1, i, ranges =>
      if stop ≤ i then some ranges
      else if i < all.1 ∨ all.2 ≤ i then none
      else
        -- the range after `i`, unless it is too high
        let rangeAfter := (past i ranges).head?.filter fun r => decide (r.1 ≤ stop)
        -- the range before, unless it is too low
        match (upTo i ranges).getLast?.filter fun r => decide (i ≤ r.2) with
        | none =>
            match rangeAfter with
            | none => some (assign i stop ranges)
            | some after =>
                if after.1 = i then unionLoop all stop fuel after.2 ranges
                else unionLoop all stop fuel after.2 (erase after.1 (assign i after.2 ranges))
        | some it =>
            if it.2 = i then
              match rangeAfter with
              | none => some (assign it.1 stop ranges)
              | some after =>
                  unionLoop all stop fuel after.2 (erase after.1 (assign it.1 after.2 ranges))
            else unionLoop all stop fuel it.2 ranges

/-- `unionWith`, with a range. -/
def unionWithRange (m : RangeMask) (r : ℕ × ℕ) : Option RangeMask :=
  (unionLoop m.all r.2 (r.2 - r.1 + 1) r.1 m.ranges).map fun ranges => { m with ranges }

/-- `unionWith`, with an element. -/
def unionWithElement (m : RangeMask) (i : ℕ) : Option RangeMask :=
  m.unionWithRange (i, (i + 1) % 2 ^ 32)

/-- `unionWith`, with a mask. -/
def unionWith (m m' : RangeMask) : Option RangeMask :=
  m'.ranges.foldlM unionWithRange
    { m with all := (min m'.all.1 m.all.1, max m'.all.2 m.all.2) }

/-- `inverted`. -/
def inverted (m : RangeMask) : RangeMask := { m with ranges := gaps m.all.2 m.all.1 m.ranges }

/-- `contains`. -/
def contains (m : RangeMask) (i : ℕ) : Bool :=
  match (upTo i m.ranges).getLast? with
  | none => false
  | some it => decide (i < it.2)

/-- `full`. -/
def full (m : RangeMask) : Bool := decide (m.all.1 = m.all.2 ∨ m.ranges = [m.all])

/-- `clear`. -/
def clear (m : RangeMask) : RangeMask := { m with ranges := [] }

/-- `next`. -/
def next (m : RangeMask) (t : ℕ) : ℕ :=
  let t := (t + 1) % 2 ^ 32
  match (upTo t m.ranges).getLast?.filter fun r => decide (r.1 ≤ t ∧ t < r.2) with
  | some _ => t
  | none => ((past t m.ranges).head?.map Prod.fst).getD m.all.2

/-- `begin`, the element that it points to. -/
def begin (m : RangeMask) : ℕ := (m.ranges.head?.map Prod.fst).getD m.all.2

/-- The elements from an iterator on to `end`. -/
def iterate (m : RangeMask) : ℕ → ℕ → Option (List ℕ)
  | 0, _ => none
  | fuel + 1, value =>
      if value = m.all.2 then some [] else (m.iterate fuel (m.next value)).map (value :: ·)

/-- `size`. -/
def size (m : RangeMask) : ℕ := (m.ranges.map fun r => r.2 - r.1).sum

/-- `firstOut`. -/
def firstOut (m : RangeMask) : ℕ :=
  match m.ranges.find? fun r => decide (r.1 = m.all.1) with
  | none => m.all.1
  | some r => r.2

/-- The difference of two values of type `unsigned`. -/
def minus (x y : ℕ) : ℕ := (x + 2 ^ 32 - y) % 2 ^ 32

/-- The loop of `lowest`.  The begins increase, so every new range is behind the others. -/
def lowestRanges : ℕ → List (ℕ × ℕ) → List (ℕ × ℕ)
  | _, [] => []
  | items, r :: ranges =>
      if items = 0 then []
      else
        let stop := min ((r.1 + items) % 2 ^ 32) r.2
        (r.1, stop) :: lowestRanges (minus items (minus stop r.1)) ranges

/-- `lowest`. -/
def lowest (m : RangeMask) (items : ℕ) : RangeMask :=
  { m with ranges := lowestRanges items m.ranges }

/-! ## Union with a range -/

variable {lo hi ranges : List (ℕ × ℕ)} {a b c d i stop fuel x : ℕ} {all : ℕ × ℕ}

/-- What the union of ranges with `[i, stop)` is. -/
structure IsUnion (i stop : ℕ) (ranges ranges' : List (ℕ × ℕ)) : Prop where
  separated : Separated ranges'
  covers_iff : ∀ x, covers ranges' x ↔ covers ranges x ∨ i ≤ x ∧ x < stop

/-- A round of the loop that goes on at `i'` with the ranges `mid`. -/
structure Advances (i stop i' : ℕ) (ranges mid : List (ℕ × ℕ)) : Prop where
  lt : i < i'
  separated : Separated mid
  covers_iff : ∀ x, (covers mid x ∨ i' ≤ x ∧ x < stop) ↔ (covers ranges x ∨ i ≤ x ∧ x < stop)

theorem IsUnion.of_advances {i' : ℕ} {mid ranges' : List (ℕ × ℕ)}
    (hround : Advances i stop i' ranges mid) (h : IsUnion i' stop mid ranges') :
    IsUnion i stop ranges ranges' :=
  ⟨h.separated, fun x => (h.covers_iff x).trans (hround.covers_iff x)⟩

/-- The ranges split at an element, as the search for the range after it splits them. -/
theorem exists_split (h : Separated ranges) (i : ℕ) :
    ∃ lo hi, ranges = lo ++ hi ∧ upTo i ranges = lo ∧ past i ranges = hi ∧
      (∀ r ∈ lo, r.1 ≤ i) ∧ ∀ r ∈ hi, i < r.1 :=
  ⟨upTo i ranges, past i ranges, (upTo_append_past i ranges).symm, rfl, rfl,
    fun _ => le_of_mem_upTo, fun _ => lt_of_mem_past h.increasing⟩

/-- The last range before an element, if it does not end before the element. -/
theorem getLast?_filter_eq (h : Separated lo) :
    (lo.getLast?.filter (fun r => decide (i ≤ r.2)) = none ∧ ∀ r ∈ lo, r.2 < i) ∨
      ∃ lo' a b, lo = lo' ++ [(a, b)] ∧ i ≤ b ∧
        lo.getLast?.filter (fun r => decide (i ≤ r.2)) = some (a, b) := by
  rcases List.eq_nil_or_concat lo with rfl | ⟨lo', ⟨a, b⟩, rfl⟩
  · exact .inl ⟨rfl, by simp⟩
  · rw [List.concat_eq_append] at h ⊢
    rw [List.getLast?_concat]
    by_cases hb : i ≤ b
    · exact .inr ⟨lo', a, b, rfl, hb, by simp [hb]⟩
    · exact .inl ⟨by simpa using hb, h.ends_before (not_le.mp hb)⟩

/-- The first range behind an element, if it does not start behind the stop. -/
theorem head?_filter_eq (h : Separated hi) (stop : ℕ) :
    (hi.head?.filter (fun r => decide (r.1 ≤ stop)) = none ∧ ∀ r ∈ hi, stop < r.1) ∨
      ∃ c d hi', hi = (c, d) :: hi' ∧ c ≤ stop ∧
        hi.head?.filter (fun r => decide (r.1 ≤ stop)) = some (c, d) := by
  cases hi with
  | nil => exact .inl ⟨rfl, by simp⟩
  | cons r hi' =>
      obtain ⟨c, d⟩ := r
      by_cases hc : c ≤ stop
      · exact .inr ⟨c, d, hi', rfl, hc, by simp [hc]⟩
      · refine .inl ⟨by simpa using hc, ?_⟩
        have hcd := h.nonempty (c, d) (.head _)
        intro r hr
        rcases List.mem_cons.mp hr with rfl | hr
        · exact not_le.mp hc
        · have hdr := (separated_cons.mp h).2.1 r hr
          dsimp only at hcd hdr
          omega

/-- A begin is replaced by a smaller one. -/
theorem erase_assign_insert (h : Separated (lo ++ (c, d) :: hi)) (hlo : ∀ r ∈ lo, r.1 < i)
    (hic : i < c) : erase c (assign i d (lo ++ (c, d) :: hi)) = lo ++ (i, d) :: hi := by
  obtain ⟨-, hcd, -, hhi⟩ := h.around
  have hbehind : ∀ r ∈ (c, d) :: hi, i < r.1 := by
    intro r hr
    rcases List.mem_cons.mp hr with rfl | hr
    · exact hic
    · exact hic.trans (hcd.trans (hhi r hr))
  rw [assign_insert hlo hbehind, List.append_cons, erase_append_cons, ← List.append_cons]
  · intro r hr
    rcases List.mem_append.mp hr with hr | hr
    · exact ((hlo r hr).trans hic).ne
    · rw [List.mem_singleton.mp hr]
      exact hic.ne
  · exact fun r hr => (hcd.trans (hhi r hr)).ne'

/-- Two ranges become one. -/
theorem erase_assign_replace (h : Separated (lo ++ (a, b) :: (c, d) :: hi)) :
    erase c (assign a d (lo ++ (a, b) :: (c, d) :: hi)) = lo ++ (a, d) :: hi := by
  have hinc := h.increasing
  rw [List.pairwise_append, List.pairwise_cons, List.pairwise_cons] at hinc
  obtain ⟨-, ⟨hac, hch, -⟩, hlo⟩ := hinc
  rw [assign_replace fun r hr => hlo r hr _ (.head _), List.append_cons, erase_append_cons,
    ← List.append_cons]
  · intro r hr
    rcases List.mem_append.mp hr with hr | hr
    · exact (hlo r hr _ (.tail _ (.head _))).ne
    · rw [List.mem_singleton.mp hr]
      exact (hac _ (.head _)).ne
  · exact fun r hr => (hch r hr).ne'

/-- What a round of the loop does: it is the last one and has made the union, or the loop goes
on. -/
def RoundSpec (all : ℕ × ℕ) (stop fuel i : ℕ) (ranges : List (ℕ × ℕ)) : Prop :=
  (∃ ranges', unionLoop all stop (fuel + 1) i ranges = some ranges' ∧
    IsUnion i stop ranges ranges') ∨
  ∃ i' mid, unionLoop all stop (fuel + 1) i ranges = unionLoop all stop fuel i' mid ∧
    Advances i stop i' ranges mid

/-- A round when the ranges before the element end before it. -/
theorem round_of_apart (h : Separated (lo ++ hi)) (hstop : i < stop) (hin : ¬(i < all.1 ∨ all.2 ≤ i))
    (hupTo : upTo i (lo ++ hi) = lo) (hpast : past i (lo ++ hi) = hi) (hhi : ∀ r ∈ hi, i < r.1)
    (hlow : lo.getLast?.filter (fun r => decide (i ≤ r.2)) = none) (hends : ∀ r ∈ lo, r.2 < i) :
    RoundSpec all stop fuel i (lo ++ hi) := by
  obtain ⟨hslo, hshi, -⟩ := separated_append.mp h
  have hlt : ∀ r ∈ lo, r.1 < i := fun r hr => (hslo.nonempty r hr).trans (hends r hr)
  rw [RoundSpec, unionLoop, if_neg (not_le.mpr hstop), if_neg hin]
  rcases head?_filter_eq hshi stop with ⟨hhigh, hstarts⟩ | ⟨c, d, hi', rfl, hc, hhigh⟩
  · -- a new range
    refine .inl ⟨lo ++ (i, stop) :: hi, ?_, h.insert hstop hends hstarts, fun x => ?_⟩
    · simp only [hupTo, hpast, hlow, hhigh, assign_insert hlt hhi]
    · simp only [covers_append, covers_cons]
      grind
  · -- the next range starts earlier
    obtain ⟨hrest, hcd, -, hhid⟩ := h.around
    have hic : i < c := hhi (c, d) (.head _)
    have hid : i < d := hic.trans hcd
    refine .inr ⟨d, lo ++ (i, d) :: hi', ?_, hid, hrest.insert hid hends hhid, fun x => ?_⟩
    · simp only [hupTo, hpast, hlow, hhigh, if_neg hic.ne', erase_assign_insert h hlt hic]
    · have hsame : (i ≤ x ∧ x < d) ∨ (d ≤ x ∧ x < stop) ↔
          (c ≤ x ∧ x < d) ∨ (i ≤ x ∧ x < stop) := by
        omega
      simp only [covers_append, covers_cons]
      grind

/-- A round when the range before the element reaches it. -/
theorem round_of_touch (h : Separated (lo ++ (a, b) :: hi)) (hstop : i < stop)
    (hin : ¬(i < all.1 ∨ all.2 ≤ i)) (hupTo : upTo i (lo ++ (a, b) :: hi) = lo ++ [(a, b)])
    (hpast : past i (lo ++ (a, b) :: hi) = hi) (hhi : ∀ r ∈ hi, i < r.1) (hai : a ≤ i) (hib : i ≤ b) :
    RoundSpec all stop fuel i (lo ++ (a, b) :: hi) := by
  obtain ⟨hrest, hab, hloa, hhib⟩ := h.around
  obtain ⟨hslo, hshi, hlohi⟩ := separated_append.mp hrest
  have hlow : (lo ++ [(a, b)]).getLast?.filter (fun r => decide (i ≤ r.2)) = some (a, b) := by
    simp [hib]
  rw [RoundSpec, unionLoop, if_neg (not_le.mpr hstop), if_neg hin]
  rcases hib.lt_or_eq with hlt | rfl
  · -- already in the range before
    refine .inr ⟨b, lo ++ (a, b) :: hi, ?_, hlt, h, fun x => ?_⟩
    · simp only [hupTo, hpast, hlow, if_neg hlt.ne']
    · simp only [covers_append, covers_cons]
      grind
  rcases head?_filter_eq hshi stop with ⟨hhigh, hstarts⟩ | ⟨c, d, hi', rfl, hc, hhigh⟩
  · -- the range before is continued
    have hlo : ∀ r ∈ lo, r.1 < a := fun r hr => (hslo.nonempty r hr).trans (hloa r hr)
    refine .inl ⟨lo ++ (a, stop) :: hi, ?_, hrest.insert (hab.trans hstop) hloa hstarts, fun x => ?_⟩
    · simp only [hupTo, hpast, hlow, hhigh, if_true, assign_replace hlo]
    · simp only [covers_append, covers_cons]
      grind
  · -- the ranges before and behind become one
    obtain ⟨hcd, hhid, hshi'⟩ := separated_cons.mp hshi
    have hic : i < c := hhi (c, d) (.head _)
    have hid : i < d := hic.trans hcd
    have hdrop : Separated (lo ++ hi') :=
      separated_append.mpr ⟨hslo, hshi', fun r hr s hs => hlohi r hr s (.tail _ hs)⟩
    refine .inr ⟨d, lo ++ (a, d) :: hi', ?_, hid, hdrop.insert (hab.trans hid) hloa hhid,
      fun x => ?_⟩
    · simp only [hupTo, hpast, hlow, hhigh, if_true, erase_assign_replace h]
    · have hsame : (a ≤ x ∧ x < d) ∨ (d ≤ x ∧ x < stop) ↔
          (a ≤ x ∧ x < i) ∨ (c ≤ x ∧ x < d) ∨ (i ≤ x ∧ x < stop) := by
        omega
      simp only [covers_append, covers_cons]
      grind

theorem round_spec (fuel : ℕ) (h : Separated ranges) (hstop : i < stop)
    (hin : ¬(i < all.1 ∨ all.2 ≤ i)) :
    RoundSpec all stop fuel i ranges := by
  obtain ⟨lo, hi, rfl, hupTo, hpast, hlo, hhi⟩ := exists_split h i
  obtain ⟨hslo, -, -⟩ := separated_append.mp h
  rcases getLast?_filter_eq (i := i) hslo with ⟨hlow, hends⟩ | ⟨lo', a, b, rfl, hib, -⟩
  · exact round_of_apart h hstop hin hupTo hpast hhi hlow hends
  · have hai : a ≤ i := hlo (a, b) (List.mem_append_right _ (.head _))
    rw [List.append_assoc, List.singleton_append] at h hupTo hpast ⊢
    exact round_of_touch h hstop hin hupTo hpast hhi hai hib

/-- The loop makes the union of the ranges with what is left of the new range. -/
theorem unionLoop_spec (h : Separated ranges) (hfirst : all.1 ≤ i) (hlast : stop ≤ all.2)
    (hfuel : stop - i < fuel) :
    ∃ ranges', unionLoop all stop fuel i ranges = some ranges' ∧ IsUnion i stop ranges ranges' := by
  induction fuel generalizing i ranges with
  | zero => exact absurd hfuel (Nat.not_lt_zero _)
  | succ fuel ih =>
      rcases Nat.lt_or_ge i stop with hstop | hstop
      · have hin : ¬(i < all.1 ∨ all.2 ≤ i) := by omega
        rcases round_spec fuel h hstop hin with hlast | ⟨i', mid, hrun, hround⟩
        · exact hlast
        · have hlt := hround.lt
          obtain ⟨ranges', hrest, hunion⟩ := ih hround.separated (hfirst.trans hlt.le) (by omega)
          exact ⟨ranges', hrun.trans hrest, hunion.of_advances hround⟩
      · rw [unionLoop, if_pos hstop]
        exact ⟨ranges, rfl, h, fun x => (or_iff_left (by omega)).symm⟩

end RangeMask

end CppSwc
