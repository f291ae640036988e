import CppSwc.Lib.OrderedMap
import CppSwc.Lib.Ranges

/-!
# Values in segments

A partial function on the numbers is kept as a list of segments.  A segment is a number and the
values from it on, one for each of the numbers that follow.  Segments are separated if their
ranges are, so that no two of them could be one.  The lemmas say what the function is when a
segment of a separated list is cut, when one is put between others, and when two that touch are
joined.
-/

namespace CppSwc.Lib.Segments

variable {β : Type*}

/-- The range of the numbers of a segment. -/
def range (s : ℕ × List β) : ℕ × ℕ := (s.1, s.1 + s.2.length)

/-- The value of a segment at a number. -/
def valueAt (s : ℕ × List β) (n : ℕ) : Option β := if s.1 ≤ n then s.2[n - s.1]? else none

/-- The value of a list of segments at a number. -/
def value (ss : List (ℕ × List β)) (n : ℕ) : Option β := ss.findSome? fun s => valueAt s n

/-- No segment is empty, and they are in increasing order and neither overlap nor touch. -/
def Separated (ss : List (ℕ × List β)) : Prop := Ranges.Separated (ss.map range)

variable {ss lo hi : List (ℕ × List β)} {s : ℕ × List β} {vs ws : List β} {v : β} {a k n : ℕ}

/-! ## One segment -/

theorem valueAt_of_lt (h : n < s.1) : valueAt s n = none := if_neg (Nat.not_le.mpr h)

theorem valueAt_of_le (h : s.1 + s.2.length ≤ n) : valueAt s n = none := by
  rw [valueAt, if_pos (Nat.le_of_add_right_le h)]
  exact List.getElem?_eq_none (by omega)

theorem isSome_valueAt : (valueAt s n).isSome ↔ s.1 ≤ n ∧ n < s.1 + s.2.length := by
  rw [valueAt]
  split
  · rw [Option.isSome_iff_ne_none, ne_eq, List.getElem?_eq_none_iff]
    omega
  · simp only [Option.isSome_none, Bool.false_eq_true, false_iff]
    omega

@[simp] theorem valueAt_empty : valueAt (a, ([] : List β)) n = none := by
  rw [valueAt, List.getElem?_nil, ite_self]

theorem valueAt_singleton : valueAt (a, [v]) n = if n = a then some v else none := by
  rcases lt_trichotomy n a with hlt | rfl | hlt
  · rw [valueAt_of_lt hlt, if_neg hlt.ne]
  · simp [valueAt]
  · rw [valueAt_of_le (s := (a, [v])) hlt, if_neg hlt.ne']

/-- A segment is two segments that touch. -/
theorem valueAt_append :
    valueAt (a, vs ++ ws) n = (valueAt (a, vs) n).or (valueAt (a + vs.length, ws) n) := by
  rcases lt_or_ge n (a + vs.length) with hlt | hge
  · rw [valueAt_of_lt (s := (a + vs.length, ws)) hlt, Option.or_none, valueAt, valueAt]
    split
    · exact List.getElem?_append_left (by omega)
    · rfl
  · rw [valueAt_of_le (s := (a, vs)) hge, Option.none_or, valueAt, valueAt, if_pos hge,
      if_pos (Nat.le_of_add_right_le hge), List.getElem?_append_right (by omega), Nat.sub_sub]

/-- A segment that is cut has no value from the cut on. -/
theorem valueAt_take : valueAt (a, vs.take k) n = if n < a + k then valueAt (a, vs) n else none := by
  rw [valueAt, valueAt]
  by_cases hle : a ≤ n
  · rw [if_pos hle, if_pos hle, List.getElem?_take]
    exact if_congr (by omega) rfl rfl
  · rw [if_neg hle, if_neg hle, ite_self]

/-! ## Lists of segments -/

@[simp] theorem value_nil : value ([] : List (ℕ × List β)) n = none := rfl

@[simp] theorem value_cons : value (s :: ss) n = (valueAt s n).or (value ss n) := by
  rw [value, List.findSome?_cons]
  cases valueAt s n <;> rfl

@[simp] theorem value_append : value (lo ++ hi) n = (value lo n).or (value hi n) :=
  List.findSome?_append

theorem value_of_before (h : ∀ s ∈ ss, s.1 + s.2.length ≤ n) : value ss n = none :=
  List.findSome?_eq_none_iff.mpr fun s hs => valueAt_of_le (h s hs)

theorem value_of_after (h : ∀ s ∈ ss, n < s.1) : value ss n = none :=
  List.findSome?_eq_none_iff.mpr fun s hs => valueAt_of_lt (h s hs)

/-- What is left of the function below a number where the segments can be split. -/
theorem value_of_split (hlo : ∀ s ∈ lo, s.1 + s.2.length ≤ k) (hhi : ∀ s ∈ hi, k ≤ s.1) (n : ℕ) :
    value lo n = if n < k then value (lo ++ hi) n else none := by
  split
  · rename_i hlt
    rw [value_append, value_of_after fun s hs => hlt.trans_le (hhi s hs), Option.or_none]
  · rename_i hge
    exact value_of_before fun s hs => (hlo s hs).trans (not_lt.mp hge)

/-- A number that has no value before it gets one. -/
theorem value_insert (hk : value lo k = none) (n : ℕ) :
    value (lo ++ (k, [v]) :: hi) n = if n = k then some v else value (lo ++ hi) n := by
  rw [value_append, value_append, value_cons, valueAt_singleton]
  split
  · rename_i heq
    rw [heq, hk]
    rfl
  · rfl

/-- Joining two segments that touch changes no value. -/
theorem value_join :
    value (lo ++ (a, vs ++ ws) :: hi) n = value (lo ++ (a, vs) :: (a + vs.length, ws) :: hi) n := by
  rw [value_append, value_cons, valueAt_append, Option.or_assoc, value_append, value_cons, value_cons]

/-! ## Separated segments -/

theorem Separated.nil : Separated ([] : List (ℕ × List β)) := Ranges.Separated.nil

theorem separated_append_cons : Separated (lo ++ (a, vs) :: hi) ↔
    Separated (lo ++ hi) ∧ vs ≠ [] ∧ (∀ s ∈ lo, s.1 + s.2.length < a) ∧
      ∀ s ∈ hi, a + vs.length < s.1 := by
  have hne : a < a + vs.length ↔ vs ≠ [] := by
    rw [← List.length_pos_iff]
    omega
  rw [Separated, Separated, List.map_append, List.map_append, List.map_cons, ← hne]
  constructor
  · intro h
    obtain ⟨hrest, hlt, hlo, hhi⟩ := Ranges.Separated.around h
    exact ⟨hrest, hlt, fun s hs => hlo _ (List.mem_map_of_mem hs),
      fun s hs => hhi _ (List.mem_map_of_mem hs)⟩
  · rintro ⟨hrest, hlt, hlo, hhi⟩
    exact Ranges.Separated.insert hrest hlt (List.forall_mem_map.mpr hlo) (List.forall_mem_map.mpr hhi)

theorem Separated.sublist (h : Separated ss) (hsub : lo.Sublist ss) : Separated lo :=
  ⟨fun r hr => h.nonempty r ((hsub.map range).subset hr), h.apart.sublist (hsub.map range)⟩

/-- The segments are in the order of their first numbers. -/
theorem Separated.increasing (h : Separated ss) : OrderedMap.Increasing ss :=
  List.Pairwise.of_map range (fun _ _ hlt => hlt) (Ranges.Separated.increasing h)

/-- A segment that is cut between others. -/
theorem value_cut (h : Separated (lo ++ (a, vs) :: hi)) (k n : ℕ) :
    value (lo ++ (a, vs.take k) :: hi) n =
      if a + k ≤ n ∧ n < a + vs.length then none else value (lo ++ (a, vs) :: hi) n := by
  obtain ⟨-, -, hlo, hhi⟩ := separated_append_cons.mp h
  rw [value_append, value_append, value_cons, value_cons, valueAt_take]
  split
  · rename_i hlt
    rw [if_neg (by omega)]
  · rename_i hge
    rcases lt_or_ge n (a + vs.length) with hlt | hend
    · rw [if_pos ⟨by omega, hlt⟩, value_of_before fun s hs => by have := hlo s hs; omega,
        value_of_after fun s hs => by have := hhi s hs; omega]
      rfl
    · rw [if_neg (by omega), valueAt_of_le (s := (a, vs)) hend]

/-- The end of a segment has no value. -/
theorem value_end (h : Separated (lo ++ (a, vs) :: hi)) :
    value (lo ++ (a, vs) :: hi) (a + vs.length) = none := by
  obtain ⟨-, -, hlo, hhi⟩ := separated_append_cons.mp h
  rw [value_append, value_cons, value_of_before fun s hs => by have := hlo s hs; omega,
    valueAt_of_le (s := (a, vs)) le_rfl, value_of_after hhi]
  rfl

/-- The value at a number of a segment. -/
theorem value_of_mem (h : Separated (lo ++ (a, vs) :: hi)) (hn : a ≤ n) (hlt : n < a + vs.length) :
    value (lo ++ (a, vs) :: hi) n = vs[n - a]? := by
  obtain ⟨-, -, hlo, hhi⟩ := separated_append_cons.mp h
  rw [value_append, value_cons, value_of_before fun s hs => by have := hlo s hs; omega,
    value_of_after fun s hs => by have := hhi s hs; omega, Option.none_or, Option.or_none, valueAt,
    if_pos hn]

end CppSwc.Lib.Segments
