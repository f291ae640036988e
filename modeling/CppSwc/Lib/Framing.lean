import Mathlib.Data.List.Basic
import Mathlib.Tactic.Common

/-!
# Sequences of frames

A byte stream often is a sequence of items that each tell their own size.  Here a
*framing* is a function that reads the size of the first item off a sequence, and
its laws: the item is not empty, it is all there, and the size does not depend on
what follows the item.

`split` cuts a sequence into its items and `nth` finds the item at an index
without cutting the rest.  Cutting is inverse to writing one item after the other
(`split_flatten`, `flatten_of_split`), so that a sequence has one reading, and
`nth` agrees with it (`nth_of_split`).
-/

namespace CppSwc.Lib

universe u

/-- A way to read the size of the first item of a sequence. -/
structure Framing (α : Type u) where
  /-- The size of the first item. -/
  size : List α → Option Nat
  /-- Nothing starts in an empty sequence. -/
  size_nil : size [] = some 0
  /-- An item is not empty. -/
  size_pos : ∀ {l : List α} {k : Nat}, l ≠ [] → size l = some k → 0 < k
  /-- An item is all there. -/
  size_le : ∀ {l : List α} {k : Nat}, size l = some k → k ≤ l.length
  /-- The size is read off the item alone. -/
  size_take : ∀ {l : List α} {k : Nat} (rest : List α), l ≠ [] → size l = some k →
    size (l.take k ++ rest) = some k

namespace Framing

variable {α : Type u} (F : Framing α)

/-- A sequence that is one item, whatever follows. -/
structure Whole (x : List α) : Prop where
  ne_nil : x ≠ []
  size_append : ∀ rest, F.size (x ++ rest) = some x.length

/-- The items of a sequence.  The first argument bounds their number. -/
def splitUpTo : Nat → List α → Option (List (List α))
  | _, [] => some []
  | 0, _ :: _ => none
  | n + 1, a :: l =>
      (F.size (a :: l)).bind fun k =>
        (splitUpTo n ((a :: l).drop k)).map ((a :: l).take k :: ·)

/-- The items of a sequence. -/
def split (l : List α) : Option (List (List α)) := F.splitUpTo l.length l

/-- The item at an index, empty past the end. -/
def nth : Nat → List α → Option (List α)
  | 0, l => (F.size l).map fun k => l.take k
  | i + 1, l => (F.size l).bind fun k => if k = 0 then some [] else nth i (l.drop k)

variable {F}

/-- The first item of a sequence is whole. -/
theorem whole_take {l : List α} {k : Nat} (hne : l ≠ []) (h : F.size l = some k) :
    F.Whole (l.take k) where
  ne_nil := by
    intro hnil
    rcases List.take_eq_nil_iff.mp hnil with hzero | hl
    · exact absurd hzero (Nat.ne_of_gt (F.size_pos hne h))
    · exact hne hl
  size_append rest := by
    rw [F.size_take rest hne h, List.length_take, Nat.min_eq_left (F.size_le h)]

/-- One step of `splitUpTo`. -/
theorem splitUpTo_eq_some {n : Nat} {l : List α} {xs : List (List α)} (hne : l ≠ [])
    (h : F.splitUpTo n l = some xs) :
    ∃ m k rest, n = m + 1 ∧ F.size l = some k ∧ F.splitUpTo m (l.drop k) = some rest ∧
      xs = l.take k :: rest := by
  cases l with
  | nil => exact absurd rfl hne
  | cons a l =>
      cases n with
      | zero => simp [splitUpTo] at h
      | succ n =>
          simp only [splitUpTo, Option.bind_eq_some_iff, Option.map_eq_some_iff] at h
          obtain ⟨k, hk, rest, hrest, rfl⟩ := h
          exact ⟨n, k, rest, rfl, hk, hrest, rfl⟩

/-- Cutting a sequence gives items that are whole and write the sequence. -/
theorem of_splitUpTo {n : Nat} {l : List α} {xs : List (List α)}
    (h : F.splitUpTo n l = some xs) : xs.flatten = l ∧ ∀ x ∈ xs, F.Whole x := by
  induction n generalizing l xs with
  | zero =>
      cases l with
      | nil =>
          simp only [splitUpTo, Option.some.injEq] at h
          simp [← h]
      | cons a l => simp [splitUpTo] at h
  | succ n ih =>
      by_cases hne : l = []
      · subst hne
        simp only [splitUpTo, Option.some.injEq] at h
        simp [← h]
      · obtain ⟨m, k, rest, hm, hk, hrest, rfl⟩ := splitUpTo_eq_some hne h
        obtain rfl : n = m := by omega
        obtain ⟨hflat, hwhole⟩ := ih hrest
        constructor
        · rw [List.flatten_cons, hflat, List.take_append_drop]
        · intro x hx
          rcases List.mem_cons.mp hx with rfl | hx
          · exact whole_take hne hk
          · exact hwhole x hx

/-- Writing the items of a sequence gives the sequence. -/
theorem flatten_of_split {l : List α} {xs : List (List α)} (h : F.split l = some xs) :
    xs.flatten = l :=
  (of_splitUpTo h).1

/-- The items of a sequence are whole. -/
theorem whole_of_split {l : List α} {xs : List (List α)} (h : F.split l = some xs) :
    ∀ x ∈ xs, F.Whole x :=
  (of_splitUpTo h).2

/-- Whole items written one after the other are read back. -/
theorem splitUpTo_flatten {xs : List (List α)} {n : Nat} (h : ∀ x ∈ xs, F.Whole x)
    (hn : xs.flatten.length ≤ n) : F.splitUpTo n xs.flatten = some xs := by
  induction xs generalizing n with
  | nil => cases n <;> rfl
  | cons x xs ih =>
      have hx := h x (.head _)
      have hpos : 0 < x.length := List.length_pos_of_ne_nil hx.ne_nil
      rw [List.flatten_cons, List.length_append] at hn
      have htail := ih (fun y hy => h y (.tail _ hy)) (show xs.flatten.length ≤ n - 1 by omega)
      have hsize := hx.size_append xs.flatten
      rw [List.flatten_cons]
      cases x with
      | nil => exact absurd rfl hx.ne_nil
      | cons a x =>
          cases n with
          | zero => simp at hn
          | succ n =>
              have hdrop : ((a :: x) ++ xs.flatten).drop (a :: x).length = xs.flatten := by simp
              have htake : ((a :: x) ++ xs.flatten).take (a :: x).length = a :: x := by simp
              rw [List.cons_append] at hsize hdrop htake ⊢
              simp only [splitUpTo, hsize, Option.bind_some, hdrop, htake]
              rw [Nat.add_sub_cancel] at htail
              rw [htail]
              rfl

/-- **Whole items written one after the other are read back.** -/
theorem split_flatten {xs : List (List α)} (h : ∀ x ∈ xs, F.Whole x) :
    F.split xs.flatten = some xs :=
  splitUpTo_flatten h (Nat.le_refl _)

/-- So a sequence has one reading. -/
theorem flatten_injective {xs ys : List (List α)} (hx : ∀ x ∈ xs, F.Whole x)
    (hy : ∀ y ∈ ys, F.Whole y) (h : xs.flatten = ys.flatten) : xs = ys := by
  have hread := split_flatten hx
  rw [h, split_flatten hy] at hread
  exact (Option.some.inj hread).symm

/-- A sequence is some items and a rest, which is empty or starts with none. -/
theorem exists_items (F : Framing α) (l : List α) : ∃ (xs : List (List α)) (rest : List α),
    l = xs.flatten ++ rest ∧ (∀ x ∈ xs, F.Whole x) ∧ (rest ≠ [] → F.size rest = none) := by
  induction hn : l.length using Nat.strongRecOn generalizing l with
  | _ n ih =>
      by_cases hne : l = []
      · exact ⟨[], [], by simp [hne], by simp, by simp⟩
      cases hsize : F.size l with
      | none => exact ⟨[], l, rfl, by simp, fun _ => hsize⟩
      | some k =>
          have hk := F.size_pos hne hsize
          have hlt : (l.drop k).length < n := by
            rw [List.length_drop, ← hn]
            have := List.length_pos_of_ne_nil hne
            omega
          obtain ⟨xs, rest, hl, hxs, hrest⟩ := ih _ hlt (l.drop k) rfl
          refine ⟨l.take k :: xs, rest, ?_, ?_, hrest⟩
          · rw [List.flatten_cons, List.append_assoc, ← hl, List.take_append_drop]
          · intro x hx
            rcases List.mem_cons.mp hx with rfl | hx
            · exact whole_take hne hsize
            · exact hxs x hx

/-- A whole item in front is read as one. -/
theorem size_flatten_append {x : List α} (hx : F.Whole x) (xs : List (List α)) (rest : List α) :
    F.size ((x :: xs).flatten ++ rest) = some x.length := by
  rw [List.flatten_cons, List.append_assoc]
  exact hx.size_append _

/-- How a sequence is cut is determined by it. -/
theorem items_unique {xs ys : List (List α)} {r t : List α} (hx : ∀ x ∈ xs, F.Whole x)
    (hy : ∀ y ∈ ys, F.Whole y) (hr : F.size r = none) (ht : F.size t = none)
    (h : xs.flatten ++ r = ys.flatten ++ t) : xs = ys ∧ r = t := by
  induction xs generalizing ys with
  | nil =>
      cases ys with
      | nil => exact ⟨rfl, h⟩
      | cons y ys =>
          have hsize := size_flatten_append (hy y (.head _)) ys t
          rw [← h, List.flatten_nil, List.nil_append, hr] at hsize
          cases hsize
  | cons x xs ih =>
      have hsize := size_flatten_append (hx x (.head _)) xs r
      cases ys with
      | nil =>
          rw [h, List.flatten_nil, List.nil_append, ht] at hsize
          cases hsize
      | cons y ys =>
          rw [h, size_flatten_append (hy y (.head _)) ys t] at hsize
          rw [List.flatten_cons, List.flatten_cons, List.append_assoc, List.append_assoc] at h
          obtain ⟨rfl, htail⟩ := List.append_inj h (Option.some.inj hsize).symm
          obtain ⟨rfl, rfl⟩ :=
            ih (fun z hz => hx z (.tail _ hz)) (fun z hz => hy z (.tail _ hz)) htail
          exact ⟨rfl, rfl⟩

/-- Past the end there is nothing. -/
theorem nth_nil (i : Nat) : F.nth i [] = some [] := by
  cases i with
  | zero => simp [nth, F.size_nil]
  | succ i => simp [nth, F.size_nil]

/-- Reading by index finds the written items. -/
theorem nth_flatten {xs : List (List α)} (h : ∀ x ∈ xs, F.Whole x) (i : Nat) :
    F.nth i xs.flatten = some (xs.getD i []) := by
  induction xs generalizing i with
  | nil => simpa using nth_nil i
  | cons x xs ih =>
      have hx := h x (.head _)
      have hsize := hx.size_append xs.flatten
      rw [List.flatten_cons]
      cases i with
      | zero => simp [nth, hsize]
      | succ i =>
          have hpos : x.length ≠ 0 := Nat.ne_of_gt (List.length_pos_of_ne_nil hx.ne_nil)
          simp only [nth, hsize, Option.bind_some, if_neg hpos,
            List.drop_left, List.getD_cons_succ]
          exact ih (fun y hy => h y (.tail _ hy)) i

/-- **Reading by index agrees with cutting.** -/
theorem nth_of_split {l : List α} {xs : List (List α)} (h : F.split l = some xs) (i : Nat) :
    F.nth i l = some (xs.getD i []) := by
  rw [← flatten_of_split h]
  exact nth_flatten (whole_of_split h) i

end Framing

end CppSwc.Lib
