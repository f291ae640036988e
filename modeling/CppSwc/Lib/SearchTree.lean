import Mathlib.Data.List.Basic

/-!
# Search trees with a comparison that may change

`emplace` descends a binary tree with a comparison and puts a new element where it
falls off, as a multiset does.  It asks only whether the new element goes before an
element of the tree, and nothing says that the tree is sorted for that comparison:
a comparison that changes between two insertions leaves the old order in place.
`emplace_cut` is what holds in any case: the new element comes to stand between an
element it does not go before and one it goes before.

The comparison may fail, and then so does the insertion.  A tree may be rebalanced
into any tree with the same elements in the same order.
-/

namespace CppSwc.Lib

universe u v

/-- A binary tree with its elements at the nodes. -/
inductive SearchTree (α : Type u) where
  | leaf
  | node (left : SearchTree α) (value : α) (right : SearchTree α)

namespace SearchTree

variable {α : Type u} {ε : Type v}

/-- The elements in order. -/
def toList : SearchTree α → List α
  | leaf => []
  | node l a r => l.toList ++ a :: r.toList

/-- Where `x` falls off the tree: left of the elements it goes before, right of the
others. -/
def emplace (goesBefore : α → Except ε Bool) (x : α) : SearchTree α → Except ε (SearchTree α)
  | leaf => .ok (node leaf x leaf)
  | node l a r =>
      match goesBefore a with
      | .error e => .error e
      | .ok true => (l.emplace goesBefore x).map (node · a r)
      | .ok false => (r.emplace goesBefore x).map (node l a ·)

/-- The first element and the rest. -/
def popFirst : SearchTree α → Option (α × SearchTree α)
  | leaf => none
  | node l a r =>
      match l.popFirst with
      | none => some (a, r)
      | some (b, l) => some (b, node l a r)

/-- The subtrees of a node that goes away: the next element takes its place. -/
def join (l r : SearchTree α) : SearchTree α :=
  match r.popFirst with
  | none => l
  | some (b, r) => node l b r

/-- The tree without a node. -/
def erase [DecidableEq α] (x : α) : SearchTree α → SearchTree α
  | leaf => leaf
  | node l a r =>
      if x ∈ l.toList then node (l.erase x) a r
      else if a = x then l.join r
      else node l a (r.erase x)

theorem toList_popFirst {t : SearchTree α} :
    t.toList = (match t.popFirst with | none => [] | some (a, r) => a :: r.toList) := by
  induction t with
  | leaf => rfl
  | node l a r ihl _ =>
      rw [toList, ihl, popFirst]
      cases l.popFirst with
      | none => rfl
      | some p => rfl

@[simp] theorem toList_join (l r : SearchTree α) : (l.join r).toList = l.toList ++ r.toList := by
  rw [join, toList_popFirst (t := r)]
  cases r.popFirst with
  | none => simp
  | some p => rfl

@[simp] theorem toList_erase [DecidableEq α] (x : α) (t : SearchTree α) :
    (t.erase x).toList = t.toList.erase x := by
  induction t with
  | leaf => rfl
  | node l a r ihl ihr =>
      rw [erase, toList]
      split
      · rename_i hmem
        rw [toList, ihl, List.erase_append_left _ hmem]
      · rename_i hmem
        rw [List.erase_append_right _ hmem]
        split
        · rename_i heq
          rw [toList_join, heq, List.erase_cons_head]
        · rename_i hne
          rw [toList, ihr, List.erase_cons_tail (by simpa using hne)]

/-- An insertion fails only if a comparison does. -/
theorem exists_emplace {goesBefore : α → Except ε Bool} {x : α} {t : SearchTree α}
    (h : ∀ a ∈ t.toList, ∃ b, goesBefore a = .ok b) : ∃ t', t.emplace goesBefore x = .ok t' := by
  induction t with
  | leaf => exact ⟨_, rfl⟩
  | node l a r ihl ihr =>
      rw [toList] at h
      obtain ⟨b, hb⟩ := h a (by simp)
      rw [emplace, hb]
      cases b with
      | true =>
          obtain ⟨l', hl'⟩ := ihl fun a' ha' => h a' (List.mem_append_left _ ha')
          rw [hl']
          exact ⟨_, rfl⟩
      | false =>
          obtain ⟨r', hr'⟩ := ihr fun a' ha' => h a' (by simp [ha'])
          rw [hr']
          exact ⟨_, rfl⟩

/-- The new element stands right after an element it does not go before, or first,
and right before one it goes before, or last. -/
theorem emplace_cut {goesBefore : α → Except ε Bool} {x : α} {t t' : SearchTree α}
    (h : t.emplace goesBefore x = .ok t') :
    ∃ xs ys, t.toList = xs ++ ys ∧ t'.toList = xs ++ x :: ys ∧
      (∀ a ∈ xs.getLast?, goesBefore a = .ok false) ∧
      (∀ a ∈ ys.head?, goesBefore a = .ok true) := by
  induction t generalizing t' with
  | leaf =>
      cases h
      exact ⟨[], [], rfl, rfl, nofun, nofun⟩
  | node l a r ihl ihr =>
      rw [emplace] at h
      cases hb : goesBefore a with
      | error e =>
          rw [hb] at h
          cases h
      | ok b =>
          rw [hb] at h
          cases b with
          | true =>
              cases hl : l.emplace goesBefore x with
              | error e =>
                  rw [hl] at h
                  cases h
              | ok l' =>
                  rw [hl] at h
                  cases h
                  obtain ⟨xs, ys, hold, hnew, hlast, hhead⟩ := ihl hl
                  refine ⟨xs, ys ++ a :: r.toList, ?_, ?_, hlast, ?_⟩
                  · rw [toList, hold, List.append_assoc]
                  · rw [toList, hnew, List.append_assoc, List.cons_append]
                  · intro a' ha'
                    cases ys with
                    | nil =>
                        cases ha'
                        exact hb
                    | cons y ys => exact hhead a' ha'
          | false =>
              cases hr : r.emplace goesBefore x with
              | error e =>
                  rw [hr] at h
                  cases h
              | ok r' =>
                  rw [hr] at h
                  cases h
                  obtain ⟨xs, ys, hold, hnew, hlast, hhead⟩ := ihr hr
                  refine ⟨l.toList ++ a :: xs, ys, ?_, ?_, ?_, hhead⟩
                  · rw [toList, hold, List.append_assoc, List.cons_append]
                  · rw [toList, hnew, List.append_assoc, List.cons_append]
                  · intro a' ha'
                    rw [List.getLast?_append_cons] at ha'
                    cases xs with
                    | nil =>
                        cases ha'
                        exact hb
                    | cons y ys =>
                        rw [List.getLast?_cons_cons] at ha'
                        exact hlast a' ha'

/-! ## Neighbours of a cut -/

/-- An element stands in front of the last one, or is the last one. -/
theorem rel_getLast_of_pairwise {R : α → α → Prop} {l : List α} {y z : α}
    (h : l.Pairwise R) (hz : l.getLast? = some z) (hy : y ∈ l) : y = z ∨ R y z := by
  obtain ⟨l', rfl⟩ := List.getLast?_eq_some_iff.mp hz
  rcases List.mem_append.mp hy with hy | hy
  · exact .inr ((List.pairwise_append.mp h).2.2 y hy z (List.mem_singleton.mpr rfl))
  · exact .inl (List.mem_singleton.mp hy)

/-- It stands behind the first one, or is the first one. -/
theorem rel_head_of_pairwise {R : α → α → Prop} {l : List α} {y z : α}
    (h : l.Pairwise R) (hz : l.head? = some z) (hy : y ∈ l) : y = z ∨ R z y := by
  obtain ⟨l', rfl⟩ := List.head?_eq_some_iff.mp hz
  rcases List.mem_cons.mp hy with hy | hy
  · exact .inl hy
  · exact .inr ((List.pairwise_cons.mp h).1 y hy)

end SearchTree

/-- A way to rebalance trees: the shape changes and the order does not. -/
structure Balance (α : Type u) where
  /-- The tree after rebalancing. -/
  rebalance : SearchTree α → SearchTree α
  /-- The order is kept. -/
  toList_rebalance : ∀ t, (rebalance t).toList = t.toList

attribute [simp] Balance.toList_rebalance

/-- Trees that are left as they are. -/
def Balance.none (α : Type u) : Balance α where
  rebalance t := t
  toList_rebalance _ := rfl

end CppSwc.Lib
