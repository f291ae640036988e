import Mathlib.Order.Lattice
import Mathlib.Data.List.TakeWhile

/-!
# Ordered maps as lists

An ordered map is the list of its entries, the keys in increasing order.  A search for a key
splits the list in the entries up to the key and the ones past it, and what a function does to
the map is stated at such a split.
-/

namespace CppSwc.Lib.OrderedMap

variable {κ β : Type*} [LinearOrder κ]

/-- The entries before the first one with a larger key. -/
def upTo (k : κ) (m : List (κ × β)) : List (κ × β) := m.takeWhile fun e => decide (e.1 ≤ k)

/-- The entries from the first one with a larger key on. -/
def past (k : κ) (m : List (κ × β)) : List (κ × β) := m.dropWhile fun e => decide (e.1 ≤ k)

/-- The entries before the first one whose key is not smaller. -/
def below (k : κ) (m : List (κ × β)) : List (κ × β) := m.takeWhile fun e => decide (e.1 < k)

/-- The entries from the first one whose key is not smaller on. -/
def notBelow (k : κ) (m : List (κ × β)) : List (κ × β) := m.dropWhile fun e => decide (e.1 < k)

/-- The value at a key is set. -/
def assign (k : κ) (v : β) : List (κ × β) → List (κ × β)
  | [] => [(k, v)]
  | e :: m =>
      if e.1 < k then e :: assign k v m else if e.1 = k then (k, v) :: m else (k, v) :: e :: m

/-- The entry at a key is taken out. -/
def erase (k : κ) (m : List (κ × β)) : List (κ × β) := m.filter fun e => decide (e.1 ≠ k)

/-- The keys increase. -/
def Increasing (m : List (κ × β)) : Prop := m.Pairwise fun e f => e.1 < f.1

variable {k : κ} {v w : β} {m lo hi : List (κ × β)}

@[simp] theorem upTo_append_past (k : κ) (m : List (κ × β)) : upTo k m ++ past k m = m :=
  List.takeWhile_append_dropWhile

theorem le_of_mem_upTo {e : κ × β} (h : e ∈ upTo k m) : e.1 ≤ k :=
  of_decide_eq_true (List.mem_takeWhile_imp (p := fun e : κ × β => decide (e.1 ≤ k)) h)

theorem lt_of_mem_past (hm : Increasing m) {e : κ × β} (h : e ∈ past k m) : k < e.1 := by
  induction m with
  | nil => cases h
  | cons f m ih =>
      rw [Increasing, List.pairwise_cons] at hm
      rw [past, List.dropWhile_cons] at h
      split at h
      · exact ih hm.2 h
      · rename_i hf
        have hkf : k < f.1 := lt_of_not_ge fun hle => hf (decide_eq_true hle)
        rcases List.mem_cons.mp h with rfl | h
        · exact hkf
        · exact hkf.trans (hm.1 e h)

@[simp] theorem below_append_notBelow (k : κ) (m : List (κ × β)) : below k m ++ notBelow k m = m :=
  List.takeWhile_append_dropWhile

theorem lt_of_mem_below {e : κ × β} (h : e ∈ below k m) : e.1 < k :=
  of_decide_eq_true (List.mem_takeWhile_imp (p := fun e : κ × β => decide (e.1 < k)) h)

theorem le_of_mem_notBelow (hm : Increasing m) {e : κ × β} (h : e ∈ notBelow k m) : k ≤ e.1 := by
  induction m with
  | nil => cases h
  | cons f m ih =>
      rw [Increasing, List.pairwise_cons] at hm
      rw [notBelow, List.dropWhile_cons] at h
      split at h
      · exact ih hm.2 h
      · rename_i hf
        have hkf : k ≤ f.1 := le_of_not_gt fun hlt => hf (decide_eq_true hlt)
        rcases List.mem_cons.mp h with rfl | h
        · exact hkf
        · exact hkf.trans (hm.1 e h).le

/-- Setting a key goes past the smaller keys. -/
theorem assign_append (hlo : ∀ e ∈ lo, e.1 < k) :
    assign k v (lo ++ hi) = lo ++ assign k v hi := by
  induction lo with
  | nil => rfl
  | cons e lo ih =>
      rw [List.cons_append, assign, if_pos (hlo e (.head _)),
        ih fun f hf => hlo f (.tail _ hf), List.cons_append]

/-- A new key is put before the larger ones. -/
theorem assign_of_lt (hhi : ∀ e ∈ hi, k < e.1) : assign k v hi = (k, v) :: hi := by
  cases hi with
  | nil => rfl
  | cons e hi =>
      have hk := hhi e (.head _)
      rw [assign, if_neg hk.asymm, if_neg hk.ne']

theorem assign_insert (hlo : ∀ e ∈ lo, e.1 < k) (hhi : ∀ e ∈ hi, k < e.1) :
    assign k v (lo ++ hi) = lo ++ (k, v) :: hi := by
  rw [assign_append hlo, assign_of_lt hhi]

/-- The value of a key that is there is replaced. -/
theorem assign_replace (hlo : ∀ e ∈ lo, e.1 < k) :
    assign k v (lo ++ (k, w) :: hi) = lo ++ (k, v) :: hi := by
  rw [assign_append hlo, assign, if_neg (lt_irrefl k), if_pos rfl]

theorem erase_of_ne (h : ∀ e ∈ m, e.1 ≠ k) : erase k m = m :=
  List.filter_eq_self.mpr fun e he => decide_eq_true (h e he)

theorem erase_append_cons (hlo : ∀ e ∈ lo, e.1 ≠ k) (hhi : ∀ e ∈ hi, e.1 ≠ k) :
    erase k (lo ++ (k, w) :: hi) = lo ++ hi := by
  rw [erase, List.filter_append, List.filter_cons_of_neg (by simp)]
  exact congrArg₂ _ (erase_of_ne hlo) (erase_of_ne hhi)

end CppSwc.Lib.OrderedMap
