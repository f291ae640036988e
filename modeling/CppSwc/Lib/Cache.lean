import Mathlib.Logic.Function.Basic
import Mathlib.Tactic.Common

/-!
# Read-through caches

A table of a database and a cache over it, which a lookup fills and which keeps what it
holds when the table is written.  `Fits cache table k v` says that a lookup of `k` gives
`v`, from the cache or from the table, and will after the entry was evicted.
-/

namespace CppSwc.Lib.Cache

universe u v

variable {κ : Type u} {υ : Type v} [DecidableEq κ] {cache cache' table : κ → Option υ}
  {l : List (κ × υ)} {k k' : κ} {v : υ}

/-- What a lookup gives. -/
def lookup (cache table : κ → Option υ) (k : κ) : Option υ := (cache k).or (table k)

/-- The cache after a lookup. -/
def load (cache table : κ → Option υ) (k : κ) : κ → Option υ :=
  Function.update cache k (lookup cache table k)

/-- The table after some writes. -/
def write (table : κ → Option υ) (l : List (κ × υ)) : κ → Option υ :=
  l.foldl (fun t e => Function.update t e.1 (some e.2)) table

/-- The cache holds the value or nothing. -/
def Open (cache : κ → Option υ) (k : κ) (v : υ) : Prop := cache k = none ∨ cache k = some v

/-- The table holds the value, and the cache does not say otherwise. -/
def Fits (cache table : κ → Option υ) (k : κ) (v : υ) : Prop :=
  table k = some v ∧ Open cache k v

/-- A lookup that the cache answers leaves it. -/
theorem load_of_hit (h : cache k = some v) : load cache table k = cache := by
  rw [load, lookup, h, Option.some_or, ← h, Function.update_eq_self]

/-- So does one that nothing answers. -/
theorem load_of_miss (hc : cache k = none) (ht : table k = none) :
    load cache table k = cache := by
  rw [load, lookup, hc, ht, Option.none_or, ← hc, Function.update_eq_self]

/-- What the table answers is stored. -/
theorem load_of_none (hc : cache k = none) (ht : table k = some v) :
    load cache table k = Function.update cache k (some v) := by
  rw [load, lookup, hc, ht, Option.none_or]

omit [DecidableEq κ] in
theorem lookup_of_hit (h : cache k = some v) : lookup cache table k = some v := by
  rw [lookup, h, Option.some_or]

omit [DecidableEq κ] in
theorem lookup_of_none (h : cache k = none) : lookup cache table k = table k := by
  rw [lookup, h, Option.none_or]

omit [DecidableEq κ] in
/-- Over the right table, a lookup is right exactly if the cache is open. -/
theorem lookup_eq_iff (h : table k = some v) : lookup cache table k = some v ↔ Open cache k v := by
  unfold lookup Open
  cases hc : cache k with
  | none => simp [h]
  | some w => simp

omit [DecidableEq κ] in
theorem Fits.lookup_eq (h : Fits cache table k v) : lookup cache table k = some v :=
  (lookup_eq_iff h.1).mpr h.2

omit [DecidableEq κ] in
/-- Entries may be dropped. -/
theorem Open.evict (h : Open cache k v) (hc : cache' k = none ∨ cache' k = cache k) :
    Open cache' k v := by
  rcases hc with hc | hc
  · exact .inl hc
  · rw [Open, hc]
    exact h

/-- Lookups keep what fits. -/
theorem Fits.load (h : Fits cache table k v) (k' : κ) : Fits (load cache table k') table k v := by
  refine ⟨h.1, ?_⟩
  by_cases hk : k = k'
  · subst hk
    exact .inr (by rw [Cache.load, Function.update_self, h.lookup_eq])
  · exact h.2.evict (.inr (by rw [Cache.load, Function.update_of_ne hk]))

/-- What is not written stays. -/
theorem write_of_notMem (h : ∀ v, (k, v) ∉ l) : write table l k = table k := by
  induction l generalizing table with
  | nil => rfl
  | cons e l ih =>
      have hne : k ≠ e.1 := by
        rintro rfl
        exact h e.2 List.mem_cons_self
      rw [write, List.foldl_cons, ← write, ih fun v hv => h v (List.mem_cons_of_mem _ hv),
        Function.update_of_ne hne]

/-- What is written with one value has it. -/
theorem write_of_mem (h : (k, v) ∈ l) (huniq : ∀ w, (k, w) ∈ l → w = v) :
    write table l k = some v := by
  induction l generalizing table with
  | nil => cases h
  | cons e l ih =>
      rw [write, List.foldl_cons, ← write]
      by_cases hl : ∃ w, (k, w) ∈ l
      · obtain ⟨w, hw⟩ := hl
        obtain rfl : w = v := huniq w (List.mem_cons_of_mem _ hw)
        exact ih hw fun w' hw' => huniq w' (List.mem_cons_of_mem _ hw')
      · have hnot : ∀ w, (k, w) ∉ l := fun w hw => hl ⟨w, hw⟩
        rcases List.mem_cons.mp h with rfl | hv
        · rw [write_of_notMem hnot, Function.update_self]
        · exact absurd hv (hnot v)

/-- What the table has in the end was written, or was there. -/
theorem mem_or_of_write (h : write table l k = some v) : (k, v) ∈ l ∨ table k = some v := by
  induction l generalizing table with
  | nil => exact .inr h
  | cons e l ih =>
      rw [write, List.foldl_cons, ← write] at h
      rcases ih h with hmem | htable
      · exact .inl (List.mem_cons_of_mem _ hmem)
      · by_cases hk : k = e.1
        · subst hk
          rw [Function.update_self, Option.some_inj] at htable
          subst htable
          exact .inl List.mem_cons_self
        · rw [Function.update_of_ne hk] at htable
          exact .inr htable

theorem write_append (table : κ → Option υ) (l l' : List (κ × υ)) :
    write table (l ++ l') = write (write table l) l' :=
  List.foldl_append

end CppSwc.Lib.Cache
