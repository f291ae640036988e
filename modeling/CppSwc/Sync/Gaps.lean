import Mathlib.Order.Bounds.Basic
import CppSwc.Lib.Tree
import CppSwc.Sync.Request

/-!
# The next headers to ask for

`requestHeads` walks the entries in their order beside a counter, and stops where
the two part.  Up to there no number is missing, and from the counter to the entry
every number is.
-/

namespace CppSwc

open Lib

namespace Request

variable {blocks : Std.ExtTreeMap Nat Blocker} {first : Nat}

/-! ## Gaps -/

/-- No number is missing from `first` up to a key. -/
def Contiguous (blocks : Std.ExtTreeMap Nat Blocker) (first : Nat) : Prop :=
  ∀ n, first ≤ n → ∀ k ∈ blocks, n ≤ k → n ∈ blocks

/-- The first gap above `first`: `count` numbers from `start` on. -/
structure FirstGap (blocks : Std.ExtTreeMap Nat Blocker) (first start count : Nat) : Prop where
  /-- The gap is one. -/
  pos : 1 ≤ count
  /-- It is in front of an entry. -/
  above : start + count ∈ blocks
  /-- It comes after an entry. -/
  below : 1 ≤ start ∧ start - 1 ∈ blocks
  /-- Its numbers are missing. -/
  missing : ∀ n, start ≤ n → n < start + count → n ∉ blocks
  /-- No number before it is missing. -/
  filled : ∀ n, first ≤ n → n ≤ start - 1 → n ∈ blocks

/-- A gap ends the contiguous part. -/
theorem FirstGap.not_contiguous {start count : Nat} (hfirst : IsLeast {n | n ∈ blocks} first)
    (h : FirstGap blocks first start count) : ¬ Contiguous blocks first := by
  intro hall
  have hpos := h.pos
  have hle := hfirst.2 h.below.2
  have hstart := h.below.1
  exact h.missing start (le_refl start) (by omega)
    (hall start (by omega) _ h.above (Nat.le_add_right start count))

/-! ## The walk -/

/-- What the walk finds in entries that begin at the counter or above it. -/
theorem firstGap_spec {l : List (Nat × Blocker)} {number : Nat}
    (hsorted : l.Pairwise fun a b => a.1 < b.1) (hle : ∀ e ∈ l, number ≤ e.1) :
    (firstGap number l = none ∧
      ∀ n, number ≤ n → ∀ e ∈ l, n ≤ e.1 → n ∈ l.map Prod.fst) ∨
    ∃ start next, firstGap number l = some (start, next) ∧ number ≤ start ∧ start < next ∧
      next ∈ l.map Prod.fst ∧ (∀ n, start ≤ n → n < next → n ∉ l.map Prod.fst) ∧
      ∀ n, number ≤ n → n < start → n ∈ l.map Prod.fst := by
  induction l generalizing number with
  | nil =>
      refine .inl ⟨rfl, ?_⟩
      intro n _ e he
      cases he
  | cons e l ih =>
      rw [List.pairwise_cons] at hsorted
      have hfirst := hle e (.head _)
      simp only [firstGap, List.map_cons, List.mem_cons]
      by_cases hsame : e.1 = number
      · rw [if_pos hsame]
        have hmore : ∀ e' ∈ l, number + 1 ≤ e'.1 := by
          intro e' he'
          have := hsorted.1 e' he'
          omega
        rcases ih hsorted.2 hmore with
          ⟨hnone, hfill⟩ | ⟨start, next, hsome, hstart, hlt, hnext, hmiss, hfill⟩
        · refine .inl ⟨hnone, ?_⟩
          rintro n hn e' (rfl | he') hne
          · exact .inl (by omega)
          · by_cases hnumber : n = number
            · exact .inl (by omega)
            · exact .inr (hfill n (by omega) e' he' hne)
        · refine .inr ⟨start, next, hsome, by omega, hlt, .inr hnext, ?_, ?_⟩
          · rintro n hn hlt' (heq | hmem)
            · omega
            · exact hmiss n hn hlt' hmem
          · intro n hn hlt'
            by_cases hnumber : n = number
            · exact .inl (by omega)
            · exact .inr (hfill n (by omega) hlt')
      · rw [if_neg hsame]
        refine .inr ⟨number, e.1, rfl, le_refl number, by omega, .inl rfl, ?_, ?_⟩
        · rintro n hn hlt (heq | hmem)
          · omega
          · obtain ⟨e', he', rfl⟩ := List.mem_map.mp hmem
            have := hsorted.1 e' he'
            omega
        · intro n hn hlt
          omega

variable {r : Request}

/-- A number is a key if it is that of an entry in the list. -/
theorem mem_blocks_iff {n : Nat} : n ∈ r.blocks ↔ n ∈ r.blocks.toList.map Prod.fst := by
  rw [Std.ExtTreeMap.map_fst_toList_eq_keys, Std.ExtTreeMap.mem_keys]

/-- The first entry has the least number. -/
theorem isLeast_of_toList {e : Nat × Blocker} {es : List (Nat × Blocker)}
    (h : r.blocks.toList = e :: es) : IsLeast {n | n ∈ r.blocks} e.1 := by
  have hsorted := pairwise_lt_toList r.blocks
  rw [h, List.pairwise_cons] at hsorted
  constructor
  · apply mem_blocks_iff.mpr
    rw [h]
    exact .head _
  · intro n hn
    have hmem := mem_blocks_iff.mp hn
    rw [h, List.map_cons, List.mem_cons] at hmem
    rcases hmem with rfl | hn
    · exact le_refl e.1
    · obtain ⟨e', he', rfl⟩ := List.mem_map.mp hn
      exact (hsorted.1 e' he').le

/-- What `requestHeads` gives with a lowest entry: its number if nothing is missing
above it, otherwise the first gap. -/
theorem requestHeads_cases (hfirst : IsLeast {n | n ∈ r.blocks} first) :
    (r.requestHeads = .ok (0, first) ∧ Contiguous r.blocks first) ∨
    ∃ start count, r.requestHeads = .ok (start, count) ∧ FirstGap r.blocks first start count := by
  simp only [requestHeads, Contiguous]
  cases hlist : r.blocks.toList with
  | nil =>
      have hnone := mem_blocks_iff.mp hfirst.1
      rw [hlist] at hnone
      cases hnone
  | cons e es =>
      have hsorted := pairwise_lt_toList r.blocks
      rw [hlist, List.pairwise_cons] at hsorted
      have hmem : ∀ n, n ∈ r.blocks ↔ n = e.1 ∨ n ∈ es.map Prod.fst := by
        intro n
        rw [mem_blocks_iff, hlist, List.map_cons, List.mem_cons]
      have hleast : e.1 = first := (isLeast_of_toList hlist).unique hfirst
      rcases @firstGap_spec es (e.1 + 1) hsorted.2 hsorted.1 with
        ⟨hnone, hfill⟩ | ⟨start, next, hsome, hstart, hlt, hnext, hmiss, hfill⟩
      · refine .inl ⟨?_, ?_⟩
        · dsimp only
          rw [hnone, hleast]
        · intro n hn k hk hnk
          rw [hmem] at hk ⊢
          by_cases hlow : n = e.1
          · exact .inl hlow
          · rcases hk with rfl | hk
            · omega
            · obtain ⟨e', he', rfl⟩ := List.mem_map.mp hk
              exact .inr (hfill n (by omega) e' he' hnk)
      · refine .inr ⟨start, next - start, ?_, ?_⟩
        · dsimp only
          rw [hsome]
          dsimp only
          rw [if_neg (by omega)]
        · have hsum : start + (next - start) = next := by omega
          constructor
          · omega
          · rw [hsum, hmem]
            exact .inr hnext
          · refine ⟨by omega, ?_⟩
            rw [hmem]
            by_cases hlow : start - 1 = e.1
            · exact .inl hlow
            · exact .inr (hfill _ (by omega) (by omega))
          · intro n hn hlt'
            rw [hsum] at hlt'
            rw [hmem]
            rintro (heq | hin)
            · omega
            · exact hmiss n hn hlt' hin
          · intro n hn hlt'
            rw [hmem]
            by_cases hlow : n = e.1
            · exact .inl hlow
            · exact .inr (hfill n (by omega) (by omega))

/-- The gaps in the buffer are in front of higher numbers, so the assertion holds. -/
theorem requestHeads_ok : ∃ window, r.requestHeads = .ok window := by
  cases hlist : r.blocks.toList with
  | nil =>
      rw [requestHeads, hlist]
      exact ⟨_, rfl⟩
  | cons e es =>
      rcases requestHeads_cases (isLeast_of_toList hlist) with ⟨hok, -⟩ | ⟨start, count, hok, -⟩
      · exact ⟨_, hok⟩
      · exact ⟨_, hok⟩

/-- `requestHeads` gives the first gap of a buffer that is not empty, and without a
gap the first number. -/
theorem requestHeads_first_gap (r : Request) {first : Nat}
    (hfirst : IsLeast {n | n ∈ r.blocks} first) :
    (Contiguous r.blocks first → r.requestHeads = .ok (0, first)) ∧
    (¬ Contiguous r.blocks first → ∃ start count,
      r.requestHeads = .ok (start, count) ∧ FirstGap r.blocks first start count) := by
  rcases requestHeads_cases hfirst with ⟨hok, hall⟩ | ⟨start, count, hok, hgap⟩
  · exact ⟨fun _ => hok, fun hgap => absurd hall hgap⟩
  · exact ⟨fun hall => absurd hall (hgap.not_contiguous hfirst), fun _ => ⟨start, count, hok, hgap⟩⟩

/-- A buffer with entries of the given numbers. -/
def bufferOf (numbers : List Nat) : Request :=
  { Request.start 0 0 with
    blocks := .ofList (numbers.map fun n => (n, (Request.start 0 0).genesis)) }

/-- Of 3, 4, 7 and 9 the first gap is that of 5 and 6. -/
theorem requestHeads_first_gap_five :
    (bufferOf [3, 4, 7, 9]).requestHeads = .ok (5, 2) ∧
      ∃ start count, (bufferOf [3, 4, 7, 9]).requestHeads = .ok (start, count) ∧
        FirstGap (bufferOf [3, 4, 7, 9]).blocks 3 start count := by
  have hfirst : IsLeast {n | n ∈ (bufferOf [3, 4, 7, 9]).blocks} 3 := by
    refine ⟨by decide +kernel, ?_⟩
    intro n hn
    have hlist : ∀ n ∈ (bufferOf [3, 4, 7, 9]).blocks.toList.map Prod.fst, 3 ≤ n := by
      decide +kernel
    exact hlist n (mem_blocks_iff.mp hn)
  have hgap : ¬ Contiguous (bufferOf [3, 4, 7, 9]).blocks 3 := by
    intro hall
    exact absurd (hall 5 (by decide) 7 (by decide +kernel) (by decide)) (by decide +kernel)
  exact ⟨by decide +kernel, (requestHeads_first_gap _ hfirst).2 hgap⟩

end Request

end CppSwc
