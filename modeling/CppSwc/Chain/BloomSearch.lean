import CppSwc.Chain.Blooms
import Mathlib.Data.List.Sort

/-!
# The order and the range of a search

`withBlockBloom` goes down the levels from left to right, so what it returns ascends.  It is
then determined by its members, and the question is which they are.

A chunk is cut at `earliest` and at `latest` where it has them.  But the top loop runs up to
`ceilDiv(_latest, u)` with that entry included.  Unless `latest` is a multiple of 256, this
is the chunk after that of `latest`, and nothing in it is cut.  For the last 255 numbers of
an `unsigned` the sum in `ceilDiv` overflows, and the loop ends after the first chunk.
-/

namespace CppSwc.BlockChain

open List

namespace BloomIndex

variable {x : BloomIndex} {b : LogBloom} {earliest latest index : ℕ}

/-! ## The order -/

theorem sorted_offsets (level : ℕ) : (offsets earliest latest level index).Pairwise (· < ·) :=
  pairwise_lt_range'

theorem sorted_zero : (x.withBlockBloomAt b earliest latest 0 index).Pairwise (· < ·) := by
  rw [withBlockBloomAt, pairwise_map]
  refine ((sorted_offsets 0).filter _).imp fun hlt => ?_
  exact Nat.add_lt_add_right hlt _

theorem sorted_one : (x.withBlockBloomAt b earliest latest 1 index).Pairwise (· < ·) := by
  rw [withBlockBloomAt, pairwise_flatMap]
  refine ⟨fun _ _ => sorted_zero, ((sorted_offsets 1).filter _).imp ?_⟩
  intro o p hlt m hm n hn
  have hm := div_of_mem_zero hm
  have hn := div_of_mem_zero hn
  omega

/-- What a search returns ascends. -/
theorem sorted_withBlockBloom : (x.withBlockBloom b earliest latest).Pairwise (· < ·) := by
  simp only [withBlockBloom]
  rw [pairwise_flatMap]
  refine ⟨fun _ _ => sorted_one, Pairwise.imp ?_ pairwise_lt_range'⟩
  intro i j hlt m hm n hn
  have hm := div_of_mem_one hm
  have hn := div_of_mem_one hn
  omega

/-! ## The range -/

/-- The blooms of the sixteen entries below an entry of level 1. -/
def below (x : BloomIndex) (item : ℕ) : List LogBloom :=
  (List.range c_bloomIndexSize).map fun o => x.entry 0 (item * c_bloomIndexSize + o)

/-- Each entry above a block that an `unsigned` can number is the union of those below. -/
def Layered (x : BloomIndex) : Prop :=
  ∀ item < 2 ^ 28, x.entry 1 item = (x.below item).foldl .or .empty

/-- The blocks of the range whose entries contain the bloom. -/
def matching (x : BloomIndex) (b : LogBloom) (earliest latest : ℕ) : List ℕ :=
  (List.range' earliest (latest + 1 - earliest)).filter fun n => (x.entry 0 n).contains b

/-- Where nothing overflows, no block of a chunk after that of `latest` is taken as well;
where `ceilDiv` overflows, no block after the first chunk is lost. -/
def CutRight (x : BloomIndex) (b : LogBloom) (earliest latest : ℕ) : Prop :=
  if latest + 255 < 2 ^ 32 then
    latest % 256 ≠ 0 → ∀ n, n / 256 = latest / 256 + 1 → (x.entry 0 n).contains b = false
  else ∀ n, earliest ≤ n → n ≤ latest → 256 ≤ n → (x.entry 0 n).contains b = false

variable {n : ℕ}

theorem Layered.contains (hx : x.Layered) (hn : n < 2 ^ 32)
    (hfine : (x.entry 0 n).contains b = true) : (x.entry 1 (n / 16)).contains b = true := by
  rw [hx (n / 16) (by omega)]
  refine LogBloom.contains_foldl_or (mem_map.mpr ⟨n % 16, ?_, rfl⟩) ?_
  · exact mem_range.mpr (Nat.mod_lt _ (by decide))
  · rwa [c_bloomIndexSize, Nat.div_add_mod']

theorem Searched.lt (h : Searched earliest latest n) : n < 2 ^ 32 := by
  have hlast := h.2.2
  rw [ceilDiv] at hlast
  omega

/-- In an index of unions the entries of level 1 hide nothing. -/
theorem Layered.mem_withBlockBloom (hx : x.Layered) :
    n ∈ x.withBlockBloom b earliest latest ↔
      Searched earliest latest n ∧ (x.entry 0 n).contains b = true := by
  rw [mem_withBlockBloom_iff]
  constructor
  · rintro ⟨hsearched, -, hfine⟩
    exact ⟨hsearched, hfine⟩
  · rintro ⟨hsearched, hfine⟩
    exact ⟨hsearched, hx.contains (hsearched.lt) hfine, hfine⟩

theorem sorted_matching : (x.matching b earliest latest).Pairwise (· < ·) :=
  Pairwise.filter _ pairwise_lt_range'

theorem mem_matching (hle : earliest ≤ latest) : n ∈ x.matching b earliest latest ↔
    (earliest ≤ n ∧ n ≤ latest) ∧ (x.entry 0 n).contains b = true := by
  rw [matching, mem_filter, mem_range'_1]
  refine and_congr_left fun _ => ?_
  omega

/-- The top loop covers the range and the next chunk, or the first chunk only. -/
theorem searched_iff (hlatest : latest < 2 ^ 32) : Searched earliest latest n ↔
    earliest ≤ n ∧ if latest + 255 < 2 ^ 32 then
      n ≤ latest ∨ latest % 256 ≠ 0 ∧ n / 256 = latest / 256 + 1
    else n < 256 := by
  rw [Searched, ceilDiv]
  split <;> omega

/-- The members are right where the last chunk is. -/
theorem cutRight_iff_searched (hle : earliest ≤ latest) (hlatest : latest < 2 ^ 32) :
    x.CutRight b earliest latest ↔ ∀ n, (x.entry 0 n).contains b = true →
      (Searched earliest latest n ↔ earliest ≤ n ∧ n ≤ latest) := by
  simp only [searched_iff hlatest, CutRight]
  split
  · rename_i hsmall
    constructor
    · intro hcut n hn
      have hnext : ¬ (latest % 256 ≠ 0 ∧ n / 256 = latest / 256 + 1) := fun hmore =>
        Bool.false_ne_true ((hcut hmore.1 n hmore.2).symm.trans hn)
      simp only [hnext, or_false]
    · intro hall hmore n hn
      refine Bool.eq_false_iff.mpr fun hcontains => ?_
      have hn := (hall n hcontains).mp ⟨by omega, .inr ⟨hmore, hn⟩⟩
      omega
  · rename_i hbig
    constructor
    · intro hcut n hn
      constructor
      · rintro ⟨he, hfirst⟩
        exact ⟨he, by omega⟩
      · rintro ⟨he, hl⟩
        refine ⟨he, Nat.lt_of_not_le fun hfar => ?_⟩
        exact Bool.false_ne_true ((hcut n he hl hfar).symm.trans hn)
    · intro hall n he hl hfar
      refine Bool.eq_false_iff.mpr fun hcontains => ?_
      have hn := ((hall n hcontains).mpr ⟨he, hl⟩).2
      omega

/-- **A search returns the blocks of its range whose blooms contain the bloom,** each once
and in order, if and only if the chunk after that of `latest` has none. -/
theorem withBlockBloom_eq_matching_iff (hx : x.Layered) (hle : earliest ≤ latest)
    (hlatest : latest < 2 ^ 32) :
    x.withBlockBloom b earliest latest = x.matching b earliest latest ↔
      x.CutRight b earliest latest := by
  rw [cutRight_iff_searched hle hlatest]
  constructor
  · intro heq n hn
    have hmem : n ∈ x.withBlockBloom b earliest latest ↔ n ∈ x.matching b earliest latest := by
      rw [heq]
    simpa only [hx.mem_withBlockBloom, mem_matching hle, hn, and_true] using hmem
  · intro hall
    refine sorted_withBlockBloom.eq_of_mem_iff sorted_matching ?_
    intro n
    rw [hx.mem_withBlockBloom, mem_matching hle]
    exact and_congr_left fun hn => hall n hn

end BloomIndex

/-! ## A log in each block -/

/-- The index of a chain where each block has the bloom. -/
def everyBlock (b : LogBloom) : BloomIndex := { blocksBlooms := fun _ => some fun _ => b }

theorem entry_everyBlock (b : LogBloom) (level item : ℕ) : (everyBlock b).entry level item = b :=
  rfl

theorem layered_everyBlock (b : LogBloom) : (everyBlock b).Layered := by
  have hself : b.or b = b := congrArg LogBloom.mk BitVec.or_self
  have hempty : LogBloom.empty.or b = b := congrArg LogBloom.mk BitVec.zero_or
  intro item _
  simp only [BloomIndex.below, entry_everyBlock, c_bloomIndexSize, map_const', length_range,
    replicate_succ, replicate_zero, foldl_cons, foldl_nil, hempty, hself]

theorem withBlockBloom_eq_matching_everyBlock : (everyBlock ⟨1⟩).withBlockBloom ⟨1⟩ 250 512 =
    (everyBlock ⟨1⟩).matching ⟨1⟩ 250 512 :=
  (BloomIndex.withBlockBloom_eq_matching_iff (layered_everyBlock _) (by decide) (by decide)).mpr
    fun hmore => absurd rfl hmore

/-- A search of the first block finds also those from 256 on. -/
theorem search_passes_latest : ¬ ∀ (x : BloomIndex) (b : LogBloom) (earliest latest : ℕ),
    x.Layered → earliest ≤ latest → latest < 2 ^ 32 →
      x.withBlockBloom b earliest latest = x.matching b earliest latest := by
  intro h
  have heq := h (everyBlock ⟨1⟩) ⟨1⟩ 1 1 (layered_everyBlock _) (by decide) (by decide)
  have hin : 256 ∈ (everyBlock ⟨1⟩).withBlockBloom ⟨1⟩ 1 1 := by
    refine (layered_everyBlock _).mem_withBlockBloom.mpr ⟨?_, LogBloom.contains_self _⟩
    exact ⟨by decide, .inr (by decide), by decide⟩
  rw [heq, BloomIndex.mem_matching (by decide)] at hin
  exact absurd hin.1.2 (by decide)

end CppSwc.BlockChain
