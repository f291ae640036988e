import CppSwc.Chain.Locations
import CppSwc.Core.LogBloom
import CppSwc.Lib.Run

/-!
# The bloom index

The index has two levels.  At level 0 the entry of a block has the block's bloom, and an
entry of level 1 stands for sixteen blocks.  The entries are kept in chunks of sixteen, in
the cache `m_blocksBlooms` over the extras database, and `withBlockBloom` goes down from
the entries that contain a bloom.

An import writes the blooms of the blocks of the new chain, and a reversion first clears
those of the old one and rebuilds what is above them.  This is done in the cache only, so
the database may hold more than the cache, and never less: `Holds` is about both.

The genesis block is never imported, and has no bloom in the index.
-/

namespace CppSwc.BlockChain

open Lib

/-- `c_bloomIndexSize`. -/
def c_bloomIndexSize : ℕ := 16

/-- `c_bloomIndexLevels`. -/
def c_bloomIndexLevels : ℕ := 2

/-- `BlocksBlooms`, a chunk by offset. -/
abbrev BlocksBlooms := ℕ → LogBloom

/-- The chunks in the cache and in the database. -/
structure BloomIndex where
  blocksBlooms : ℕ → Option BlocksBlooms := fun _ => none
  extraBlocksBlooms : ℕ → Option BlocksBlooms := fun _ => none

namespace BloomIndex

/-- `chunkId`, an `unsigned` before it is a hash. -/
def chunkId (level index : ℕ) : ℕ := (index * 0xff + level) % 2 ^ 32

/-- What `blocksBlooms` returns. -/
def chunk (x : BloomIndex) (id : ℕ) : BlocksBlooms :=
  (Cache.lookup x.blocksBlooms x.extraBlocksBlooms id).getD fun _ => .empty

/-- What `blocksBlooms` leaves in the cache. -/
def load (x : BloomIndex) (id : ℕ) : BloomIndex :=
  { x with blocksBlooms := Cache.load x.blocksBlooms x.extraBlocksBlooms id }

/-- `garbageCollect` drops a chunk. -/
def erase (x : BloomIndex) (id : ℕ) : BloomIndex :=
  { x with blocksBlooms := Function.update x.blocksBlooms id none }

/-- The chunk of an entry. -/
def idOf (level item : ℕ) : ℕ := chunkId level (item / c_bloomIndexSize)

/-- An entry of a level. -/
def entry (x : BloomIndex) (level item : ℕ) : LogBloom :=
  x.chunk (idOf level item) (item % c_bloomIndexSize)

/-- An entry is written in the cache. -/
def set (x : BloomIndex) (level item : ℕ) (b : LogBloom) : BloomIndex :=
  let blooms := Function.update (x.chunk (idOf level item)) (item % c_bloomIndexSize) b
  { x with blocksBlooms := Function.update x.blocksBlooms (idOf level item) (some blooms) }

/-- The chunk of an entry is written to the database. -/
def store (x : BloomIndex) (level item : ℕ) : BloomIndex :=
  let blooms := x.chunk (idOf level item)
  { x with extraBlocksBlooms := Function.update x.extraBlocksBlooms (idOf level item) (some blooms) }

/-! ## Clearing -/

/-- The items of a loop from one `unsigned` to another. -/
def items (first last : ℕ) : List ℕ :=
  (List.range ((last + 2 ^ 32 - first) % 2 ^ 32)).map fun k => (first + k) % 2 ^ 32

/-- The body of the inner loop of `clearBlockBlooms`. -/
def rebuild (x : BloomIndex) (level item : ℕ) : BloomIndex :=
  if level = 0 then x.set level item .empty
  else
    let lower := chunkId (level - 1) item
    (x.load lower).set level item
      (((List.range c_bloomIndexSize).map (x.chunk lower)).foldl .or .empty)

/-- The end of the range at the next level. -/
def endAbove (endDirty : ℕ) : ℕ := (endDirty + 2 ^ 32 - 1) % 2 ^ 32 / c_bloomIndexSize + 1

/-- The body of the outer loop, with `beginDirty` and `endDirty`. -/
def clearLevel (p : ℕ × ℕ × BloomIndex) (level : ℕ) : ℕ × ℕ × BloomIndex :=
  let cleared := (items p.1 p.2.1).foldl (fun x item => x.rebuild level item) p.2.2
  (p.1 / c_bloomIndexSize, endAbove p.2.1, cleared)

/-- `clearBlockBlooms`. -/
def clearBlockBlooms (x : BloomIndex) (first last : ℕ) : BloomIndex :=
  ((List.range c_bloomIndexLevels).foldl clearLevel (first, last, x)).2.2

/-! ## Searching -/

/-- `upow`. -/
def upow (a : ℕ) : ℕ → ℕ
  | 0 => 1
  | 1 => a
  | b + 2 => upow (a * a) (b + 1)

/-- `ceilDiv`, on `unsigned`. -/
def ceilDiv (n d : ℕ) : ℕ := (n + d - 1) % 2 ^ 32 / d

/-- The offsets of a chunk that `withBlockBloom` looks at. -/
def offsets (earliest latest level index : ℕ) : List ℕ :=
  let uCourse := upow c_bloomIndexSize (level + 1)
  let uFine := upow c_bloomIndexSize level
  let obegin := if index = earliest / uCourse then earliest / uFine % c_bloomIndexSize else 0
  let oend := if index = latest / uCourse then latest / uFine % c_bloomIndexSize + 1
    else c_bloomIndexSize
  List.range' obegin (oend - obegin)

/-- `withBlockBloom` for a chunk of a level. -/
def withBlockBloomAt (x : BloomIndex) (b : LogBloom) (earliest latest : ℕ) : ℕ → ℕ → List ℕ
  | 0, index =>
      ((offsets earliest latest 0 index).filter fun o =>
        (x.chunk (chunkId 0 index) o).contains b).map fun o => o + index * c_bloomIndexSize
  | level + 1, index =>
      ((offsets earliest latest (level + 1) index).filter fun o =>
        (x.chunk (chunkId (level + 1) index) o).contains b).flatMap fun o =>
          withBlockBloomAt x b earliest latest level (o + index * c_bloomIndexSize)

/-- `withBlockBloom`. -/
def withBlockBloom (x : BloomIndex) (b : LogBloom) (earliest latest : ℕ) : List ℕ :=
  let u := upow c_bloomIndexSize c_bloomIndexLevels
  (List.range' (earliest / u) (ceilDiv latest u + 1 - earliest / u)).flatMap
    (x.withBlockBloomAt b earliest latest (c_bloomIndexLevels - 1))

/-! ## Adding -/

/-- The items of a block, one at each level. -/
def path (number : ℕ) : List (ℕ × ℕ) :=
  (List.range c_bloomIndexLevels).map fun level => (level, number / c_bloomIndexSize ^ level)

/-- The loops of `insertBlockAndExtras` over the levels. -/
def add (x : BloomIndex) (number : ℕ) (b : LogBloom) : BloomIndex :=
  let added := (path number).foldl (fun x p => x.set p.1 p.2 ((x.entry p.1 p.2).or b)) x
  (path number).foldl (fun x p => x.store p.1 p.2) added

/-! ## Entries that contain a bloom -/

variable {x : BloomIndex} {level level' item item' n m : ℕ} {b b' : LogBloom}

/-- The entries of blocks have chunks of their own. -/
theorem idOf_inj (hlevel : level < 2) (hlevel' : level' < 2) (hitem : item * 16 ^ level < 2 ^ 32)
    (hitem' : item' * 16 ^ level' < 2 ^ 32) (hid : idOf level item = idOf level' item')
    (hoffset : item % c_bloomIndexSize = item' % c_bloomIndexSize) :
    level = level' ∧ item = item' := by
  simp only [idOf, chunkId, c_bloomIndexSize] at hid hoffset
  have hcases : ∀ l < 2, l = 0 ∨ l = 1 := by omega
  rcases hcases level hlevel with rfl | rfl <;> rcases hcases level' hlevel' with rfl | rfl <;>
    simp only [pow_zero, pow_one] at hitem hitem' <;> omega

/-- The cache, where it has the chunk, and the database have the bloom at an entry. -/
structure Holds (x : BloomIndex) (level item : ℕ) (b : LogBloom) : Prop where
  cache : ∀ ch, x.blocksBlooms (idOf level item) = some ch →
    (ch (item % c_bloomIndexSize)).contains b = true
  extra : ∃ ch, x.extraBlocksBlooms (idOf level item) = some ch ∧
    (ch (item % c_bloomIndexSize)).contains b = true

theorem Holds.entry (h : x.Holds level item b) : (x.entry level item).contains b = true := by
  obtain ⟨ch, hch, hcontains⟩ := h.extra
  rw [BloomIndex.entry, chunk]
  cases hcache : x.blocksBlooms (idOf level item) with
  | none =>
      rw [Cache.lookup_of_none hcache, hch]
      exact hcontains
  | some ch' =>
      rw [Cache.lookup_of_hit hcache]
      exact h.cache ch' hcache

theorem Holds.load (h : x.Holds level item b) (id : ℕ) : (x.load id).Holds level item b := by
  refine ⟨?_, h.extra⟩
  intro ch hch
  simp only [BloomIndex.load, Cache.load, Function.update_apply] at hch
  split at hch
  · rename_i hid
    have hentry := h.entry
    rw [BloomIndex.entry, chunk, hid, hch] at hentry
    exact hentry
  · exact h.cache ch hch

theorem Holds.erase (h : x.Holds level item b) (id : ℕ) : (x.erase id).Holds level item b := by
  refine ⟨?_, h.extra⟩
  intro ch hch
  simp only [BloomIndex.erase, Function.update_apply] at hch
  split at hch
  · cases hch
  · exact h.cache ch hch

theorem blocksBlooms_set (x : BloomIndex) (level item : ℕ) (b : LogBloom) (id : ℕ) :
    (x.set level item b).blocksBlooms id = if id = idOf level item then
      some (Function.update (x.chunk (idOf level item)) (item % c_bloomIndexSize) b)
      else x.blocksBlooms id :=
  Function.update_apply _ _ _ _

/-- An entry is written, and this is no less than what is to be held there. -/
theorem Holds.set (h : x.Holds level item b)
    (hsame : idOf level item = idOf level' item' →
      item % c_bloomIndexSize = item' % c_bloomIndexSize → b'.contains b = true) :
    (x.set level' item' b').Holds level item b := by
  refine ⟨?_, h.extra⟩
  intro ch hch
  rw [blocksBlooms_set] at hch
  split at hch
  · rename_i hid
    cases hch
    rw [Function.update_apply]
    split
    · rename_i hoffset
      exact hsame hid hoffset
    · have hentry := h.entry
      rwa [BloomIndex.entry, hid] at hentry
  · exact h.cache ch hch

theorem Holds.store (h : x.Holds level item b) (level' item' : ℕ) :
    (x.store level' item').Holds level item b := by
  refine ⟨h.cache, ?_⟩
  simp only [BloomIndex.store, Function.update_apply]
  split
  · rename_i hid
    refine ⟨_, rfl, ?_⟩
    have hentry := h.entry
    rwa [BloomIndex.entry, hid] at hentry
  · exact h.extra

/-- The index has the bloom of a block at each level. -/
def Covers (x : BloomIndex) (n : ℕ) (b : LogBloom) : Prop :=
  ∀ level < c_bloomIndexLevels, x.Holds level (n / c_bloomIndexSize ^ level) b

theorem item_lt (hn : n < 2 ^ 32) : n / c_bloomIndexSize ^ level * 16 ^ level < 2 ^ 32 :=
  (Nat.div_mul_le_self n (16 ^ level)).trans_lt hn

/-! ### Clearing -/

/-- An entry that is rebuilt is not that of the block, or stands above it. -/
theorem Covers.rebuild (h : x.Covers n b) (hn : n < 2 ^ 32) (hlevel : level < 2)
    (hitem : item * 16 ^ level < 2 ^ 32) (hother : level = 0 → item ≠ n) :
    (x.rebuild level item).Covers n b := by
  intro l hl
  have hsame : idOf l (n / c_bloomIndexSize ^ l) = idOf level item →
      n / c_bloomIndexSize ^ l % c_bloomIndexSize = item % c_bloomIndexSize →
      l = level ∧ n / c_bloomIndexSize ^ l = item :=
    idOf_inj hl hlevel (item_lt hn) hitem
  rw [BloomIndex.rebuild]
  split
  · rename_i hzero
    refine (h l hl).set fun hid hoffset => ?_
    obtain ⟨rfl, rfl⟩ := hsame hid hoffset
    subst hzero
    exact absurd (Nat.div_one n).symm (by simpa using hother rfl)
  · rename_i hpos
    refine ((h l hl).load _).set fun hid hoffset => ?_
    obtain ⟨rfl, rfl⟩ := hsame hid hoffset
    obtain rfl : l = 1 := by omega
    -- The entry of the block is among those below.
    have hlower := (h 0 (by decide)).entry
    rw [pow_zero, Nat.div_one] at hlower
    rw [pow_one]
    refine LogBloom.contains_foldl_or (b := x.entry 0 n) ?_ hlower
    refine List.mem_map.mpr ⟨n % c_bloomIndexSize, List.mem_range.mpr ?_, rfl⟩
    exact Nat.mod_lt _ (by decide)

/-- The loop ends at a later number, or at the end of the range of an `unsigned`. -/
theorem mem_items {first last : ℕ} (hfirst : first < 2 ^ 32) (hlast : last < 2 ^ 32)
    (hle : first ≤ last ∨ last = 0) (hitem : item ∈ items first last) :
    first ≤ item ∧ item < 2 ^ 32 ∧ (item < last ∨ last = 0) := by
  obtain ⟨k, hk, rfl⟩ := List.mem_map.mp hitem
  have hk := List.mem_range.mp hk
  omega

/-- A loop over one level. -/
theorem Covers.rebuildAll (h : x.Covers n b) (hn : n < 2 ^ 32) (hlevel : level < 2)
    {is : List ℕ} (his : ∀ i ∈ is, i * 16 ^ level < 2 ^ 32 ∧ (level = 0 → i ≠ n)) :
    (is.foldl (fun x item => x.rebuild level item) x).Covers n b := by
  induction is generalizing x with
  | nil => exact h
  | cons i is ih =>
      obtain ⟨hitem, hother⟩ := his i (.head _)
      exact ih (h.rebuild hn hlevel hitem hother) fun j hj => his j (.tail _ hj)

/-- **Clearing keeps the blocks that are not cleared.** -/
theorem Covers.clearBlockBlooms (h : x.Covers n b) {first last : ℕ} (hfirst : first < 2 ^ 32)
    (hlast : last < 2 ^ 32) (hle : first < last ∨ last = 0) (hn : n < first) :
    (x.clearBlockBlooms first last).Covers n b := by
  have hend : endAbove last ≤ 2 ^ 28 ∧ first / 16 ≤ endAbove last ∧ endAbove last ≠ 0 := by
    unfold endAbove c_bloomIndexSize
    omega
  simp only [BloomIndex.clearBlockBlooms, c_bloomIndexLevels, List.range_succ, List.range_zero,
    List.nil_append, List.cons_append, List.foldl_cons, List.foldl_nil, clearLevel]
  refine Covers.rebuildAll (h.rebuildAll (by omega) (by omega) ?_) (by omega) (by omega) ?_
  · intro i hi
    have hi := mem_items hfirst hlast (hle.imp_left Nat.le_of_lt) hi
    simp only [pow_zero]
    omega
  · intro i hi
    simp only [c_bloomIndexSize] at hi
    have hi := mem_items (by omega) (by omega) (.inl hend.2.1) hi
    simp only [pow_one]
    omega

/-! ### Adding -/

/-- What is held stays held while more is added. -/
theorem Covers.addAll {ps : List (ℕ × ℕ)} (h : x.Covers n b) :
    (ps.foldl (fun x p => x.set p.1 p.2 ((x.entry p.1 p.2).or b')) x).Covers n b := by
  induction ps generalizing x with
  | nil => exact h
  | cons p ps ih =>
      refine ih fun l hl => (h l hl).set fun hid hoffset => LogBloom.contains_or_left ?_
      have hentry := (h l hl).entry
      rwa [BloomIndex.entry, hid, hoffset] at hentry

theorem Covers.storeAll {ps : List (ℕ × ℕ)} (h : x.Covers n b) :
    (ps.foldl (fun x p => x.store p.1 p.2) x).Covers n b := by
  induction ps generalizing x with
  | nil => exact h
  | cons p ps ih => exact ih fun l hl => (h l hl).store _ _

theorem Covers.add (h : x.Covers n b) : (x.add m b').Covers n b := h.addAll.storeAll

/-- An entry of the cache that contains the bloom. -/
def Cached (x : BloomIndex) (level item : ℕ) (b : LogBloom) : Prop :=
  ∃ ch, x.blocksBlooms (idOf level item) = some ch ∧
    (ch (item % c_bloomIndexSize)).contains b = true

theorem cached_set (x : BloomIndex) (level item : ℕ) (b : LogBloom) :
    (x.set level item ((x.entry level item).or b)).Cached level item b := by
  refine ⟨_, by rw [blocksBlooms_set, if_pos rfl], ?_⟩
  rw [Function.update_self]
  exact LogBloom.contains_or_right (LogBloom.contains_self b)

theorem Cached.set (h : x.Cached level item b) (level' item' : ℕ) (b' : LogBloom) :
    (x.set level' item' ((x.entry level' item').or b')).Cached level item b := by
  obtain ⟨ch, hch, hcontains⟩ := h
  by_cases hid : idOf level item = idOf level' item'
  · refine ⟨_, by rw [blocksBlooms_set, if_pos hid], ?_⟩
    rw [Function.update_apply]
    have hentry : (x.chunk (idOf level' item') (item % c_bloomIndexSize)).contains b = true := by
      rw [chunk, ← hid, Cache.lookup_of_hit hch]
      exact hcontains
    split
    · rename_i hoffset
      rw [hoffset] at hentry
      exact LogBloom.contains_or_left hentry
    · exact hentry
  · refine ⟨ch, ?_, hcontains⟩
    rw [blocksBlooms_set, if_neg hid]
    exact hch

/-- What is in the cache is held once it is stored. -/
theorem Cached.holds (h : x.Cached level item b) : (x.store level item).Holds level item b := by
  obtain ⟨ch, hch, hcontains⟩ := h
  refine ⟨?_, _, Function.update_self _ _ _, ?_⟩
  · intro ch' hch'
    cases hch.symm.trans hch'
    exact hcontains
  · rw [chunk, Cache.lookup_of_hit hch]
    exact hcontains

/-- **A block that is added is covered.** -/
theorem covers_add (x : BloomIndex) (n : ℕ) (b : LogBloom) : (x.add n b).Covers n b := by
  set x₀ := x.set 0 n ((x.entry 0 n).or b) with hx₀
  set x₁ := x₀.set 1 (n / 16) ((x₀.entry 1 (n / 16)).or b) with hx₁
  have hadd : x.add n b = (x₁.store 0 n).store 1 (n / 16) := by
    simp [BloomIndex.add, path, c_bloomIndexLevels, c_bloomIndexSize, List.range_succ, hx₀, hx₁]
  have hfirst : x₁.Cached 0 n b := (cached_set x 0 n b).set 1 (n / 16) b
  have hsecond : (x₁.store 0 n).Cached 1 (n / 16) b := cached_set x₀ 1 (n / 16) b
  rw [hadd]
  intro l hl
  have hcases : l = 0 ∨ l = 1 := by
    unfold c_bloomIndexLevels at hl
    omega
  rcases hcases with rfl | rfl
  · rw [pow_zero, Nat.div_one]
    exact hfirst.holds.store _ _
  · rw [pow_one]
    exact hsecond.holds

/-! ### Searching -/

variable {earliest latest index o : ℕ}

theorem lt_of_mem_offsets (ho : o ∈ offsets earliest latest level index) :
    o < c_bloomIndexSize := by
  have hmod : latest / upow c_bloomIndexSize level % c_bloomIndexSize < c_bloomIndexSize :=
    Nat.mod_lt _ (by decide)
  have ho := List.mem_range'_1.mp ho
  split at ho <;> split at ho <;> omega

/-- Up to the second power `upow` is right. -/
theorem upow_eq {a k : ℕ} (hk : k ≤ 2) : upow a k = a ^ k := by
  have hcases : k = 0 ∨ k = 1 ∨ k = 2 := by omega
  rcases hcases with rfl | rfl | rfl
  · rfl
  · exact (pow_one a).symm
  · exact (pow_two a).symm

/-- The offsets of a block's entries that are looked at. -/
theorem mem_offsets (earliest latest n : ℕ) (hlevel : level < 2) :
    n / 16 ^ level % 16 ∈ offsets earliest latest level (n / 16 ^ (level + 1)) ↔
      (n / 16 ^ (level + 1) = earliest / 16 ^ (level + 1) →
        earliest / 16 ^ level % 16 ≤ n / 16 ^ level % 16) ∧
      (n / 16 ^ (level + 1) = latest / 16 ^ (level + 1) →
        n / 16 ^ level % 16 ≤ latest / 16 ^ level % 16) := by
  have hlt : n / 16 ^ level % 16 < 16 := Nat.mod_lt _ (by decide)
  rw [offsets, List.mem_range'_1]
  simp only [c_bloomIndexSize, upow_eq (show level ≤ 2 by omega),
    upow_eq (show level + 1 ≤ 2 by omega)]
  split <;> split <;> omega

theorem div_of_mem_zero (hm : m ∈ x.withBlockBloomAt b earliest latest 0 index) :
    m / 16 = index := by
  obtain ⟨o, ho, rfl⟩ := List.mem_map.mp hm
  have ho := lt_of_mem_offsets (List.mem_filter.mp ho).1
  simp only [c_bloomIndexSize] at ho ⊢
  omega

theorem div_of_mem_one (hm : m ∈ x.withBlockBloomAt b earliest latest 1 index) :
    m / 256 = index := by
  obtain ⟨o, ho, hm⟩ := List.mem_flatMap.mp hm
  have ho := lt_of_mem_offsets (List.mem_filter.mp ho).1
  have hm := div_of_mem_zero hm
  simp only [c_bloomIndexSize] at ho hm
  omega

theorem mem_zero_iff : n ∈ x.withBlockBloomAt b earliest latest 0 (n / 16) ↔
    n % 16 ∈ offsets earliest latest 0 (n / 16) ∧ (x.entry 0 n).contains b = true := by
  rw [withBlockBloomAt, List.mem_map, entry, idOf, c_bloomIndexSize]
  constructor
  · rintro ⟨o, ho, heq⟩
    have hlt := lt_of_mem_offsets (List.mem_filter.mp ho).1
    simp only [c_bloomIndexSize] at hlt
    obtain rfl : n % 16 = o := by omega
    exact List.mem_filter.mp ho
  · intro hin
    exact ⟨n % 16, List.mem_filter.mpr hin, by omega⟩

theorem mem_one_iff : n ∈ x.withBlockBloomAt b earliest latest 1 (n / 256) ↔
    (n / 16 % 16 ∈ offsets earliest latest 1 (n / 256) ∧
      (x.entry 1 (n / 16)).contains b = true) ∧
    n % 16 ∈ offsets earliest latest 0 (n / 16) ∧ (x.entry 0 n).contains b = true := by
  have hitem : n / 16 % 16 + n / 256 * 16 = n / 16 := by omega
  have hchunk : n / 16 / 16 = n / 256 := Nat.div_div_eq_div_mul n 16 16
  have hentry : x.entry 1 (n / 16) = x.chunk (chunkId 1 (n / 256)) (n / 16 % 16) := by
    rw [entry, idOf, c_bloomIndexSize, hchunk]
  rw [withBlockBloomAt, List.mem_flatMap, hentry]
  constructor
  · rintro ⟨o, ho, hin⟩
    have hlt := lt_of_mem_offsets (List.mem_filter.mp ho).1
    have hdiv := div_of_mem_zero hin
    simp only [c_bloomIndexSize] at hlt hdiv
    obtain rfl : n / 16 % 16 = o := by omega
    rw [c_bloomIndexSize, hitem] at hin
    exact ⟨List.mem_filter.mp ho, mem_zero_iff.mp hin⟩
  · rintro ⟨hcoarse, hfine⟩
    refine ⟨n / 16 % 16, List.mem_filter.mpr hcoarse, ?_⟩
    rw [c_bloomIndexSize, hitem]
    exact mem_zero_iff.mpr hfine

/-- The last chunk of the range is cut at `latest`, and what comes after it is not. -/
def Searched (earliest latest n : ℕ) : Prop :=
  earliest ≤ n ∧ (n ≤ latest ∨ n / 256 ≠ latest / 256) ∧ n / 256 ≤ ceilDiv latest 256

/-- **What a search finds.** -/
theorem mem_withBlockBloom_iff : n ∈ x.withBlockBloom b earliest latest ↔
    Searched earliest latest n ∧
      (x.entry 1 (n / 16)).contains b = true ∧ (x.entry 0 n).contains b = true := by
  have htop : upow c_bloomIndexSize c_bloomIndexLevels = 256 := rfl
  have hzero := mem_offsets earliest latest n (show 0 < 2 by decide)
  have hone := mem_offsets earliest latest n (show 1 < 2 by decide)
  simp only [pow_zero, Nat.div_one, Nat.zero_add, pow_one, Nat.reduceAdd,
    Nat.reducePow] at hzero hone
  -- The range of the top chunks and the two cuts at each level come to `Searched`.
  have hrange : (earliest / 256 ≤ n / 256 ∧ n / 256 ≤ ceilDiv latest 256) ∧
      n / 16 % 16 ∈ offsets earliest latest 1 (n / 256) ∧
      n % 16 ∈ offsets earliest latest 0 (n / 16) ↔ Searched earliest latest n := by
    rw [hzero, hone, Searched]
    omega
  simp only [withBlockBloom, htop]
  rw [List.mem_flatMap, ← hrange]
  constructor
  · rintro ⟨index, hindex, hin⟩
    obtain rfl := div_of_mem_one hin
    have hindex := List.mem_range'_1.mp hindex
    obtain ⟨⟨hcoarse, hone⟩, hfine, hzero⟩ := mem_one_iff.mp hin
    exact ⟨⟨by omega, hcoarse, hfine⟩, hone, hzero⟩
  · rintro ⟨⟨hchunks, hcoarse, hfine⟩, hone, hzero⟩
    refine ⟨n / 256, List.mem_range'_1.mpr (by omega), ?_⟩
    exact mem_one_iff.mpr ⟨⟨hcoarse, hone⟩, hfine, hzero⟩

/-- **A search finds the blocks of the range whose entries contain the bloom,** unless the
number of the last top entry overflows. -/
theorem mem_withBlockBloom (he : earliest ≤ n) (hl : n ≤ latest) :
    n ∈ x.withBlockBloom b earliest latest ↔ n / 256 ≤ ceilDiv latest 256 ∧
      (x.entry 1 (n / 16)).contains b = true ∧ (x.entry 0 n).contains b = true := by
  rw [mem_withBlockBloom_iff, Searched]
  simp only [he, hl, true_or, true_and]

end BloomIndex

/-! ## The chain and its index -/

/-- The bloom that is collated for a block: that of its logs, and its author. -/
structure BlockBlooms where
  logBloom : H256 → LogBloom
  author : H256 → Address
  sha3 : Address → H256

/-- `blockBloom`. -/
def BlockBlooms.blockBloom (bb : BlockBlooms) (h : H256) : LogBloom :=
  (bb.logBloom h).shiftBloom (bb.sha3 (bb.author h))

/-- A chain with its bloom index. -/
structure Bloomed where
  chain : BlockChain
  index : BloomIndex := {}

namespace Bloomed

variable (c : Blocks) (bb : BlockBlooms)

/-- `clearCachesDuringChainReversion`, for the blooms. -/
def clear (s : Bloomed) (firstInvalid : ℕ) : BloomIndex :=
  s.index.clearBlockBlooms firstInvalid ((s.chain.lastBlockNumber + 1) % 2 ^ 32)

/-- One round of the loop over the route, for the blooms. -/
def collate (x : BloomIndex) (h : H256) : BloomIndex :=
  match c.block h with
  | none => x
  | some b => x.add b.number (bb.blockBloom h)

/-- The branch of `insertBlockAndExtras` for a new head. -/
def extend (s : Bloomed) (h : H256) (route : List H256) (common : H256) : BloomIndex :=
  let x := if common ≠ s.chain.lastBlockHash then
    s.clear ((s.chain.number common + 1) % 2 ^ 32) else s.index
  ((route ++ [h]).reverse.takeWhile (· ≠ common)).foldl (collate c bb) x

/-- What `import` does to the index. -/
def importBlock (s : Bloomed) (h : H256) (mustBeNew valid : Bool) : BloomIndex :=
  match s.chain.checkImport c h mustBeNew valid with
  | none => s.index
  | some (b, td, _) =>
      if s.chain.isBest c td b.gasUsed then
        match s.chain.treeRoute s.chain.lastBlockHash b.parentHash with
        | none => s.index
        | some (route, common) => s.extend c bb h route common
      else s.index

/-- What `rewind` does to the index. -/
def rewind (s : Bloomed) (newHead : ℕ) : BloomIndex :=
  if s.chain.lastBlockNumber ≤ newHead then s.index else s.clear ((newHead + 1) % 2 ^ 32)

/-- What happens to a chain and its index.  Queries load chunks, and `garbageCollect` drops
them. -/
inductive Op where
  | importBlock (h : H256) (mustBeNew valid : Bool)
  | rewind (newHead : ℕ)
  | load (id : ℕ)
  | erase (id : ℕ)

/-- The chain and the index after one operation. -/
def next (s : Bloomed) : Op → Bloomed
  | .importBlock h mustBeNew valid =>
      { chain := s.chain.importBlock c h mustBeNew valid
        index := s.importBlock c bb h mustBeNew valid }
  | .rewind newHead => { chain := s.chain.rewind c newHead, index := s.rewind newHead }
  | .load id => { s with index := s.index.load id }
  | .erase id => { s with index := s.index.erase id }

/-- From some number on, the index has the bloom of every block of the chain. -/
def Complete (first : ℕ) (s : Bloomed) : Prop :=
  ∀ n, first ≤ n → n ≤ s.chain.lastBlockNumber →
    (∀ level < c_bloomIndexLevels, (s.index.entry level (n / c_bloomIndexSize ^ level)).contains
      (bb.blockBloom (s.chain.ancestor s.chain.lastBlockHash n)) = true) ∧
    ∀ b, (bb.blockBloom (s.chain.ancestor s.chain.lastBlockHash n)).contains b = true →
      n + 255 < 2 ^ 32 → n ∈ s.index.withBlockBloom b n n

/-- A head that is given up does not have the number that stands for missing details. -/
def Routed (s : Bloomed) : Op → Prop
  | .importBlock h mustBeNew valid =>
      match s.chain.checkImport c h mustBeNew valid with
      | none => True
      | some (b, td, _) => s.chain.isBest c td b.gasUsed = true →
          s.chain.lastBlockNumber ≠ c_invalidNumber
  | .rewind newHead => newHead < s.chain.lastBlockNumber →
      s.chain.lastBlockNumber ≠ c_invalidNumber
  | _ => True

/-- What holds along a run.  No number above the head is in the cache of the number index,
so a rewind ends on the chain. -/
structure Collated (s : Bloomed) : Prop where
  indexed : Indexed c s.chain
  above : ∀ n, s.chain.lastBlockNumber < n → s.chain.blockHashes n = none
  covers : ∀ n, 1 ≤ n → n ≤ s.chain.lastBlockNumber →
    s.index.Covers n (bb.blockBloom (s.chain.ancestor s.chain.lastBlockHash n))

variable {c bb} {s : Bloomed}

theorem Collated.complete (hs : s.Collated c bb) : s.Complete bb 1 := by
  intro n h0 hn
  have hcovers := hs.covers n h0 hn
  refine ⟨fun level hlevel => (hcovers level hlevel).entry, ?_⟩
  intro b hb hbound
  refine (BloomIndex.mem_withBlockBloom le_rfl le_rfl).mpr ⟨?_, ?_, ?_⟩
  · unfold BloomIndex.ceilDiv
    omega
  · have hentry := (hcovers 1 (by decide)).entry
    rw [pow_one] at hentry
    exact LogBloom.contains_trans hentry hb
  · have hentry := (hcovers 0 (by decide)).entry
    rw [pow_zero, Nat.div_one] at hentry
    exact LogBloom.contains_trans hentry hb

/-! ### Steps -/

theorem Collated.congr {x : BloomIndex} (hs : s.Collated c bb)
    (hx : ∀ n b, s.index.Covers n b → x.Covers n b) : Collated c bb { s with index := x } :=
  { hs with covers := fun n h0 hn => hx _ _ (hs.covers n h0 hn) }

/-- What is covered stays covered while the new chain is collated. -/
theorem covers_foldl_collate {x : BloomIndex} {n : ℕ} {b : LogBloom} (hx : x.Covers n b)
    (hs : List H256) : (hs.foldl (collate c bb) x).Covers n b := by
  induction hs generalizing x with
  | nil => exact hx
  | cons h hs ih =>
      refine ih ?_
      rw [collate]
      split
      · exact hx
      · exact hx.add

/-- And every block of it is covered in the end. -/
theorem covers_of_mem {hs : List H256} {h : H256} {b : Block} (x : BloomIndex) (hh : h ∈ hs)
    (hb : c.block h = some b) :
    (hs.foldl (collate c bb) x).Covers b.number (bb.blockBloom h) := by
  induction hs generalizing x with
  | nil => cases hh
  | cons h' hs ih =>
      rcases List.mem_cons.mp hh with rfl | hh
      · refine covers_foldl_collate ?_ hs
        rw [collate, hb]
        exact BloomIndex.covers_add _ _ _
      · exact ih _ hh

/-- An import keeps the number index. -/
theorem Collated.numbersOpen {h : H256} {mustBeNew valid : Bool} (hs : s.Collated c bb)
    (hop : s.Routed c (.importBlock h mustBeNew valid)) :
    NumbersOpen c s.chain (.importBlock h mustBeNew valid) := by
  rw [Routed] at hop
  rw [NumbersOpen]
  split
  · trivial
  · rename_i b td nonces hcheck
    rw [hcheck] at hop
    intro hbest
    rw [if_neg (hop hbest)]
    intro n _ hn
    exact .inl (hs.above n hn)

theorem Collated.extended {h : H256} {b : Block} {nonces : Address → ℕ} (hs : s.Collated c bb)
    (hnull : s.chain.lastBlockNumber ≠ c_invalidNumber) (ha : Accepted c s.chain h b nonces)
    (hbest : s.chain.isBest c (s.chain.detailsOver b).totalDifficulty b.gasUsed = true)
    {mustBeNew valid : Bool} (hcheck : s.chain.checkImport c h mustBeNew valid =
      some (b, (s.chain.detailsOver b).totalDifficulty, nonces))
    (hindexed : Indexed c (s.chain.importBlock c h mustBeNew valid)) :
    (s.next c bb (.importBlock h mustBeNew valid)).Collated c bb := by
  obtain ⟨hsound, hhead⟩ : Sound c s.chain ∧ Headed s.chain := ⟨hs.indexed.sound, hs.indexed.head⟩
  obtain ⟨k, route, hroute, hfresh, hheight, e⟩ := hsound.extended_route hhead hnull ha hbest
  have hlast : s.chain.lastBlockNumber + 1 < 2 ^ 32 := by
    have hbound := hsound.number_lt hhead.known
    rw [hhead.number] at hbound
    unfold c_invalidNumber at hnull
    omega
  have hk := e.le_last
  have hkword : (k + 1) % 2 ^ 32 = k + 1 := Nat.mod_eq_of_lt (by omega)
  have hchain : s.chain.importBlock c h mustBeNew valid =
      s.chain.insertBlockAndExtras c h b (s.chain.detailsOver b).totalDifficulty nonces := by
    rw [BlockChain.importBlock, hcheck]
  have hindex : s.importBlock c bb h mustBeNew valid =
      (s.chain.fresh h b.parentHash k).foldl (collate c bb)
        (if s.chain.ancestor s.chain.lastBlockHash k ≠ s.chain.lastBlockHash then
          s.index.clearBlockBlooms (k + 1) (s.chain.lastBlockNumber + 1) else s.index) := by
    rw [Bloomed.importBlock, hcheck]
    simp only [hbest, if_true, hroute, extend, clear, hheight, hfresh, hkword,
      Nat.mod_eq_of_lt hlast]
  rw [next, hchain, hindex]
  rw [hchain] at hindexed
  generalize s.chain.insertBlockAndExtras c h b (s.chain.detailsOver b).totalDifficulty nonces = s'
    at e hindexed
  refine ⟨hindexed, ?_, ?_⟩
  · intro n hn
    dsimp only at hn ⊢
    have hnew := e.lt_new
    rw [e.lastBlockNumber] at hn
    rw [e.blockHashes]
    split
    · rfl
    · exact hs.above n (by omega)
  · intro n h0 hn
    dsimp only at hn ⊢
    rw [e.lastBlockNumber] at hn
    rw [e.lastBlockHash]
    by_cases hkn : k < n
    · -- A block of the new chain is collated.
      have hmem : s'.ancestor h n ∈ s.chain.fresh h b.parentHash k :=
        (e.mem_fresh hsound).mpr ⟨n, hkn, hn, rfl⟩
      obtain ⟨b', hb', hnumber⟩ :=
        (e.sound hsound).block_ancestor e.known_self (e.self.1.symm ▸ hn)
      rw [← hnumber] at hb' hmem ⊢
      exact covers_of_mem _ hmem hb'
    · -- A block of the old one is below the range that is cleared.
      rw [e.ancestor_of_le hsound hhead (by omega)]
      refine covers_foldl_collate ?_ _
      have hcovers := hs.covers n h0 (by omega)
      split
      · rename_i hne
        have hlt : k ≠ s.chain.lastBlockNumber := by
          rintro rfl
          rw [← hhead.number] at hne
          exact hne (Lib.ancestor_self _ _ _)
        exact hcovers.clearBlockBlooms (by omega) hlast (.inl (by omega)) (by omega)
      · exact hcovers

theorem Collated.importBlock {h : H256} {mustBeNew valid : Bool} (hs : s.Collated c bb)
    (hop : s.Routed c (.importBlock h mustBeNew valid)) :
    (s.next c bb (.importBlock h mustBeNew valid)).Collated c bb := by
  have hindexed := hs.indexed.importBlock (hs.numbersOpen hop)
  have hsound := hs.indexed.sound
  have hhead := hs.indexed.head
  cases hsound.imported_cases hhead h mustBeNew valid with
  | refused check same =>
      rw [next, same, Bloomed.importBlock, check]
      exact hs
  | aside check best inserted same =>
      have hindex : s.importBlock c bb h mustBeNew valid = s.index := by
        rw [Bloomed.importBlock, check]
        simp only [best, Bool.false_eq_true, if_false]
      rw [next, hindex]
      rw [same] at inserted hindexed ⊢
      refine ⟨hindexed, hs.above, ?_⟩
      intro n h0 hn
      have hanc := inserted.ancestor_eq hsound hhead.known n
      exact hanc ▸ hs.covers n h0 hn
  | detached check best null _ =>
      rw [Routed, check] at hop
      exact absurd null (hop best)
  | extended check best null extended =>
      exact hs.extended null extended.accepted best check hindexed

/-- A rewind changes the head and the cache of the number index. -/
theorem rewind_fields {t : BlockChain} {newHead : ℕ} (hlt : newHead < t.lastBlockNumber)
    (hbound : t.lastBlockNumber + 1 < 2 ^ 32) (hread : (t.numberHash c newHead).1 =
      t.ancestor t.lastBlockHash newHead) :
    (t.rewind c newHead).details? = t.details? ∧
      (t.rewind c newHead).lastBlockHash = t.ancestor t.lastBlockHash newHead ∧
      (t.rewind c newHead).lastBlockNumber = newHead ∧
      ∀ n, newHead < n → (∀ m, t.lastBlockNumber < m → t.blockHashes m = none) →
        (t.rewind c newHead).blockHashes n = none := by
  have hword : (newHead + 1) % 2 ^ 32 = newHead + 1 := Nat.mod_eq_of_lt (by omega)
  have hcleared : ∀ n, newHead < n → (∀ m, t.lastBlockNumber < m → t.blockHashes m = none) →
      (t.clearCachesDuringChainReversion (newHead + 1)).blockHashes n = none := by
    intro n hn hnone
    rw [clearCachesDuringChainReversion]
    dsimp only
    split
    · rfl
    · by_cases hlast : t.lastBlockNumber < n
      · exact hnone n hlast
      · omega
  rw [BlockChain.rewind, if_neg (by omega), hword]
  by_cases h0 : newHead = 0
  · subst h0
    exact ⟨rfl, hread, rfl, hcleared⟩
  · have hkept : Cache.lookup (t.clearCachesDuringChainReversion (newHead + 1)).blockHashes
        t.extraBlockHash newHead = Cache.lookup t.blockHashes t.extraBlockHash newHead := by
      rw [Cache.lookup, Cache.lookup, clearCachesDuringChainReversion]
      dsimp only
      rw [if_neg (by omega)]
    rw [numberHash_eq h0] at hread
    dsimp only
    rw [numberHash_eq h0]
    refine ⟨rfl, ?_, rfl, ?_⟩
    · rw [← hread, ← hkept]
      rfl
    · intro n hn hnone
      refine (Function.update_of_ne (by omega) _ _).trans ?_
      exact hcleared n hn hnone

theorem Collated.rewind {newHead : ℕ} (hs : s.Collated c bb)
    (hop : s.Routed c (.rewind newHead)) :
    (s.next c bb (.rewind newHead)).Collated c bb := by
  have hindexed := hs.indexed.rewind newHead
  rw [next, Bloomed.rewind]
  split
  · rename_i hle
    rw [BlockChain.rewind, if_pos hle]
    exact hs
  · rename_i hlt
    have hhead := hs.indexed.head
    have hbound : s.chain.lastBlockNumber + 1 < 2 ^ 32 := by
      have hbound := hs.indexed.sound.number_lt hhead.known
      have hnull := hop (by omega)
      rw [hhead.number] at hbound
      unfold c_invalidNumber at hnull
      omega
    have hread : (s.chain.numberHash c newHead).1 = s.chain.ancestor s.chain.lastBlockHash newHead :=
      hs.indexed.indexIsChain newHead (by omega)
    obtain ⟨hdetails, hhash, hnumber, hcache⟩ := rewind_fields (by omega) hbound hread
    refine ⟨hindexed, ?_, ?_⟩
    · intro n hn
      exact hcache n (hnumber ▸ hn) hs.above
    · intro n h0 hn
      dsimp only at hn ⊢
      rw [hnumber] at hn
      rw [hhash, ancestor_congr hdetails, hs.indexed.sound.ancestor_lower hhead (by omega) hn,
        clear, Nat.mod_eq_of_lt (show newHead + 1 < 2 ^ 32 by omega)]
      exact (hs.covers n h0 (by omega)).clearBlockBlooms (by omega) (by omega) (by omega) (by omega)

/-! ## Runs -/

theorem Collated.next {op : Op} (hs : s.Collated c bb) (hop : s.Routed c op) :
    (s.next c bb op).Collated c bb := by
  cases op with
  | importBlock h mustBeNew valid => exact hs.importBlock hop
  | rewind newHead => exact hs.rewind hop
  | load id => exact hs.congr fun n b h level hlevel => (h level hlevel).load id
  | erase id => exact hs.congr fun n b h level hlevel => (h level hlevel).erase id

theorem collated_start (c : Blocks) (bb : BlockBlooms) : Collated c bb { chain := start c } where
  indexed := indexed_start c
  above := fun _ _ => rfl
  covers := fun n h0 hn => absurd hn (by simp only [start]; omega)

/-- **As long as no head has the number that stands for missing details, the index has the
bloom of every block of the chain but the genesis block.** -/
theorem index_complete (c : Blocks) (bb : BlockBlooms) (ops : List Op)
    (hops : Along (Bloomed.next c bb) (Routed c) { chain := start c } ops) :
    ∀ s ∈ trail (Bloomed.next c bb) id { chain := start c } ops, s.Complete bb 1 := by
  intro s hs
  exact (forall_trail_of_along (fun _ _ h hop => h.next hop) ops (collated_start c bb) hops s
    hs).complete

/-- Blooms of blocks of the author 7, whose logs have no bits. -/
def authorBlooms : BlockBlooms where
  logBloom := fun _ => .empty
  author := fun _ => 7
  sha3 := fun _ => 0x8c3ab0970b73895b8c9959bae685c3a19f45eb5ad89d42b52a340ec4ac204d19

/-- A run with a reversion and a rewind. -/
theorem index_complete_reversion :
    Complete authorBlooms 1 ([.importBlock 1 true true, .importBlock 2 true true, .rewind 0,
      .importBlock 1 true true].foldl (Bloomed.next rivals authorBlooms)
        { chain := start rivals }) := by
  refine index_complete rivals authorBlooms [.importBlock 1 true true, .importBlock 2 true true,
    .rewind 0, .importBlock 1 true true] ⟨?_, ?_, ?_, ?_, trivial⟩ _
    (.tail _ (.tail _ (.tail _ (.tail _ (.head _)))))
  · exact fun _ => by decide +kernel
  · exact fun _ => by decide +kernel
  · exact fun _ => by decide +kernel
  · exact fun _ => by decide +kernel

/-- The genesis block has no bloom in the index. -/
theorem genesis_not_indexed :
    ¬∀ s ∈ trail (Bloomed.next rivals authorBlooms) id { chain := start rivals } [],
      s.Complete authorBlooms 0 := by
  intro hall
  have hentry := (hall _ (.head _) 0 le_rfl le_rfl).1 0 (by decide)
  revert hentry
  decide +kernel

end Bloomed

end CppSwc.BlockChain
