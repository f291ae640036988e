import CppSwc.Chain.NumberIndex

/-!
# Requests for headers

`EthereumHostData::blockHeaders`: a request for headers that go up from a block is turned
into one that goes down from the highest of them.  The highest number is computed in two
places, and the one for requests by hash is off by `skip`.

A fault is an assertion that fails, or a subtraction of unsigned numbers that wraps.  The
other operations on unsigned numbers are written with their modulus.  The lookups of one
request all read the chain it finds: a lookup only loads the caches.
-/

namespace CppSwc.BlockChain

open Lib

/-- Why an answer cannot be relied on. -/
inductive Fault where
  | assertion
  | wrapped
deriving DecidableEq

/-- A subtraction of unsigned numbers. -/
def sub (a b : ℕ) : Except Fault ℕ := if b ≤ a then .ok (a - b) else .error .wrapped

/-- An assertion. -/
def assertThat (p : Prop) [Decidable p] : Except Fault Unit :=
  if p then .ok () else .error .assertion

/-- `_blockId`, which is a hash if it has the size of one. -/
inductive BlockId where
  | hash (h : H256)
  | number (n : ℕ)

/-- `c_maxPayload`. -/
def c_maxPayload : ℕ := 262144

/-- `c_blockNumberUsageLimit`. -/
def c_blockNumberUsageLimit : ℕ := 1000

/-- Where the walk starts, and how many headers it visits: `blockHash` and
`numHeadersToSend`. -/
abbrev Start := H256 × ℕ

variable (c : Blocks) (s : BlockChain)

/-- `top` and `numHeadersToSend` for a request by hash, which are cut at the head. -/
def topOfHash (lastBlock n maxHeaders step : ℕ) : Except Fault (ℕ × ℕ) := do
  let top ← sub ((n + step * maxHeaders) % 2 ^ 64) 1
  if lastBlock < top then
    let left ← sub lastBlock n
    let numHeadersToSend := (left / step + 1) % 2 ^ 32
    let above ← sub numHeadersToSend 1
    return ((n + step * above) % 2 ^ 32, numHeadersToSend)
  else
    return (top, maxHeaders)

/-- The same for a request by number, where `n` and `top` are not bounded. -/
def topOfNumber (lastBlock n maxHeaders step : ℕ) : Except Fault (ℕ × ℕ) := do
  let above ← sub maxHeaders 1
  let top := n + (step * above) % 2 ^ 64
  if lastBlock < top then
    let left ← sub lastBlock (n % 2 ^ 32)
    let numHeadersToSend := (left / step + 1) % 2 ^ 32
    let above ← sub numHeadersToSend 1
    return (n + (step * above) % 2 ^ 32, numHeadersToSend)
  else
    return (top, maxHeaders)

/-- The walk starts at the top block. -/
def startAt (top : ℕ × ℕ) : Except Fault Start := do
  assertThat (top.1 ≤ s.lastBlockNumber)
  return ((s.numberHash c (top.1 % 2 ^ 32)).1, top.2)

/-- The first block of the walk, for a request by hash. -/
def startOfHash (h : H256) (maxHeaders step : ℕ) (reverse : Bool) : Except Fault Start :=
  if s.isKnown c h true = false then .ok (0, maxHeaders)
  else if reverse then .ok (h, maxHeaders)
  else
    let n := s.number h
    if maxHeaders = 0 then .ok (0, maxHeaders)
    else if n ≠ 0 ∨ h = c.genesisHash then
      topOfHash s.lastBlockNumber n maxHeaders step >>= s.startAt c
    else .ok (0, maxHeaders)

/-- The first block of the walk, for a request by number. -/
def startOfNumber (n maxHeaders step : ℕ) (reverse : Bool) : Except Fault Start :=
  if reverse then
    if n ≤ 2 ^ 32 - 1 then .ok ((s.numberHash c n).1, maxHeaders) else .ok (0, maxHeaders)
  else if s.lastBlockNumber < n ∨ maxHeaders = 0 then .ok (0, maxHeaders)
  else topOfNumber s.lastBlockNumber n maxHeaders step >>= s.startAt c

/-- The two ways to name a block. -/
def startOf (id : BlockId) (maxHeaders step : ℕ) (reverse : Bool) : Except Fault Start :=
  match id with
  | .hash h => s.startOfHash c h maxHeaders step reverse
  | .number n => s.startOfNumber c n maxHeaders step reverse

/-- `limitBlock`, the number below which the chain is not expected to change. -/
def limitBlock : Except Fault ℕ :=
  if c_blockNumberUsageLimit < s.lastBlockNumber then sub s.lastBlockNumber c_blockNumberUsageLimit
  else .ok 0

/-- The loop of `nextHash` over the parents: where it ends, and what is left of the step. -/
def descend (limitBlock : ℕ) : ℕ → H256 → H256 × ℕ
  | 0, h => (h, 0)
  | step + 1, h =>
      let details := s.details h
      if details.number < limitBlock then (h, step + 1)
      else descend limitBlock step details.parent

/-- `nextHash`.  Far below the head it looks the number up. -/
def nextHash (h : H256) (step : ℕ) : Except Fault H256 := do
  let limitBlock ← s.limitBlock
  let r := s.descend limitBlock step h
  if r.2 ≠ 0 then
    let n := s.number r.1
    if r.2 ≤ n then do
      let m ← sub n r.2
      pure (s.numberHash c m).1
    else pure 0
  else pure r.1

/-- The loop that collects `hashes`. -/
def walk (step : ℕ) : ℕ → H256 → Except Fault (List H256)
  | 0, _ => .ok []
  | i + 1, h =>
      if h = 0 ∨ s.isKnown c h true = false then .ok []
      else do
        let next ← s.nextHash c h step
        let hashes ← walk step i next
        pure (h :: hashes)

/-- The hashes of the headers, in the order in which these are sent. -/
def requestedHashes (id : BlockId) (maxHeaders skip : ℕ) (reverse : Bool) :
    Except Fault (List H256) := do
  let step := (skip % 2 ^ 32 + 1) % 2 ^ 32
  assertThat (0 < step)
  let start ← s.startOf c id maxHeaders step reverse
  let hashes ← s.walk c step start.2 start.1
  pure (if reverse then hashes else hashes.reverse)

/-- The loop over the headers, which stops when the payload is large enough. -/
def appendHeaders (headerData : H256 → List UInt8) : List H256 → List UInt8 → List UInt8
  | [], rlp => rlp
  | h :: hashes, rlp =>
      if rlp.length < c_maxPayload then appendHeaders headerData hashes (rlp ++ headerData h)
      else rlp

/-- `blockHeaders`. -/
def blockHeaders (headerData : H256 → List UInt8) (id : BlockId) (maxHeaders skip : ℕ)
    (reverse : Bool) : Except Fault (List UInt8 × ℕ) := do
  let hashes ← s.requestedHashes c id maxHeaders skip reverse
  pure (appendHeaders headerData hashes [], hashes.length)

/-! ## The walk -/

variable {c s} {m n k step max : ℕ} {h : H256} {reverse : Bool}

theorem sub_eq {a b : ℕ} (h : b ≤ a) : sub a b = .ok (a - b) := if_pos h

theorem assertThat_eq {p : Prop} [Decidable p] (h : p) : assertThat p = .ok () := if_pos h

/-- The block of the chain with a number. -/
def canonical (s : BlockChain) (n : ℕ) : H256 := s.ancestor s.lastBlockHash n

namespace Indexed

theorem number_canonical (i : Indexed c s) (hn : n ≤ s.lastBlockNumber) :
    s.number (s.canonical n) = n :=
  i.sound.rooted.height_ancestor i.head.known (i.head.number ▸ hn)

theorem isKnown_canonical (i : Indexed c s) (hn : n ≤ s.lastBlockNumber) :
    s.isKnown c (s.canonical n) true = true := by
  have hknown : (s.details? (s.canonical n)).isSome := i.sound.rooted.known_ancestor i.head.known
  simp [isKnown, hknown, i.number_canonical hn, hn]

theorem canonical_ne_zero (i : Indexed c s) : s.canonical n ≠ 0 :=
  i.sound.ne_zero (i.sound.rooted.known_ancestor i.head.known)

theorem numberHash_canonical (i : Indexed c s) (hn : n ≤ s.lastBlockNumber) :
    (s.numberHash c n).1 = s.canonical n :=
  i.indexIsChain n hn

theorem parent_canonical (i : Indexed c s) (hn : n + 1 ≤ s.lastBlockNumber) :
    s.parent (s.canonical (n + 1)) = s.canonical n := by
  have hsplit : s.lastBlockNumber - n = s.lastBlockNumber - (n + 1) + 1 := by omega
  rw [canonical, canonical, BlockChain.ancestor, BlockChain.ancestor, Lib.ancestor, Lib.ancestor,
    i.head.number, hsplit, Function.iterate_succ_apply']

theorem canonical_zero (i : Indexed c s) : s.canonical 0 = c.genesisHash :=
  ancestor_zero i.sound i.head

end Indexed

/-- Above the genesis block there is nothing: details that are missing have the largest
number, and no parent. -/
theorem descend_zero (hs : Sound c s) {limitBlock : ℕ} (hlimit : limitBlock ≤ c_invalidNumber)
    (step : ℕ) : s.descend limitBlock step 0 = (0, 0) := by
  have hnone : s.details? 0 = none := Option.not_isSome_iff_eq_none.mp hs.not_known_zero
  induction step with
  | zero => rfl
  | succ step ih =>
      have hdetails : s.details 0 = {} := by rw [details, hnone]; rfl
      rw [descend, hdetails, if_neg (not_lt.mpr hlimit)]
      exact ih

/-- On the chain, the loop over the parents goes down by at most the step, or off the chain if the
step is too long. -/
theorem Indexed.descend_canonical (i : Indexed c s) {limitBlock : ℕ}
    (hlimit : limitBlock ≤ c_invalidNumber) (step : ℕ) (hm : m ≤ s.lastBlockNumber) :
    (∃ k ≤ step, k ≤ m ∧
        s.descend limitBlock step (s.canonical m) = (s.canonical (m - k), step - k)) ∨
      (m < step ∧ s.descend limitBlock step (s.canonical m) = (0, 0)) := by
  induction step generalizing m with
  | zero => exact .inl ⟨0, le_rfl, Nat.zero_le m, rfl⟩
  | succ step ih =>
      rw [descend]
      split
      · exact .inl ⟨0, Nat.zero_le _, Nat.zero_le m, rfl⟩
      rcases m with - | m
      · -- below the genesis block
        have hparent : (s.details (s.canonical 0)).parent = 0 := by
          rw [i.canonical_zero, details, i.sound.genesis]
          rfl
        rw [hparent, descend_zero i.sound hlimit]
        exact .inr ⟨Nat.succ_pos step, rfl⟩
      · have hparent : (s.details (s.canonical (m + 1))).parent = s.canonical m :=
          i.parent_canonical hm
        rw [hparent]
        rcases ih (m := m) (by omega) with ⟨k, hk, hkm, hrun⟩ | ⟨hlt, hrun⟩
        · refine .inl ⟨k + 1, by omega, by omega, ?_⟩
          rw [hrun, Nat.add_sub_add_right, Nat.add_sub_add_right]
        · exact .inr ⟨by omega, hrun⟩

/-- The limit is a number, and so it is below that of missing details. -/
theorem Indexed.limitBlock_eq (i : Indexed c s) :
    ∃ n ≤ c_invalidNumber, s.limitBlock = .ok n := by
  have hbound := i.sound.number_lt i.head.known
  rw [i.head.number] at hbound
  unfold limitBlock
  split
  · next hlt => exact ⟨_, by rw [c_invalidNumber]; omega, sub_eq hlt.le⟩
  · exact ⟨0, Nat.zero_le _, rfl⟩

/-- One step of the walk down the chain. -/
theorem Indexed.nextHash_canonical (i : Indexed c s) (step : ℕ) (hm : m ≤ s.lastBlockNumber) :
    s.nextHash c (s.canonical m) step = .ok (if step ≤ m then s.canonical (m - step) else 0) := by
  obtain ⟨limitBlock, hlimit, hrun⟩ := i.limitBlock_eq
  simp only [nextHash, hrun, bind, Except.bind]
  rcases i.descend_canonical hlimit step hm with ⟨k, hk, hkm, hdescend⟩ | ⟨hlt, hdescend⟩
  · simp only [hdescend, i.number_canonical (show m - k ≤ s.lastBlockNumber by omega)]
    rcases hk.eq_or_lt with rfl | hk
    · rw [if_neg (by simp), if_pos hkm]
      rfl
    · rw [if_pos (by omega)]
      by_cases hle : step ≤ m
      · have hat : m - k - (step - k) = m - step := by omega
        rw [if_pos (by omega), if_pos hle, sub_eq (by omega)]
        dsimp only
        rw [hat, i.numberHash_canonical (by omega)]
        rfl
      · rw [if_neg (by omega), if_neg hle]
        rfl
  · rw [hdescend, if_neg (by simp), if_neg (by omega)]
    rfl

/-- The numbers of the blocks that a walk down from `m` visits. -/
def downFrom (m step max : ℕ) : List ℕ :=
  ((List.range max).filter fun j => step * j ≤ m).map fun j => m - step * j

theorem downFrom_succ (m step max : ℕ) :
    downFrom m step (max + 1) = m :: if step ≤ m then downFrom (m - step) step max else [] := by
  rw [downFrom, List.range_succ_eq_map, List.filter_cons_of_pos (by simp), List.map_cons,
    Nat.mul_zero, Nat.sub_zero, List.filter_map, List.map_map]
  congr 1
  split
  · next hle =>
      have hfilter : ∀ j, (decide (step * (j + 1) ≤ m)) = decide (step * j ≤ m - step) := by
        intro j
        rw [Nat.mul_succ, decide_eq_decide]
        omega
      have hmap : ∀ j, m - step * (j + 1) = m - step - step * j := by
        intro j
        rw [Nat.mul_succ]
        omega
      simp only [Function.comp_def, Nat.succ_eq_add_one, hfilter, hmap]
      rfl
  · next hlt =>
      rw [List.filter_eq_nil_iff.mpr, List.map_nil]
      intro j _
      simp only [Function.comp_apply, Nat.succ_eq_add_one, Nat.mul_succ, decide_eq_true_eq]
      omega

theorem walk_zero (step max : ℕ) : s.walk c step max 0 = .ok [] := by
  cases max with
  | zero => rfl
  | succ max => exact if_pos (.inl rfl)

/-- The walk visits every block of the chain that is a number of steps below. -/
theorem Indexed.walk_canonical (i : Indexed c s) (step max : ℕ)
    (hm : m ≤ s.lastBlockNumber) :
    s.walk c step max (s.canonical m) = .ok ((downFrom m step max).map s.canonical) := by
  induction max generalizing m with
  | zero => rfl
  | succ max ih =>
      have hgo : ¬(s.canonical m = 0 ∨ s.isKnown c (s.canonical m) true = false) := by
        rw [i.isKnown_canonical hm]
        exact fun h => h.elim i.canonical_ne_zero Bool.noConfusion
      rw [walk, if_neg hgo, i.nextHash_canonical step hm, downFrom_succ]
      simp only [bind, Except.bind, List.map_cons]
      by_cases hle : step ≤ m
      · rw [if_pos hle, if_pos hle, ih (by omega)]
        rfl
      · rw [if_neg hle, if_neg hle, walk_zero]
        rfl

/-! ## The start of the walk -/

/-- The numbers of the blocks that a request asks for. -/
def requested (lastBlock n step max : ℕ) (reverse : Bool) : List ℕ :=
  if reverse then downFrom n step max
  else ((List.range max).filter fun j => n + step * j ≤ lastBlock).map fun j => n + step * j

theorem filter_range_lt (k max : ℕ) :
    (List.range max).filter (fun j => decide (j < k)) = List.range (min k max) := by
  induction max with
  | zero => rw [Nat.min_zero]; rfl
  | succ max ih =>
      rw [List.range_succ, List.filter_append, ih]
      by_cases hlt : max < k
      · rw [List.filter_cons, if_pos (decide_eq_true hlt), min_eq_right hlt.le, min_eq_right hlt,
          List.range_succ]
        rfl
      · rw [List.filter_cons, if_neg (by simpa using hlt), min_eq_left (not_lt.mp hlt),
          min_eq_left (by omega)]
        exact List.append_nil _

/-- A request that goes up has the blocks up to the head. -/
theorem requested_up {lastBlock : ℕ} (hstep : 0 < step) (hn : n ≤ lastBlock) :
    requested lastBlock n step max false =
      (List.range (min ((lastBlock - n) / step + 1) max)).map fun j => n + step * j := by
  have hfilter : ∀ j, decide (n + step * j ≤ lastBlock) =
      decide (j < (lastBlock - n) / step + 1) := by
    intro j
    rw [decide_eq_decide, Nat.lt_succ_iff, Nat.le_div_iff_mul_le hstep, Nat.mul_comm]
    omega
  simp only [requested, hfilter, filter_range_lt, Bool.false_eq_true, if_false]

/-- The walk from the top, read from its end. -/
theorem reverse_downFrom (n step max : ℕ) :
    (downFrom (n + step * (max - 1)) step max).reverse =
      (List.range max).map fun j => n + step * j := by
  have hall : (List.range max).filter (fun j => decide (step * j ≤ n + step * (max - 1))) =
      List.range max := by
    refine List.filter_eq_self.mpr fun j hj => decide_eq_true ?_
    have hle : j ≤ max - 1 := Nat.le_sub_one_of_lt (List.mem_range.mp hj)
    exact (Nat.mul_le_mul_left step hle).trans (Nat.le_add_left _ _)
  rw [downFrom, hall]
  refine List.ext_getElem (by simp) fun j hj hj' => ?_
  have hlt : j < max := by simpa using hj
  have hmul : step * (max - 1) = step * (max - 1 - j) + step * j := by
    rw [← Nat.mul_add, Nat.sub_add_cancel (Nat.le_sub_one_of_lt hlt)]
  simp only [List.getElem_reverse, List.getElem_map, List.getElem_range, List.length_map,
    List.length_range]
  omega

variable {lastBlock : ℕ}

/-- The product is computed with 64 bits, where it fits. -/
theorem mul_lt (hstep : step < 2 ^ 32) (hmax : max < 2 ^ 32) :
    step * max ≤ (2 ^ 32 - 1) * (2 ^ 32 - 1) :=
  Nat.mul_le_mul (Nat.le_sub_one_of_lt hstep) (Nat.le_sub_one_of_lt hmax)

/-- A top above the head is cut to the last step that is not. -/
theorem cut_eq (hlast : lastBlock < 2 ^ 32) (hn : n ≤ lastBlock)
    (hlt : (lastBlock - n) / step < max) (hmax : max < 2 ^ 32) :
    ((lastBlock - n) / step + 1) % 2 ^ 32 = (lastBlock - n) / step + 1 ∧
      n + step * ((lastBlock - n) / step) ≤ lastBlock ∧
      (step * ((lastBlock - n) / step)) % 2 ^ 32 = step * ((lastBlock - n) / step) := by
  have hle := Nat.mul_div_le (lastBlock - n) step
  exact ⟨Nat.mod_eq_of_lt (by omega), by omega, Nat.mod_eq_of_lt (by omega)⟩

/-- There are at least as many blocks up to the head as the top is steps above. -/
theorem le_div_of_le (hstep : 0 < step) (h : n + step * (max - 1) ≤ lastBlock) :
    max - 1 ≤ (lastBlock - n) / step := by
  refine (Nat.le_div_iff_mul_le hstep).mpr ?_
  rw [Nat.mul_comm]
  omega

theorem mul_eq_add (step : ℕ) (hmax : 0 < max) : step * max = step * (max - 1) + step := by
  rw [← Nat.mul_succ, Nat.succ_eq_add_one, Nat.sub_add_cancel hmax]

/-- By number, the walk starts at the last of the blocks. -/
theorem topOfNumber_eq (hlast : lastBlock < 2 ^ 32) (hn : n ≤ lastBlock) (hstep : 0 < step)
    (hstep' : step < 2 ^ 32) (hmax : 0 < max) (hmax' : max < 2 ^ 32) :
    ∃ num, num = min ((lastBlock - n) / step + 1) max ∧
      n + step * (num - 1) ≤ lastBlock ∧
      topOfNumber lastBlock n max step = .ok (n + step * (num - 1), num) := by
  have hmul := mul_lt hstep' (show max - 1 < 2 ^ 32 by omega)
  have hmod : (step * (max - 1)) % 2 ^ 64 = step * (max - 1) := Nat.mod_eq_of_lt (by omega)
  simp only [topOfNumber, sub_eq hmax, bind, Except.bind, hmod]
  by_cases htop : lastBlock < n + step * (max - 1)
  · have hlt : (lastBlock - n) / step < max - 1 :=
      (Nat.div_lt_iff_lt_mul hstep).mpr (by rw [Nat.mul_comm]; omega)
    obtain ⟨hword, hle, hprod⟩ := cut_eq hlast hn (hlt.trans_le (Nat.sub_le max 1)) hmax'
    refine ⟨_, (min_eq_left (by omega)).symm, hle, ?_⟩
    rw [if_pos htop, Nat.mod_eq_of_lt (show n < 2 ^ 32 by omega), sub_eq hn]
    simp only [hword, sub_eq (Nat.le_add_left 1 _), Nat.add_sub_cancel, hprod]
    rfl
  · have hle := le_div_of_le hstep (not_lt.mp htop)
    refine ⟨max, (min_eq_right (by omega)).symm, not_lt.mp htop, ?_⟩
    rw [if_neg htop]
    rfl

/-- By hash, that is so if the top is cut, and otherwise the top is `step - 1` too high. -/
theorem topOfHash_eq (hlast : lastBlock < 2 ^ 32) (hn : n ≤ lastBlock) (hstep : 0 < step)
    (hstep' : step < 2 ^ 32) (hmax : 0 < max) (hmax' : max < 2 ^ 32) :
    ∃ low num, num = min ((lastBlock - n) / step + 1) max ∧
      low = (if lastBlock < n + step * max - 1 then n else n + (step - 1)) ∧
      low + step * (num - 1) ≤ lastBlock ∧
      topOfHash lastBlock n max step = .ok (low + step * (num - 1), num) := by
  have hmul := mul_lt hstep' hmax'
  have hpos : 0 < step * max := Nat.mul_pos hstep hmax
  have hmod : (n + step * max) % 2 ^ 64 = n + step * max := Nat.mod_eq_of_lt (by omega)
  have hone : 1 ≤ n + step * max := by omega
  simp only [topOfHash, hmod, sub_eq hone, bind, Except.bind]
  by_cases htop : lastBlock < n + step * max - 1
  · have hlt : (lastBlock - n) / step < max :=
      (Nat.div_lt_iff_lt_mul hstep).mpr (by rw [Nat.mul_comm]; omega)
    obtain ⟨hword, hle, hprod⟩ := cut_eq hlast hn hlt hmax'
    refine ⟨n, _, (min_eq_left hlt).symm, (if_pos htop).symm, hle, ?_⟩
    rw [if_pos htop, sub_eq hn]
    simp only [hword, sub_eq (Nat.le_add_left 1 _), Nat.add_sub_cancel]
    rw [Nat.mod_eq_of_lt (by omega)]
    rfl
  · have hsplit := mul_eq_add step hmax
    have hle : max - 1 ≤ (lastBlock - n) / step := le_div_of_le hstep (by omega)
    have htop' : n + step * max - 1 = n + (step - 1) + step * (max - 1) := by omega
    refine ⟨_, max, (min_eq_right (by omega)).symm, (if_neg htop).symm, by omega, ?_⟩
    rw [if_neg htop, htop']
    rfl

/-- The walk from a top that is not above the head. -/
theorem Indexed.walk_startAt (i : Indexed c s) {low num : ℕ}
    (hle : low + step * (num - 1) ≤ s.lastBlockNumber) :
    ∃ start, s.startAt c (low + step * (num - 1), num) = .ok start ∧
      (s.walk c step start.2 start.1).map List.reverse =
        .ok (((List.range num).map fun j => low + step * j).map s.canonical) := by
  have hbound := i.sound.number_lt i.head.known
  rw [i.head.number] at hbound
  refine ⟨(s.canonical (low + step * (num - 1)), num), ?_, ?_⟩
  · simp only [startAt, assertThat_eq hle, bind, Except.bind]
    rw [Nat.mod_eq_of_lt (by omega), i.numberHash_canonical hle]
    rfl
  · rw [i.walk_canonical step num hle, Except.map, ← List.map_reverse, reverse_downFrom]

/-! ## Requests -/

/-- `skip` as a step. -/
theorem step_eq {skip : ℕ} (h : skip % 2 ^ 32 ≠ 2 ^ 32 - 1) :
    (skip % 2 ^ 32 + 1) % 2 ^ 32 = skip % 2 ^ 32 + 1 := by
  omega

/-- A request by number goes to the blocks it asks for. -/
theorem Indexed.requestedHashes_number (i : Indexed c s) {skip : ℕ} (hn : n ≤ s.lastBlockNumber)
    (hskip : skip < 2 ^ 32 - 1) (hmax : 0 < max) (hmax' : max < 2 ^ 32) (reverse : Bool) :
    s.requestedHashes c (.number n) max skip reverse =
      .ok ((requested s.lastBlockNumber n (skip + 1) max reverse).map s.canonical) := by
  have hbound := i.sound.number_lt i.head.known
  rw [i.head.number] at hbound
  have hword : skip % 2 ^ 32 = skip := Nat.mod_eq_of_lt (by omega)
  have hstep : (skip % 2 ^ 32 + 1) % 2 ^ 32 = skip + 1 := by rw [step_eq (by omega), hword]
  simp only [requestedHashes, hstep, assertThat_eq (Nat.add_one_pos skip), bind, Except.bind,
    startOf, startOfNumber]
  cases reverse with
  | true =>
      simp only [if_true, if_pos (show n ≤ 2 ^ 32 - 1 by omega), i.numberHash_canonical hn,
        i.walk_canonical _ _ hn]
      rfl
  | false =>
      obtain ⟨num, hnum, hle, htop⟩ := topOfNumber_eq hbound hn (Nat.add_one_pos skip)
        (by omega) hmax hmax'
      obtain ⟨start, hstart, hwalk⟩ := i.walk_startAt hle
      rw [if_neg Bool.false_ne_true, if_neg (by omega)]
      simp only [htop, hstart]
      rw [requested_up (Nat.add_one_pos skip) hn, ← hnum, ← hwalk]
      cases s.walk c (skip + 1) start.2 start.1 <;> rfl

/-- A request by hash goes to the same blocks, or to those that are `skip` higher. -/
theorem Indexed.requestedHashes_hash (i : Indexed c s) {skip : ℕ} (hn : n ≤ s.lastBlockNumber)
    (hskip : skip < 2 ^ 32 - 1) (hmax : 0 < max) (hmax' : max < 2 ^ 32) (reverse : Bool) :
    s.requestedHashes c (.hash (s.canonical n)) max skip reverse =
      .ok ((if reverse = true ∨ s.lastBlockNumber < n + (skip + 1) * max - 1 then
          requested s.lastBlockNumber n (skip + 1) max reverse
        else (List.range max).map fun j => n + skip + (skip + 1) * j).map s.canonical) := by
  have hbound := i.sound.number_lt i.head.known
  rw [i.head.number] at hbound
  have hword : skip % 2 ^ 32 = skip := Nat.mod_eq_of_lt (by omega)
  have hstep : (skip % 2 ^ 32 + 1) % 2 ^ 32 = skip + 1 := by rw [step_eq (by omega), hword]
  simp only [requestedHashes, hstep, assertThat_eq (Nat.add_one_pos skip), bind, Except.bind,
    startOf, startOfHash, i.isKnown_canonical hn, i.number_canonical hn, Bool.true_eq_false,
    if_false]
  cases reverse with
  | true =>
      simp only [if_true, true_or, i.walk_canonical _ _ hn]
      rfl
  | false =>
      obtain ⟨low, num, hnum, hlow, hle, htop⟩ := topOfHash_eq hbound hn (Nat.add_one_pos skip)
        (by omega) hmax hmax'
      obtain ⟨start, hstart, hwalk⟩ := i.walk_startAt hle
      have hgenesis : n ≠ 0 ∨ s.canonical n = c.genesisHash := by
        by_cases h0 : n = 0
        · exact .inr (h0 ▸ i.canonical_zero)
        · exact .inl h0
      rw [if_neg Bool.false_ne_true, if_neg hmax.ne', if_pos hgenesis]
      simp only [htop, hstart, Bool.false_eq_true, false_or, if_false]
      have hlist : (if s.lastBlockNumber < n + (skip + 1) * max - 1 then
            requested s.lastBlockNumber n (skip + 1) max false
          else (List.range max).map fun j => n + skip + (skip + 1) * j) =
          (List.range num).map fun j => low + (skip + 1) * j := by
        split
        · next hcut =>
            rw [requested_up (Nat.add_one_pos skip) hn, ← hnum, hlow, if_pos hcut]
        · next hcut =>
            have hsplit := mul_eq_add (skip + 1) hmax
            have hfit : max - 1 ≤ (s.lastBlockNumber - n) / (skip + 1) :=
              le_div_of_le (Nat.add_one_pos skip) (by omega)
            rw [hnum, min_eq_right (by omega), hlow, if_neg hcut]
            rfl
      rw [hlist, ← hwalk]
      cases s.walk c (skip + 1) start.2 start.1 <;> rfl

/-- These are the blocks it asks for only if they are not higher. -/
theorem Indexed.requestedHashes_hash_iff (i : Indexed c s) {skip : ℕ}
    (hn : n ≤ s.lastBlockNumber) (hskip : skip < 2 ^ 32 - 1) (hmax : 0 < max)
    (hmax' : max < 2 ^ 32) (reverse : Bool) :
    s.requestedHashes c (.hash (s.canonical n)) max skip reverse =
        .ok ((requested s.lastBlockNumber n (skip + 1) max reverse).map s.canonical) ↔
      reverse = true ∨ skip = 0 ∨ s.lastBlockNumber < n + (skip + 1) * max - 1 := by
  rw [i.requestedHashes_hash hn hskip hmax hmax']
  split
  · next hgood =>
      exact iff_of_true rfl (hgood.elim .inl fun h => .inr (.inr h))
  · next hbad =>
      obtain ⟨hup, hlow⟩ := not_or.mp hbad
      obtain rfl := eq_false_of_ne_true hup
      have hsplit := mul_eq_add (skip + 1) hmax
      have hfit : max - 1 ≤ (s.lastBlockNumber - n) / (skip + 1) :=
        le_div_of_le (Nat.add_one_pos skip) (by omega)
      rw [requested_up (Nat.add_one_pos skip) hn, min_eq_right (by omega)]
      constructor
      · intro heq
        -- the first hashes are of blocks with different numbers
        obtain ⟨max, rfl⟩ := Nat.exists_eq_succ_of_ne_zero hmax.ne'
        rw [Except.ok.injEq, List.range_succ_eq_map, List.map_cons, List.map_cons, List.map_cons,
          List.map_cons, List.cons.injEq] at heq
        have hnumber := congrArg s.number heq.1
        rw [Nat.mul_zero, Nat.add_zero, Nat.add_zero, i.number_canonical hn,
          i.number_canonical (by omega)] at hnumber
        exact .inr (.inl (by omega))
      · rintro (h | rfl | h)
        · cases h
        · rfl
        · exact absurd h hlow

/-! ## Faults -/

theorem Indexed.nextHash_isOk (i : Indexed c s) (h : H256) (step : ℕ) :
    ∃ h', s.nextHash c h step = .ok h' := by
  obtain ⟨limitBlock, -, hrun⟩ := i.limitBlock_eq
  simp only [nextHash, hrun, bind, Except.bind]
  split
  · split
    · next hle =>
        rw [sub_eq hle]
        exact ⟨_, rfl⟩
    · exact ⟨_, rfl⟩
  · exact ⟨_, rfl⟩

theorem Indexed.walk_isOk (i : Indexed c s) (step max : ℕ) (h : H256) :
    ∃ hashes, s.walk c step max h = .ok hashes := by
  induction max generalizing h with
  | zero => exact ⟨_, rfl⟩
  | succ max ih =>
      rw [walk]
      split
      · exact ⟨_, rfl⟩
      · obtain ⟨h', hnext⟩ := i.nextHash_isOk h step
        obtain ⟨hashes, hrest⟩ := ih h'
        simp only [hnext, hrest, bind, Except.bind]
        exact ⟨_, rfl⟩

/-- A block that counts as known is not above the head. -/
theorem Indexed.number_le (i : Indexed c s) (hx : s.isKnown c h true = true) :
    s.number h ≤ s.lastBlockNumber := by
  simp only [isKnown, Bool.or_eq_true, beq_iff_eq, Bool.and_eq_true, Bool.not_true,
    Bool.false_or, decide_eq_true_eq] at hx
  rcases hx with rfl | ⟨-, hle⟩
  · rw [i.sound.rooted.root_height]
    exact Nat.zero_le _
  · exact hle

theorem Indexed.startOfHash_isOk (i : Indexed c s) (h : H256) (hstep : 0 < step)
    (hstep' : step < 2 ^ 32) (hmax : max < 2 ^ 32) (reverse : Bool) :
    ∃ start, s.startOfHash c h max step reverse = .ok start := by
  have hbound := i.sound.number_lt i.head.known
  rw [i.head.number] at hbound
  rw [startOfHash]
  split
  · exact ⟨_, rfl⟩
  next hknown =>
  split
  · exact ⟨_, rfl⟩
  dsimp only
  split
  · exact ⟨_, rfl⟩
  next hpos =>
  split
  · have hn := i.number_le (eq_true_of_ne_false hknown)
    obtain ⟨low, num, -, -, hle, htop⟩ := topOfHash_eq hbound hn hstep hstep'
      (Nat.pos_of_ne_zero hpos) hmax
    obtain ⟨start, hstart, -⟩ := i.walk_startAt hle
    exact ⟨start, by simp only [htop, hstart, bind, Except.bind]⟩
  · exact ⟨_, rfl⟩

theorem Indexed.startOfNumber_isOk (i : Indexed c s) (n : ℕ) (hstep : 0 < step)
    (hstep' : step < 2 ^ 32) (hmax : max < 2 ^ 32) (reverse : Bool) :
    ∃ start, s.startOfNumber c n max step reverse = .ok start := by
  have hbound := i.sound.number_lt i.head.known
  rw [i.head.number] at hbound
  rw [startOfNumber]
  split
  · split <;> exact ⟨_, rfl⟩
  split
  · exact ⟨_, rfl⟩
  · next hsome =>
      obtain ⟨hn, hpos⟩ := not_or.mp hsome
      obtain ⟨num, -, hle, htop⟩ := topOfNumber_eq hbound (not_lt.mp hn) hstep hstep'
        (Nat.pos_of_ne_zero hpos) hmax
      obtain ⟨start, hstart, -⟩ := i.walk_startAt hle
      exact ⟨start, by simp only [htop, hstart, bind, Except.bind]⟩

theorem Indexed.startOf_isOk (i : Indexed c s) (id : BlockId) (hstep : 0 < step)
    (hstep' : step < 2 ^ 32) (hmax : max < 2 ^ 32) (reverse : Bool) :
    ∃ start, s.startOf c id max step reverse = .ok start := by
  cases id with
  | hash h => exact i.startOfHash_isOk h hstep hstep' hmax reverse
  | number n => exact i.startOfNumber_isOk n hstep hstep' hmax reverse

/-- No request meets a fault but one with a step of zero. -/
theorem Indexed.requestedHashes_isOk_iff (i : Indexed c s) (id : BlockId) (skip : ℕ)
    (hmax : max < 2 ^ 32) (reverse : Bool) :
    (∃ hashes, s.requestedHashes c id max skip reverse = .ok hashes) ↔
      skip % 2 ^ 32 ≠ 2 ^ 32 - 1 := by
  have hstep' : (skip % 2 ^ 32 + 1) % 2 ^ 32 < 2 ^ 32 := Nat.mod_lt _ (by decide)
  constructor
  · rintro ⟨hashes, hrun⟩ hall
    rw [requestedHashes, hall] at hrun
    cases hrun
  · intro hskip
    have hstep : 0 < (skip % 2 ^ 32 + 1) % 2 ^ 32 := by
      rw [step_eq hskip]
      exact Nat.succ_pos _
    obtain ⟨start, hstart⟩ := i.startOf_isOk id hstep hstep' hmax reverse
    obtain ⟨hashes, hwalk⟩ := i.walk_isOk ((skip % 2 ^ 32 + 1) % 2 ^ 32) start.2 start.1
    refine ⟨if reverse then hashes else hashes.reverse, ?_⟩
    simp only [requestedHashes, assertThat_eq hstep, hstart, hwalk, bind, Except.bind]
    rfl

/-- **In every run that keeps the number index, a request by number is answered with the headers it
asks for, and one by hash exactly if it goes down, takes every block, or is cut at the head.  No
request meets a fault but one with a step of zero.** -/
theorem blockHeaders_requested_iff (c : Blocks) (ops : List Op)
    (hopen : Along (next c) (NumbersOpen c) (start c) ops) :
    ∀ s ∈ trail (next c) id (start c) ops,
      (∀ n ≤ s.lastBlockNumber, ∀ max skip reverse,
        0 < max → max < 2 ^ 32 → skip < 2 ^ 32 - 1 →
        s.requestedHashes c (.number n) max skip reverse =
            .ok ((requested s.lastBlockNumber n (skip + 1) max reverse).map s.canonical) ∧
        (s.requestedHashes c (.hash (s.canonical n)) max skip reverse =
            .ok ((requested s.lastBlockNumber n (skip + 1) max reverse).map s.canonical) ↔
          reverse = true ∨ skip = 0 ∨ s.lastBlockNumber < n + (skip + 1) * max - 1)) ∧
      ∀ id max skip reverse, max < 2 ^ 32 →
        ((∃ hashes, s.requestedHashes c id max skip reverse = .ok hashes) ↔
          skip % 2 ^ 32 ≠ 2 ^ 32 - 1) := by
  intro s hs
  have i : Indexed c s :=
    forall_trail_of_along (fun _ _ hi hok => hi.next hok) ops (indexed_start c) hopen s hs
  refine ⟨fun n hn max skip reverse hmax hmax' hskip => ⟨?_, ?_⟩,
    fun id max skip reverse hmax => ?_⟩
  · exact i.requestedHashes_number hn hskip hmax hmax' reverse
  · exact i.requestedHashes_hash_iff hn hskip hmax hmax' reverse
  · exact i.requestedHashes_isOk_iff id skip hmax reverse

/-- A chain of three blocks over the genesis block, each with the hash above its number. -/
def line : Blocks :=
  { siblings with
    block := fun h =>
      if h = 1 then some ⟨0, 0, 1, 0, []⟩
      else if h = 2 ∨ h = 3 ∨ h = 4 then some ⟨h - 1, h.toNat - 1, 1, 0, []⟩ else none
    genesisHash := 1
    block_zero := by decide
    block_genesis := by decide }

/-- The imports of its blocks. -/
def lineImports : List Op :=
  [.importBlock 2 true true, .importBlock 3 true true, .importBlock 4 true true]

theorem blockHeaders_requested_iff_line :
    ∃ s ∈ trail (next line) id (start line) lineImports, s.lastBlockNumber = 3 ∧
      (s.requestedHashes line (.number 0) 2 1 false =
          .ok ((requested s.lastBlockNumber 0 2 2 false).map s.canonical) ∧
        (s.requestedHashes line (.hash (s.canonical 0)) 2 1 false =
            .ok ((requested s.lastBlockNumber 0 2 2 false).map s.canonical) ↔
          false = true ∨ 1 = 0 ∨ s.lastBlockNumber < 0 + 2 * 2 - 1)) ∧
      ((∃ hashes, s.requestedHashes line (.hash 4) 2 1 true = .ok hashes) ↔
        1 % 2 ^ 32 ≠ 2 ^ 32 - 1) := by
  have hopen : Along (next line) (NumbersOpen line) (start line) lineImports :=
    (forall_trail_iff (fun _ i => i.indexIsChain) (fun _ op i => i.next_iff op)
      (fun _ _ i hok => i.next hok) lineImports (indexed_start line)).mp (by decide +kernel)
  obtain ⟨s, hs, hlast⟩ : ∃ s ∈ trail (next line) id (start line) lineImports,
      s.lastBlockNumber = 3 := by
    decide +kernel
  obtain ⟨hrequested, hfault⟩ := blockHeaders_requested_iff line lineImports hopen s hs
  exact ⟨s, hs, hlast, hrequested 0 (Nat.zero_le _) 2 1 false (by decide) (by decide) (by decide),
    hfault (.hash 4) 2 1 true (by decide)⟩

/-- By the hash of the genesis block, every second of four blocks starts with block 1. -/
theorem skipped_start :
    ¬∀ s ∈ trail (next line) id (start line) lineImports,
      s.requestedHashes line (.hash (s.canonical 0)) 2 1 false =
        s.requestedHashes line (.number 0) 2 1 false := by
  decide +kernel

end CppSwc.BlockChain
