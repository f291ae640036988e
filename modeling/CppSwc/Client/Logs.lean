import CppSwc.Chain.Blooms
import CppSwc.Chain.TreeRoute
import Mathlib.Data.List.Dedup
import Mathlib.Data.List.Flatten
import Mathlib.Data.List.Sort

/-!
# Log queries

`ClientBase::logs` looks for the blocks of a range with the bloom index, by the blooms of
`bloomPossibilities`, and then for the log entries in their receipts.

A log entry is wanted with any of the alternatives of a topic position, but the blooms of
the alternatives are joined, and so a block is found by a position only if it has the bits
of all of them.

`logs` reads caches, which changes no later read.
-/

namespace CppSwc

open Lib BlockChain

/-- `PendingBlockHash`. -/
def PendingBlockHash : H256 := 0

/-- `EarliestBlockHash`. -/
def EarliestBlockHash : H256 := 1

/-- `LatestBlockHash`. -/
def LatestBlockHash : H256 := 2

/-- `LogFilter`. -/
structure LogFilter where
  addresses : List Address := []
  topics : Fin 4 → List H256 := fun _ => []
  earliest : H256 := EarliestBlockHash
  latest : H256 := PendingBlockHash

namespace LogFilter

/-- `isRangeFilter`. -/
def isRangeFilter (f : LogFilter) : Bool :=
  f.addresses.isEmpty && (List.finRange 4).all fun i => (f.topics i).isEmpty

/-- `matches` for a bloom. -/
def matchesBloom (sha3 : LogHashes) (f : LogFilter) (b : LogBloom) : Bool :=
  (f.addresses.isEmpty || f.addresses.any fun a => b.containsBloom (sha3.address a)) &&
    (List.finRange 4).all fun i =>
      (f.topics i).isEmpty || (f.topics i).any fun t => b.containsBloom (sha3.topic t)

/-- The positions with topics. -/
def constrained (f : LogFilter) : List (Fin 4) :=
  (List.finRange 4).filter fun i => !(f.topics i).isEmpty

/-- The topics of a position are added to a bloom. -/
def shiftTopics (sha3 : LogHashes) (f : LogFilter) (b : LogBloom) (i : Fin 4) : LogBloom :=
  ((f.topics i).map sha3.topic).foldl LogBloom.shiftBloom b

/-- `bloomPossibilities`. -/
def bloomPossibilities (sha3 : LogHashes) (f : LogFilter) : List LogBloom :=
  let ofAddress := fun a => LogBloom.empty.shiftBloom (sha3.address a)
  let both := f.addresses.flatMap fun a => f.constrained.map (f.shiftTopics sha3 (ofAddress a))
  let ret := if both.isEmpty then f.addresses.map ofAddress else both
  if f.addresses.isEmpty then ret ++ f.constrained.map (f.shiftTopics sha3 .empty) else ret

/-- The test of `matches` on a log entry.  The size is compared with `<`, so a topic may be
read past the end. -/
def test (stray : List H256 → H256) (f : LogFilter) (e : LogEntry) : Bool :=
  (f.addresses.isEmpty || f.addresses.contains e.address) &&
    (List.finRange 4).all fun i => (f.topics i).isEmpty ||
      !decide (e.topics.length < i) && (f.topics i).contains (e.topics.getD i (stray e.topics))

/-- `matches` for a receipt. -/
def matchesReceipt (sha3 : LogHashes) (stray : List H256 → H256) (f : LogFilter)
    (r : LogEntries) : List LogEntry :=
  if f.isRangeFilter then r
  else if f.matchesBloom sha3 (r.bloom sha3) then r.filter (f.test stray)
  else []

/-- The log entry has an address and topics of the filter. -/
def wants (f : LogFilter) (e : LogEntry) : Bool :=
  (f.addresses.isEmpty || f.addresses.contains e.address) &&
    (List.finRange 4).all fun i => (f.topics i).isEmpty ||
      (e.topics[(i : ℕ)]?).any fun t => (f.topics i).contains t

variable {sha3 : LogHashes} {stray : List H256 → H256} {f : LogFilter} {e : LogEntry}

theorem wants_iff : f.wants e = true ↔ (f.addresses = [] ∨ e.address ∈ f.addresses) ∧
    ∀ i, f.topics i = [] ∨ ∃ t, e.topics[(i : ℕ)]? = some t ∧ t ∈ f.topics i := by
  simp only [wants, Bool.and_eq_true, Bool.or_eq_true, List.isEmpty_iff, List.contains_iff_mem,
    List.all_eq_true, List.mem_finRange, true_imp_iff, Option.any_eq_true]

theorem isRangeFilter_iff : f.isRangeFilter = true ↔ f.addresses = [] ∧ f.constrained = [] := by
  simp [isRangeFilter, constrained, List.filter_eq_nil_iff]

theorem mem_constrained {i : Fin 4} : i ∈ f.constrained ↔ f.topics i ≠ [] := by
  simp [constrained]

/-- A wanted log entry passes the test. -/
theorem test_of_wants (he : f.wants e = true) : f.test stray e = true := by
  obtain ⟨haddress, htopics⟩ := wants_iff.mp he
  simp only [test, Bool.and_eq_true, Bool.or_eq_true, List.isEmpty_iff, List.contains_iff_mem,
    List.all_eq_true, List.mem_finRange, true_imp_iff, Bool.not_eq_true', decide_eq_false_iff_not]
  refine ⟨haddress, fun i => (htopics i).imp_right ?_⟩
  rintro ⟨t, ht, hmem⟩
  have hlt := (List.getElem?_eq_some_iff.mp ht).1
  refine ⟨by omega, ?_⟩
  rwa [List.getD_eq_getElem?_getD, ht]

/-- A bloom with the bits of a wanted log entry matches. -/
theorem matchesBloom_of_wants (he : f.wants e = true) {b : LogBloom}
    (haddress : b.containsBloom (sha3.address e.address) = true)
    (htopics : ∀ t ∈ e.topics, b.containsBloom (sha3.topic t) = true) :
    f.matchesBloom sha3 b = true := by
  obtain ⟨hwanted, hwanted'⟩ := wants_iff.mp he
  simp only [matchesBloom, Bool.and_eq_true, Bool.or_eq_true, List.isEmpty_iff, List.any_eq_true,
    List.all_eq_true, List.mem_finRange, true_imp_iff]
  refine ⟨hwanted.imp_right fun hmem => ⟨_, hmem, haddress⟩, fun i => (hwanted' i).imp_right ?_⟩
  rintro ⟨t, ht, hmem⟩
  exact ⟨t, hmem, htopics t (List.mem_of_getElem? ht)⟩

theorem contains_shiftTopics {b b' : LogBloom} {i : Fin 4} :
    b.contains (f.shiftTopics sha3 b' i) = true ↔ b.contains b' = true ∧
      ∀ t ∈ f.topics i, b.containsBloom (sha3.topic t) = true := by
  rw [shiftTopics, LogBloom.contains_foldl_shiftBloom, List.forall_mem_map]

/-- The blooms that are looked for. -/
theorem mem_bloomPossibilities {b : LogBloom} : b ∈ f.bloomPossibilities sha3 ↔
    (f.addresses = [] ∧ ∃ i ∈ f.constrained, f.shiftTopics sha3 .empty i = b) ∨
    ∃ a ∈ f.addresses,
      (f.constrained = [] ∧ LogBloom.empty.shiftBloom (sha3.address a) = b) ∨
      ∃ i ∈ f.constrained,
        f.shiftTopics sha3 (LogBloom.empty.shiftBloom (sha3.address a)) i = b := by
  rw [bloomPossibilities]
  cases f.addresses with
  | nil => simp
  | cons a as =>
      cases f.constrained with
      | nil => simp [eq_comm (a := b)]
      | cons i is => simp [eq_comm (a := b), or_assoc]

/-- **Some bloom is contained in all of `bs` exactly if the bits of all alternatives of some
position are,** for `bs` with the bits of some address. -/
theorem exists_bloomPossibilities {bs : List LogBloom} (hrange : f.isRangeFilter = false)
    (haddress : f.addresses = [] ∨
      ∃ a ∈ f.addresses, ∀ y ∈ bs, y.containsBloom (sha3.address a) = true) :
    (∃ b ∈ f.bloomPossibilities sha3, ∀ y ∈ bs, y.contains b = true) ↔ f.constrained = [] ∨
      ∃ i ∈ f.constrained, ∀ t ∈ f.topics i, ∀ y ∈ bs, y.containsBloom (sha3.topic t) = true := by
  constructor
  · rintro ⟨b, hb, hcontains⟩
    obtain ⟨-, i, hi, rfl⟩ | ⟨a, -, ⟨hnil, -⟩ | ⟨i, hi, rfl⟩⟩ := mem_bloomPossibilities.mp hb
    · exact .inr ⟨i, hi, fun t ht y hy => (contains_shiftTopics.mp (hcontains y hy)).2 t ht⟩
    · exact .inl hnil
    · exact .inr ⟨i, hi, fun t ht y hy => (contains_shiftTopics.mp (hcontains y hy)).2 t ht⟩
  · intro htopics
    have hempty : ∀ a, (∀ y ∈ bs, y.containsBloom (sha3.address a) = true) →
        ∀ y ∈ bs, y.contains (LogBloom.empty.shiftBloom (sha3.address a)) = true :=
      fun a ha y hy => LogBloom.contains_shiftBloom.mpr ⟨y.contains_empty, ha y hy⟩
    rcases htopics with hnil | ⟨i, hi, htopics⟩
    · rcases haddress with hno | ⟨a, ha, hbits⟩
      · rw [isRangeFilter_iff.mpr ⟨hno, hnil⟩] at hrange
        cases hrange
      · exact ⟨_, mem_bloomPossibilities.mpr (.inr ⟨a, ha, .inl ⟨hnil, rfl⟩⟩), hempty a hbits⟩
    · rcases haddress with hno | ⟨a, ha, hbits⟩
      · refine ⟨_, mem_bloomPossibilities.mpr (.inl ⟨hno, i, hi, rfl⟩), fun y hy => ?_⟩
        exact contains_shiftTopics.mpr ⟨y.contains_empty, fun t ht => htopics t ht y hy⟩
      · refine ⟨_, mem_bloomPossibilities.mpr (.inr ⟨a, ha, .inr ⟨i, hi, rfl⟩⟩), fun y hy => ?_⟩
        exact contains_shiftTopics.mpr ⟨hempty a hbits y hy, fun t ht => htopics t ht y hy⟩

/-- All wanted log entries of a receipt match. -/
theorem filter_matchesReceipt (sha3 : LogHashes) (stray : List H256 → H256) (f : LogFilter)
    (r : LogEntries) :
    (f.matchesReceipt sha3 stray r).filter f.wants = r.filter f.wants := by
  rw [matchesReceipt]
  split
  · rfl
  · split
    · rw [List.filter_filter]
      refine List.filter_congr fun e _ => ?_
      cases hwants : f.wants e with
      | true => rw [test_of_wants hwants, Bool.and_self]
      | false => rw [Bool.false_and]
    · rename_i hbloom
      refine (List.filter_eq_nil_iff.mpr fun e he hwants => hbloom ?_).symm
      obtain ⟨haddress, htopics⟩ := LogEntries.contains_bloom sha3 he
      exact matchesBloom_of_wants hwants haddress htopics

end LogFilter

/-- `BlockPolarity`. -/
inductive BlockPolarity where
  | Unknown
  | Dead
  | Live
deriving DecidableEq

/-- `LocalisedLogEntry`. -/
structure LocalisedLogEntry where
  entry : LogEntry
  blockHash : H256 := 0
  blockNumber : ℕ := 0
  transactionHash : H256 := 0
  transactionIndex : ℕ := 0
  logIndex : ℕ := 0
  polarity : BlockPolarity := .Unknown
  mined : Bool := false
deriving DecidableEq

/-- What a query reads besides the chain. -/
structure LogSource where
  sha3 : LogHashes
  /-- The logs of the receipts of a block. -/
  receipts : H256 → List LogEntries
  /-- The hash of a transaction of a block. -/
  transactionHash : H256 → ℕ → H256
  /-- The logs of the receipts of `postSeal`. -/
  pending : List LogEntries
  /-- What is read past the end of some topics. -/
  stray : List H256 → H256

namespace BlockChain

/-- `treeRoute` without the common block, and with its index. -/
def treeRouteApart (s : BlockChain) (a b : H256) : Option (List H256 × H256 × ℕ) :=
  if a = 0 ∨ b = 0 ∨ (s.details a).isNull ∨ (s.details b).isNull then some ([], 0, 0)
  else
    let fn := s.number a
    let tn := s.number b
    let pre := climb s.parent (fn - tn) a
    let post := climb s.parent (tn - fn) b
    (meet s.parent (min fn tn + 1) pre.2 post.2).map fun r =>
      let ret := pre.1 ++ r.1.dropLast
      (ret ++ (post.1 ++ r.2.1).reverse, r.2.2, ret.length)

/-- `numberFromHash`. -/
def numberFromHash (s : BlockChain) (h : H256) : ℕ :=
  if h = PendingBlockHash then (s.lastBlockNumber + 1) % 2 ^ 32
  else if h = LatestBlockHash then s.lastBlockNumber
  else if h = EarliestBlockHash then 0
  else s.number h

end BlockChain

namespace Logs

variable (c : Blocks) (src : LogSource) (f : LogFilter) (s : Bloomed)

/-- The log entries that match in a block. -/
def fromBlock (h : H256) (polarity : BlockPolarity) : List LocalisedLogEntry :=
  (src.receipts h).zipIdx.flatMap fun r =>
    (f.matchesReceipt src.sha3 src.stray r.1).map fun e =>
      { entry := e, blockHash := h, blockNumber := s.chain.number h
        transactionHash := src.transactionHash h r.2, transactionIndex := r.2
        logIndex := 0, polarity := polarity, mined := true }

/-- `prependLogsFromBlock`. -/
def prependLogsFromBlock (polarity : BlockPolarity) (logs : List LocalisedLogEntry) (h : H256) :
    List LocalisedLogEntry :=
  (fromBlock src f s h polarity).foldl (fun ret e => e :: ret) logs

/-- The log entries of pending transactions. -/
def fromPending : List LocalisedLogEntry :=
  (src.pending.flatMap (f.matchesReceipt src.sha3 src.stray)).foldl
    (fun ret e => { entry := e } :: ret) []

/-- The latest number, from which the range is searched. -/
def beginOf : ℕ :=
  min ((s.chain.lastBlockNumber + 1) % 2 ^ 32) (s.chain.numberFromHash f.latest)

/-- The number to which it is searched, before the route is known. -/
def endOf : ℕ :=
  min s.chain.lastBlockNumber (min (beginOf f s) (s.chain.numberFromHash f.earliest))

/-- The blocks that are looked at, in the order of a set.  The loop over all blocks ends, as
no block has the last number of an `unsigned`. -/
def matchingBlocks (fin begin : ℕ) : List ℕ :=
  let found := if f.isRangeFilter then List.range' fin (begin + 1 - fin)
    else (f.bloomPossibilities src.sha3).flatMap fun b => s.index.withBlockBloom b fin begin
  found.dedup.insertionSort (· ≤ ·)

/-- `logs`.  There is no result where an assertion fails. -/
def logs : Option (List LocalisedLogEntry) :=
  let isPending := decide (s.chain.lastBlockNumber < beginOf f s)
  let begin := if isPending then s.chain.lastBlockNumber else beginOf f s
  (s.chain.treeRouteApart f.earliest f.latest).map fun r =>
    let dead := (r.1.take r.2.2).foldl (prependLogsFromBlock src f s .Dead)
      (if isPending then fromPending src f else [])
    let fin := min (endOf f s) ((s.chain.numberFromHash r.2.1 + 1) % 2 ^ 32)
    ((matchingBlocks src f s fin begin).foldl (fun ret n =>
      prependLogsFromBlock src f s .Live ret (s.chain.numberHash c n).1) dead).reverse

/-! ## What a query is to find -/

/-- The hash names a block of the chain: its own, or one of the special ones. -/
def Names (s : BlockChain) (h : H256) (n : ℕ) : Prop :=
  n ≤ s.lastBlockNumber ∧ (h = s.ancestor s.lastBlockHash n ∨
    h = EarliestBlockHash ∧ n = 0 ∨
    (h = LatestBlockHash ∨ h = PendingBlockHash) ∧ n = s.lastBlockNumber)

/-- The log entries that are wanted of a block of the chain. -/
def wanted (n : ℕ) : List LocalisedLogEntry :=
  let h := s.chain.ancestor s.chain.lastBlockHash n
  (src.receipts h).zipIdx.flatMap fun r => (r.1.filter f.wants).map fun e =>
    { entry := e, blockHash := h, blockNumber := n
      transactionHash := src.transactionHash h r.2, transactionIndex := r.2
      logIndex := 0, polarity := .Live, mined := true }

/-- The entry is wanted and is in a block of the range. -/
def inRange (e l : ℕ) (x : LocalisedLogEntry) : Bool :=
  x.mined && decide (e ≤ x.blockNumber ∧ x.blockNumber ≤ l) && f.wants x.entry

/-- Among the results are the wanted log entries of the range, once each and in order. -/
def FindsAll (e l : ℕ) : Prop :=
  (logs c src f s).map (List.filter (inRange f e l)) =
    some ((List.range' e (l + 1 - e)).flatMap (wanted src f s))

/-- The chain is as its imports leave it, and its index has the blooms of all receipts. -/
structure Searchable : Prop where
  indexed : Indexed c s.chain
  numbered : Numbered c s.chain
  bounded : s.chain.lastBlockNumber < c_invalidNumber
  earliest : ¬s.chain.Known EarliestBlockHash
  latest : ¬s.chain.Known LatestBlockHash
  noFalseNegatives : ∀ n ≤ s.chain.lastBlockNumber,
    ∀ r ∈ src.receipts (s.chain.ancestor s.chain.lastBlockHash n), ∀ level < c_bloomIndexLevels,
      (s.index.entry level (n / c_bloomIndexSize ^ level)).contains (r.bloom src.sha3) = true

/-- The index finds a block by the topics of some position, if any are constrained. -/
def Findable (l n : ℕ) : Prop :=
  f.isRangeFilter = true ∨ n / 256 ≤ BloomIndex.ceilDiv l 256 ∧ (f.constrained = [] ∨
    ∃ i ∈ f.constrained, ∀ t ∈ f.topics i, ∀ level < c_bloomIndexLevels,
      (s.index.entry level (n / c_bloomIndexSize ^ level)).containsBloom (src.sha3.topic t) = true)

variable {c src f s} {e l n : ℕ} {h : H256}

/-! ## The range -/

theorem Searchable.number_eq (hs : Searchable c src s) (hn : n ≤ s.chain.lastBlockNumber) :
    s.chain.number (s.chain.ancestor s.chain.lastBlockHash n) = n := by
  have hhead := hs.indexed.head
  exact hs.indexed.sound.rooted.height_ancestor hhead.known (hhead.number ▸ hn)

theorem Searchable.known (hs : Searchable c src s) (n : ℕ) :
    s.chain.Known (s.chain.ancestor s.chain.lastBlockHash n) :=
  hs.indexed.sound.rooted.known_ancestor hs.indexed.head.known

/-- The number of a hash, of a machine word. -/
theorem Searchable.numberFromHash (hs : Searchable c src s) (hn : Names s.chain h n) :
    s.chain.numberFromHash h = n ∨
      s.chain.numberFromHash h = s.chain.lastBlockNumber + 1 ∧ n = s.chain.lastBlockNumber := by
  have hlast := hs.bounded
  obtain ⟨hle, rfl | ⟨rfl, rfl⟩ | ⟨rfl | rfl, rfl⟩⟩ := hn
  · left
    have hknown := hs.known n
    rw [BlockChain.numberFromHash, if_neg, if_neg, if_neg, hs.number_eq hle]
    · exact fun heq => hs.earliest (heq ▸ hknown)
    · exact fun heq => hs.latest (heq ▸ hknown)
    · exact hs.indexed.sound.ne_zero hknown
  · exact .inl rfl
  · exact .inl rfl
  · right
    refine ⟨?_, rfl⟩
    unfold c_invalidNumber at hlast
    rw [BlockChain.numberFromHash, if_pos rfl, Nat.mod_eq_of_lt (by omega)]

/-- The route has no block on the way down, and ends above the range. -/
theorem Searchable.treeRouteApart (hs : Searchable c src s) (he : Names s.chain f.earliest e)
    (hl : Names s.chain f.latest l) (hel : e ≤ l) :
    ∃ blocks common, s.chain.treeRouteApart f.earliest f.latest = some (blocks, common, 0) := by
  rw [BlockChain.treeRouteApart]
  split
  · exact ⟨_, _, rfl⟩
  · rename_i hguard
    have hnull : ∀ {h}, ¬s.chain.Known h → (s.chain.details h).isNull = true := by
      intro h hnot
      rw [Known, Option.not_isSome_iff_eq_none] at hnot
      rw [details, hnot]
      rfl
    have hself : ∀ {h n}, Names s.chain h n → h ≠ 0 → ¬(s.chain.details h).isNull = true →
        h = s.chain.ancestor s.chain.lastBlockHash n := by
      rintro h n ⟨-, rfl | ⟨rfl, -⟩ | ⟨rfl | rfl, -⟩⟩ hzero hsome
      · rfl
      · exact absurd (hnull hs.earliest) hsome
      · exact absurd (hnull hs.latest) hsome
      · exact absurd rfl hzero
    simp only [not_or] at hguard
    obtain ⟨hzero, hzero', hsome, hsome'⟩ := hguard
    have hearliest := hself he hzero hsome
    have hlatest := hself hl hzero' hsome'
    have hclimb : s.chain.parent^[l - e] f.latest = f.earliest := by
      have hstep := hs.indexed.sound.rooted.ancestor_ancestor hs.indexed.head.known hel
        (hs.indexed.head.number ▸ hl.1)
      have hheight := hs.number_eq hl.1
      rw [BlockChain.ancestor] at hheight
      rw [Lib.ancestor, hheight] at hstep
      rw [hearliest, hlatest]
      exact hstep
    have hdown : s.chain.number f.earliest - s.chain.number f.latest = 0 := by
      rw [hearliest, hlatest, hs.number_eq he.1, hs.number_eq hl.1]
      omega
    have hup : s.chain.number f.latest - s.chain.number f.earliest = l - e := by
      rw [hearliest, hlatest, hs.number_eq he.1, hs.number_eq hl.1]
    refine ⟨List.reverse (List.iterate s.chain.parent f.latest (l - e)), f.earliest, ?_⟩
    simp only [hdown, hup, climb_eq, hclimb, List.iterate, Function.iterate_zero, id_eq, meet,
      if_pos, Option.map_some, List.dropLast_singleton, List.nil_append, List.append_nil,
      List.length_nil]

/-! ## The blocks that are looked at -/

theorem mem_matchingBlocks {fin begin m : ℕ} : m ∈ matchingBlocks src f s fin begin ↔
    if f.isRangeFilter then fin ≤ m ∧ m ≤ begin
    else ∃ b ∈ f.bloomPossibilities src.sha3, m ∈ s.index.withBlockBloom b fin begin := by
  simp only [matchingBlocks, List.mem_insertionSort, List.mem_dedup]
  split
  · rw [List.mem_range'_1]
    omega
  · exact List.mem_flatMap

theorem sortedLT_matchingBlocks (src : LogSource) (f : LogFilter) (s : Bloomed) (fin begin : ℕ) :
    (matchingBlocks src f s fin begin).SortedLT := by
  rw [List.sortedLT_iff_nodup_and_sortedLE]
  refine ⟨?_, List.sortedLE_insertionSort⟩
  exact (List.perm_insertionSort _ _).nodup_iff.mpr (List.nodup_dedup _)

theorem flatMap_filter {α β : Type} (ns : List α) (p : α → Bool) (g : α → List β) :
    (ns.filter p).flatMap g = ns.flatMap fun m => if p m then g m else [] := by
  induction ns with
  | nil => rfl
  | cons m ns ih =>
      rw [List.flatMap_cons, ← ih]
      cases hm : p m <;> simp [hm]

/-- Leaving out elements changes a list of results only if they have some. -/
theorem flatMap_filter_eq_iff {α β : Type} {ns : List α} {p : α → Bool} {g : α → List β} :
    (ns.filter p).flatMap g = ns.flatMap g ↔ ∀ m ∈ ns, g m ≠ [] → p m = true := by
  induction ns with
  | nil => simp
  | cons m ns ih =>
      rw [List.forall_mem_cons, ← ih, List.flatMap_cons]
      cases hm : p m with
      | true =>
          rw [List.filter_cons_of_pos hm, List.flatMap_cons, List.append_cancel_left_eq]
          exact ⟨fun heq => ⟨fun _ => rfl, heq⟩, And.right⟩
      | false =>
          rw [List.filter_cons_of_neg (ne_true_of_eq_false hm)]
          have hshort : ((ns.filter p).flatMap g).length ≤ (ns.flatMap g).length :=
            (List.filter_sublist.flatMap g).length_le
          constructor
          · intro heq
            have hlen := congrArg List.length heq
            rw [List.length_append] at hlen
            have hnil : g m = [] := List.length_eq_zero_iff.mp (by omega)
            rw [hnil, List.nil_append] at heq
            exact ⟨fun hne => absurd hnil hne, heq⟩
          · rintro ⟨hnil, heq⟩
            have hnil : g m = [] := by simpa using hnil
            rw [heq, hnil, List.nil_append]

/-! ## The results -/

theorem prependLogsFromBlock_eq (polarity : BlockPolarity) (logs : List LocalisedLogEntry)
    (h : H256) : prependLogsFromBlock src f s polarity logs h =
      (fromBlock src f s h polarity).reverse ++ logs :=
  List.foldl_flip_cons_eq_append'

theorem foldl_prepend (hs : ℕ → H256) (ns : List ℕ) (logs : List LocalisedLogEntry) :
    (ns.foldl (fun ret m => prependLogsFromBlock src f s .Live ret (hs m)) logs).reverse =
      logs.reverse ++ ns.flatMap fun m => fromBlock src f s (hs m) .Live := by
  induction ns generalizing logs with
  | nil => simp
  | cons m ns ih =>
      rw [List.foldl_cons, ih, prependLogsFromBlock_eq, List.reverse_append, List.reverse_reverse,
        List.append_assoc, List.flatMap_cons]

/-- The log entries of pending transactions are not mined. -/
theorem filter_fromPending (src : LogSource) (f : LogFilter) (e l : ℕ) :
    (fromPending src f).filter (inRange f e l) = [] := by
  have hflat : ∀ (es : List LogEntry) (ret : List LocalisedLogEntry),
      ret.filter (inRange f e l) = [] →
      (es.foldl (fun ret x => { entry := x } :: ret) ret).filter (inRange f e l) = [] := by
    intro es
    induction es with
    | nil => exact fun _ hret => hret
    | cons x es ih =>
        intro ret hret
        refine ih _ ?_
        rw [List.filter_cons_of_neg (by simp [inRange]), hret]
  exact hflat _ _ rfl

/-- The results of the query that are mined come from the blocks that are looked at. -/
theorem Searchable.logs_eq (hs : Searchable c src s) (he : Names s.chain f.earliest e)
    (hl : Names s.chain f.latest l) (hel : e ≤ l) :
    ∃ fin ≤ e, (logs c src f s).map (List.filter (inRange f e l)) =
      some ((matchingBlocks src f s fin l).flatMap fun m =>
        (fromBlock src f s (s.chain.numberHash c m).1 .Live).filter (inRange f e l)) := by
  obtain ⟨blocks, common, hroute⟩ := hs.treeRouteApart he hl hel
  have hbounded := hs.bounded
  unfold c_invalidNumber at hbounded
  have hword : (s.chain.lastBlockNumber + 1) % 2 ^ 32 = s.chain.lastBlockNumber + 1 :=
    Nat.mod_eq_of_lt (by omega)
  have hbegin : (if s.chain.lastBlockNumber < beginOf f s then s.chain.lastBlockNumber
      else beginOf f s) = l := by
    have hlatest := hs.numberFromHash hl
    have hle := hl.1
    unfold beginOf
    split <;> omega
  have hend : endOf f s ≤ e := by
    have hearliest := hs.numberFromHash he
    unfold endOf
    omega
  refine ⟨min (endOf f s) ((s.chain.numberFromHash common + 1) % 2 ^ 32), by omega, ?_⟩
  simp only [logs, decide_eq_true_eq, hbegin, hroute, List.take_zero, List.foldl_nil,
    Option.map_some, foldl_prepend, List.filter_append, List.filter_flatMap, List.filter_reverse]
  split
  · rw [filter_fromPending, List.reverse_nil, List.nil_append]
  · rfl

/-- What is found in a block of the range, and nothing in another block. -/
theorem Searchable.filter_fromBlock (hs : Searchable c src s) (hl : l ≤ s.chain.lastBlockNumber)
    (m : ℕ) : (fromBlock src f s (s.chain.numberHash c m).1 .Live).filter (inRange f e l) =
      if e ≤ m ∧ m ≤ l then wanted src f s m else [] := by
  have hbounded := hs.bounded
  split
  · rename_i hrange
    have hhash : (s.chain.numberHash c m).1 = s.chain.ancestor s.chain.lastBlockHash m :=
      hs.indexed.indexIsChain m (by omega)
    rw [hhash, fromBlock, wanted, List.filter_flatMap, hs.number_eq (by omega)]
    congr 1
    funext r
    rw [List.filter_map, ← LogFilter.filter_matchesReceipt src.sha3 src.stray]
    congr 2
    funext x
    simp [inRange, hrange]
  · rename_i hrange
    have hnumber := hs.numbered.number_numberHash hs.indexed.sound m
    rw [List.filter_eq_nil_iff]
    intro x hx hin
    obtain ⟨r, -, hx⟩ := List.mem_flatMap.mp hx
    obtain ⟨y, -, rfl⟩ := List.mem_map.mp hx
    simp only [inRange, Bool.true_and, Bool.and_eq_true, decide_eq_true_eq] at hin
    omega

/-- **Everything is found exactly if the blocks with wanted log entries are looked at.** -/
theorem Searchable.findsAll_iff_matchingBlocks (hs : Searchable c src s)
    (he : Names s.chain f.earliest e) (hl : Names s.chain f.latest l) (hel : e ≤ l) :
    ∃ fin ≤ e, FindsAll c src f s e l ↔ ∀ m, e ≤ m → m ≤ l → wanted src f s m ≠ [] →
      m ∈ matchingBlocks src f s fin l := by
  obtain ⟨fin, hfin, hlogs⟩ := hs.logs_eq he hl hel
  refine ⟨fin, hfin, ?_⟩
  have hblocks : (matchingBlocks src f s fin l).filter (fun m => decide (e ≤ m ∧ m ≤ l)) =
      (List.range' e (l + 1 - e)).filter fun m => decide (m ∈ matchingBlocks src f s fin l) := by
    refine List.SortedLT.eq_of_mem_iff ?_ ?_ ?_
    · exact ((sortedLT_matchingBlocks src f s fin l).pairwise.filter _).sortedLT
    · exact ((List.sortedLT_range' e (l + 1 - e) one_ne_zero).pairwise.filter _).sortedLT
    · intro m
      simp only [List.mem_filter, decide_eq_true_eq, List.mem_range'_1]
      constructor
      · rintro ⟨hmem, hrange⟩
        exact ⟨by omega, hmem⟩
      · rintro ⟨hrange, hmem⟩
        exact ⟨hmem, by omega⟩
  have hfound : ((matchingBlocks src f s fin l).flatMap fun m =>
      (fromBlock src f s (s.chain.numberHash c m).1 .Live).filter (inRange f e l)) =
      ((List.range' e (l + 1 - e)).filter fun m =>
        decide (m ∈ matchingBlocks src f s fin l)).flatMap (wanted src f s) := by
    rw [← hblocks, flatMap_filter]
    congr 1
    funext m
    rw [hs.filter_fromBlock hl.1]
    simp only [decide_eq_true_eq]
  rw [FindsAll, hlogs, hfound, Option.some_inj, flatMap_filter_eq_iff]
  simp only [List.mem_range'_1, decide_eq_true_eq]
  constructor
  · intro h m hem hml
    exact h m (by omega)
  · intro h m hm
    exact h m (by omega) (by omega)

theorem forall_mem_pair {α : Type} {p : α → Prop} {x y : α} :
    (∀ z ∈ [x, y], p z) ↔ p x ∧ p y := by
  simp

theorem wanted_ne_nil : wanted src f s n ≠ [] ↔
    ∃ r ∈ src.receipts (s.chain.ancestor s.chain.lastBlockHash n), ∃ x ∈ r,
      f.wants x = true := by
  simp only [wanted, ne_eq, List.flatMap_eq_nil_iff, List.map_eq_nil_iff, List.filter_eq_nil_iff,
    not_forall, not_not]
  constructor
  · rintro ⟨p, hp, x, hx, hwants⟩
    exact ⟨p.1, (List.mem_zipIdx' hp).2 ▸ List.getElem_mem _, x, hx, hwants⟩
  · rintro ⟨r, hr, x, hx, hwants⟩
    obtain ⟨i, hi, rfl⟩ := List.getElem_of_mem hr
    exact ⟨(_, i), List.mem_zipIdx_iff_getElem?.mpr (List.getElem?_eq_getElem hi), x, hx, hwants⟩

/-- A block with a wanted log entry is looked at exactly if some position finds it. -/
theorem Searchable.mem_matchingBlocks_iff (hs : Searchable c src s) {fin : ℕ} (hfin : fin ≤ n)
    (hl : n ≤ l) (hle : l ≤ s.chain.lastBlockNumber) (hwanted : wanted src f s n ≠ []) :
    n ∈ matchingBlocks src f s fin l ↔ Findable src f s l n := by
  rw [mem_matchingBlocks, Findable]
  cases hrange : f.isRangeFilter with
  | true => simp [hfin, hl]
  | false =>
      obtain ⟨r, hr, x, hx, hwants⟩ := wanted_ne_nil.mp hwanted
      have hbits := (LogEntries.contains_bloom src.sha3 hx).1
      have hbloom := hs.noFalseNegatives n (by omega) r hr
      have haddress : f.addresses = [] ∨ ∃ a ∈ f.addresses,
          ∀ y ∈ [s.index.entry 1 (n / 16), s.index.entry 0 n],
            y.containsBloom (src.sha3.address a) = true := by
        refine (LogFilter.wants_iff.mp hwants).1.imp_right fun hmem => ⟨_, hmem, ?_⟩
        have hcoarse := hbloom 1 (by decide)
        have hfine := hbloom 0 (by decide)
        rw [pow_one] at hcoarse
        rw [pow_zero, Nat.div_one] at hfine
        rw [forall_mem_pair]
        exact ⟨LogBloom.contains_trans hcoarse hbits, LogBloom.contains_trans hfine hbits⟩
      have hposs := LogFilter.exists_bloomPossibilities hrange haddress
      have hlevels : ∀ t, (∀ level < c_bloomIndexLevels,
          (s.index.entry level (n / c_bloomIndexSize ^ level)).containsBloom
            (src.sha3.topic t) = true) ↔
          ∀ y ∈ [s.index.entry 1 (n / 16), s.index.entry 0 n],
            y.containsBloom (src.sha3.topic t) = true := by
        intro t
        rw [forall_mem_pair]
        constructor
        · intro h
          have hcoarse := h 1 (by decide)
          have hfine := h 0 (by decide)
          rw [pow_one] at hcoarse
          rw [pow_zero, Nat.div_one] at hfine
          exact ⟨hcoarse, hfine⟩
        · rintro ⟨hcoarse, hfine⟩ level hlevel
          have hlevels : level = 0 ∨ level = 1 := by
            unfold c_bloomIndexLevels at hlevel
            omega
          rcases hlevels with rfl | rfl
          · rw [pow_zero, Nat.div_one]
            exact hfine
          · rw [pow_one]
            exact hcoarse
      simp only [Bool.false_eq_true, if_false, false_or, BloomIndex.mem_withBlockBloom hfin hl,
        hlevels]
      rw [← hposs]
      simp only [forall_mem_pair]
      constructor
      · rintro ⟨b, hb, hlast, hentries⟩
        exact ⟨hlast, b, hb, hentries⟩
      · rintro ⟨hlast, b, hb, hentries⟩
        exact ⟨b, hb, hlast, hentries⟩

/-- A position with one alternative finds every block with a wanted log entry. -/
theorem Searchable.findable_of_single (hs : Searchable c src s) {i : Fin 4} {t : H256}
    (hi : f.topics i = [t]) (hn : n ≤ s.chain.lastBlockNumber)
    (hlast : n / 256 ≤ BloomIndex.ceilDiv l 256) (hwanted : wanted src f s n ≠ []) :
    Findable src f s l n := by
  obtain ⟨r, hr, x, hx, hwants⟩ := wanted_ne_nil.mp hwanted
  obtain hnil | ⟨t', ht, hmem⟩ := (LogFilter.wants_iff.mp hwants).2 i
  · rw [hi] at hnil
    cases hnil
  · rw [hi, List.mem_singleton] at hmem
    subst hmem
    refine .inr ⟨hlast, .inr ⟨i, LogFilter.mem_constrained.mpr (by simp [hi]), ?_⟩⟩
    rw [hi, List.forall_mem_singleton]
    intro level hlevel
    refine LogBloom.contains_trans (hs.noFalseNegatives n hn r hr level hlevel) ?_
    exact (LogEntries.contains_bloom src.sha3 hx).2 _ (List.mem_of_getElem? ht)

/-- After a run the index has the blooms of the receipts, if those of the blocks have them
and the genesis block has no receipts. -/
theorem searchable_of_collated {bb : BlockBlooms} (hs : s.Collated c bb)
    (hnumbered : Numbered c s.chain) (hlast : s.chain.lastBlockNumber < c_invalidNumber)
    (hearliest : c.block EarliestBlockHash = none) (hlatest : c.block LatestBlockHash = none)
    (hgenesis : src.receipts c.genesisHash = [])
    (hblooms : ∀ h, ∀ r ∈ src.receipts h, (bb.logBloom h).contains (r.bloom src.sha3) = true) :
    Searchable c src s where
  indexed := hs.indexed
  numbered := hnumbered
  bounded := hlast
  earliest := by
    intro hknown
    obtain ⟨b, hb, -⟩ := hs.indexed.sound.block hknown
    rw [hearliest] at hb
    cases hb
  latest := by
    intro hknown
    obtain ⟨b, hb, -⟩ := hs.indexed.sound.block hknown
    rw [hlatest] at hb
    cases hb
  noFalseNegatives := by
    intro n hn r hr level hlevel
    by_cases h0 : n = 0
    · subst h0
      rw [ancestor_zero hs.indexed.sound hs.indexed.head, hgenesis] at hr
      cases hr
    · refine LogBloom.contains_trans (hs.covers n (by omega) hn level hlevel).entry ?_
      exact LogBloom.contains_or_left (hblooms _ r hr)

/-- **A query finds what it is to find exactly if every block of the range with a wanted log
entry has the bits of all alternatives of some position.** -/
theorem finds_all_iff (hs : Searchable c src s) (he : Names s.chain f.earliest e)
    (hl : Names s.chain f.latest l) (hel : e ≤ l) :
    FindsAll c src f s e l ↔ ∀ m, e ≤ m → m ≤ l →
      (∃ r ∈ src.receipts (s.chain.ancestor s.chain.lastBlockHash m), ∃ x ∈ r,
        f.wants x = true) → Findable src f s l m := by
  obtain ⟨fin, hfin, hfinds⟩ := hs.findsAll_iff_matchingBlocks he hl hel
  rw [hfinds]
  refine forall₃_congr fun m hem hml => ?_
  rw [← wanted_ne_nil]
  refine forall_congr' fun hwanted => ?_
  exact hs.mem_matchingBlocks_iff (by omega) hml hl.1 hwanted

/-- A block over the genesis block. -/
def single : Blocks :=
  { siblings with
    block := fun h =>
      if h = 4 then some ⟨3, 1, 1, 21000, [10]⟩ else if h = 3 then some siblings.genesis else none
    sender := fun _ => 8
    sender_of_zeroSignature := fun _ h => absurd h Bool.false_ne_true
    block_zero := by decide
    block_genesis := rfl }

/-- The transaction of the block logs the topic 1 from the address 0 twice. -/
def twoLogs : LogSource where
  sha3 := {
    address := fun _ => 0x5380c7b7ae81a58eb98d9c78de4a1fd7fd9535fc953ed2be602daaa41767312a
    topic := fun t =>
      if t = 1 then 0xb10e2d527612073b26eecdfd717e6a320cf44b4afac2b0732d9fcbe2b7fa0cf6
      else 0x405787fa12a823e0f2b7631cc41b3ba8828b3321ca811111fa75cd3aa3bb5ace }
  receipts := fun h => if h = 4 then [[⟨0, [1], []⟩, ⟨0, [1], [7]⟩]] else []
  transactionHash := fun _ _ => 10
  pending := []
  stray := fun _ => 0

/-- The blooms of the blocks, of the author 7. -/
def twoLogBlooms : BlockBlooms where
  logBloom := fun h =>
    if h = 4 then LogEntries.bloom twoLogs.sha3 [⟨0, [1], []⟩, ⟨0, [1], [7]⟩] else .empty
  author := fun _ => 7
  sha3 := fun _ => 0x8c3ab0970b73895b8c9959bae685c3a19f45eb5ad89d42b52a340ec4ac204d19

/-- The block is imported. -/
def twoLogState : Bloomed :=
  Bloomed.next single twoLogBlooms { chain := start single } (.importBlock 4 true true)

theorem searchable_twoLogState : Searchable single twoLogs twoLogState := by
  have hcollated : twoLogState.Collated single twoLogBlooms :=
    (Bloomed.collated_start single twoLogBlooms).next fun _ => by decide +kernel
  refine searchable_of_collated hcollated ?_ ?_ ?_ ?_ ?_ ?_
  · exact (numbered_start single).importBlock 4 true true
  · decide +kernel
  · decide
  · decide
  · decide
  · intro h r hr
    simp only [twoLogs] at hr
    split at hr
    · rename_i heq
      rw [List.mem_singleton] at hr
      subst heq hr
      exact LogBloom.contains_self _
    · cases hr

theorem names_twoLogState : Names twoLogState.chain 3 0 ∧ Names twoLogState.chain 4 1 := by
  refine ⟨⟨?_, .inl ?_⟩, ?_, .inl ?_⟩ <;> decide +kernel

/-- Filters for the topic 1, alone and with an alternative. -/
def topicFilter (ts : List H256) : LogFilter where
  topics := fun i => if i = 0 then ts else []
  earliest := 3
  latest := 4

/-- A query for one topic. -/
theorem finds_all_two : FindsAll single twoLogs (topicFilter [1]) twoLogState 0 1 := by
  refine (finds_all_iff (f := topicFilter [1]) searchable_twoLogState names_twoLogState.1
    names_twoLogState.2 (by decide)).mpr ?_
  intro m _ hm hwanted
  refine searchable_twoLogState.findable_of_single (i := 0) (t := 1) rfl ?_ ?_
    (wanted_ne_nil.mpr hwanted)
  · exact hm.trans (by decide +kernel)
  · have h0 : m / 256 = 0 := by omega
    rw [h0]
    exact Nat.zero_le _

/-- With an alternative that the block does not have, it is not found. -/
theorem alternative_hides : Searchable single twoLogs twoLogState ∧
    Names twoLogState.chain 3 0 ∧ Names twoLogState.chain 4 1 ∧
    ¬FindsAll single twoLogs (topicFilter [1, 2]) twoLogState 0 1 := by
  refine ⟨searchable_twoLogState, names_twoLogState.1, names_twoLogState.2, ?_⟩
  unfold FindsAll
  decide +kernel

end Logs

end CppSwc
