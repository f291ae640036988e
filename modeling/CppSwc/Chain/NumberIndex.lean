import CppSwc.Chain.Route
import CppSwc.Lib.Run

/-!
# The number index

`numberHash` gives the ancestors of the head, unless a block gets a number that was
looked up while another block had it.  Entries above the head are never deleted from the
database, so such a lookup fills the cache with a block that is no longer on the chain,
and an import over the head does not clear the cache.
-/

namespace CppSwc.BlockChain

open Lib

variable {c : Blocks} {s s' : BlockChain} {h : H256} {b : Block} {nonces : Address → ℕ}

/-- The index is the chain of the head. -/
def IndexIsChain (c : Blocks) (s : BlockChain) : Prop :=
  ∀ n ≤ s.lastBlockNumber, (s.numberHash c n).1 = s.ancestor s.lastBlockHash n

instance (c : Blocks) (s : BlockChain) : Decidable (IndexIsChain c s) :=
  inferInstanceAs (Decidable (∀ n ≤ s.lastBlockNumber,
    (s.numberHash c n).1 = s.ancestor s.lastBlockHash n))

/-- A block becomes the head if its total difficulty is larger, or by the gas rule if it
is the same. -/
def BestIsHead (c : Blocks) (s : BlockChain) : Op → Prop
  | .importBlock h mustBeNew valid =>
      match s.checkImport c h mustBeNew valid with
      | none => s.importBlock c h mustBeNew valid = s
      | some (b, td, _) =>
          let last := (s.details s.lastBlockHash).totalDifficulty
          let s' := s.importBlock c h mustBeNew valid
          (s'.details h).totalDifficulty = td ∧
          (s'.details s'.lastBlockHash).totalDifficulty.toNat = max last.toNat td.toNat ∧
          s'.lastBlockHash =
            if last < td then h
            else if td = last ∧ c.tieBreakingGas = true ∧
              ((c.block s.lastBlockHash).elim 0 Block.gasUsed) < b.gasUsed then h
            else s.lastBlockHash
  | _ => True

/-- No number above the head that an import gives out was looked up while another block had
it.  With a head whose number stands for missing details there is no route, and then the
parent of the block has to be on the chain, and the number is one below the head. -/
def NumbersOpen (c : Blocks) (s : BlockChain) : Op → Prop
  | .importBlock h mustBeNew valid =>
      match s.checkImport c h mustBeNew valid with
      | none => True
      | some (b, td, _) => s.isBest c td b.gasUsed = true →
          if s.lastBlockNumber = c_invalidNumber then
            s.ancestor s.lastBlockHash (s.number b.parentHash) = b.parentHash ∧
              Cache.Open s.blockHashes b.number h
          else ∀ n ≤ b.number, s.lastBlockNumber < n →
            Cache.Open s.blockHashes n (s.chainOver h b n)
  | _ => True

/-- What holds along a run that meets the condition. -/
structure Indexed (c : Blocks) (s : BlockChain) : Prop where
  sound : Sound c s
  head : Headed s
  fits : ∀ n, 0 < n → n ≤ s.lastBlockNumber →
    Cache.Fits s.blockHashes s.extraBlockHash n (s.ancestor s.lastBlockHash n)

/-! ## Lookups -/

theorem numberHash_eq {n : ℕ} (hn : n ≠ 0) :
    s.numberHash c n = ((Cache.lookup s.blockHashes s.extraBlockHash n).getD 0,
      { s with blockHashes := Cache.load s.blockHashes s.extraBlockHash n }) := by
  unfold numberHash
  rw [if_neg hn]
  cases hc : s.blockHashes n with
  | some h => rw [Cache.load_of_hit hc, Cache.lookup_of_hit hc]; rfl
  | none =>
      cases ht : s.extraBlockHash n with
      | none => rw [Cache.load_of_miss hc ht, Cache.lookup_of_none hc, ht]; rfl
      | some h => rw [Cache.load_of_none hc ht, Cache.lookup_of_none hc, ht]; rfl

theorem ancestor_zero (hs : Sound c s) (hh : Headed s) :
    s.ancestor s.lastBlockHash 0 = c.genesisHash :=
  hs.rooted.ancestor_zero hh.known

theorem Indexed.indexIsChain (i : Indexed c s) : IndexIsChain c s := by
  intro n hn
  by_cases h0 : n = 0
  · subst h0
    rw [ancestor_zero i.sound i.head]
    rfl
  · rw [numberHash_eq h0, (i.fits n (by omega) hn).lookup_eq]
    rfl

/-! ## Imports -/

/-- The invariant reads the blocks, the head and the index. -/
theorem Indexed.congr (i : Indexed c s) (hd : s'.details? = s.details?)
    (hn : s'.nonces = s.nonces) (hl : s'.lastBlockHash = s.lastBlockHash)
    (hln : s'.lastBlockNumber = s.lastBlockNumber)
    (hfits : ∀ n h, Cache.Fits s.blockHashes s.extraBlockHash n h →
      Cache.Fits s'.blockHashes s'.extraBlockHash n h) : Indexed c s' where
  sound := i.sound.congr hd hn
  head := i.head.congr hd hl hln
  fits := by
    intro n h0 hn
    rw [hl, ancestor_congr hd]
    exact hfits _ _ (i.fits n h0 (hln ▸ hn))

/-- A block that does not become the head. -/
theorem Indexed.inserted (i : Indexed c s) (e : Inserted c s s' h b nonces)
    (hl : s'.lastBlockHash = s.lastBlockHash) (hln : s'.lastBlockNumber = s.lastBlockNumber)
    (hc : s'.blockHashes = s.blockHashes) (ht : s'.extraBlockHash = s.extraBlockHash) :
    Indexed c s' where
  sound := e.sound i.sound
  head := ⟨hl ▸ e.known i.sound i.head.known,
    by rw [hl, hln, (e.agree i.sound _ i.head.known).2, i.head.number]⟩
  fits := by
    intro n h0 hn
    rw [hl, hc, ht, e.ancestor_eq i.sound i.head.known]
    exact i.fits n h0 (hln ▸ hn)

section Extended

variable {k n : ℕ}

/-- The loop over the route writes the number index above the common block. -/
theorem Extended.extraBlockHash_of_lt (e : Extended c s s' h b nonces k) (hs : Sound c s)
    (hk : k < n) (hn : n ≤ b.number) : s'.extraBlockHash n = some (s'.ancestor h n) := by
  rw [e.extraBlockHash]
  refine Cache.write_of_mem ?_ ?_
  · exact mem_numbers.mpr ⟨(e.mem_fresh hs).mpr ⟨n, hk, hn, rfl⟩,
      (e.sound hs).block_ancestor e.known_self (e.self.1.symm ▸ hn)⟩
  · intro x hx
    obtain ⟨hfresh, b', hb', rfl⟩ := mem_numbers.mp hx
    exact (e.number_of_mem hs hfresh hb').2.2.symm

/-- And leaves it below. -/
theorem Extended.extraBlockHash_of_le (e : Extended c s s' h b nonces k) (hs : Sound c s)
    (hn : n ≤ k) : s'.extraBlockHash n = s.extraBlockHash n := by
  rw [e.extraBlockHash]
  refine Cache.write_of_notMem fun x hx => ?_
  obtain ⟨hfresh, b', hb', rfl⟩ := mem_numbers.mp hx
  have := (e.number_of_mem hs hfresh hb').1
  omega

/-- Below the common block, the new chain is the old one. -/
theorem Extended.ancestor_of_le (e : Extended c s s' h b nonces k) (hs : Sound c s)
    (hh : Headed s) (hn : n ≤ k) : s'.ancestor h n = s.ancestor s.lastBlockHash n := by
  have hk := e.lt_new
  have hnumber := e.accepted.number
  have hlast := hh.number.symm ▸ e.le_last
  rw [e.ancestor_of_lt hs (by omega)]
  exact (hs.rooted.ancestor_eq_of_le hh.known e.accepted.parent hn hlast (by omega)
    e.common).symm

/-- A new head keeps the index if nothing above the old one was looked up. -/
theorem Indexed.extended (i : Indexed c s) (e : Extended c s s' h b nonces k)
    (hopen : ∀ n ≤ b.number, s.lastBlockNumber < n →
      Cache.Open s.blockHashes n (s.chainOver h b n)) : Indexed c s' where
  sound := e.sound i.sound
  head := ⟨e.lastBlockHash ▸ e.known_self,
    by rw [e.lastBlockHash, e.lastBlockNumber, e.self.1]⟩
  fits := by
    intro n h0 hn
    rw [e.lastBlockNumber] at hn
    rw [e.lastBlockHash]
    by_cases hk : k < n
    · refine ⟨e.extraBlockHash_of_lt i.sound hk hn, ?_⟩
      by_cases hlast : n ≤ s.lastBlockNumber
      · exact .inl (by rw [e.blockHashes, if_pos ⟨hk, hlast⟩])
      · rw [e.ancestor_eq_chainOver i.sound hn]
        exact (hopen n hn (by omega)).evict (.inr (by rw [e.blockHashes, if_neg (by omega)]))
    · have hle := e.le_last
      have hfits := i.fits n h0 (by omega)
      rw [e.ancestor_of_le i.sound i.head (by omega)]
      exact ⟨(e.extraBlockHash_of_le i.sound (by omega)).trans hfits.1,
        hfits.2.evict (.inr (by rw [e.blockHashes, if_neg (by omega)]))⟩

/-- An entry that the database has right is read right only if the cache is open. -/
theorem open_of_numberHash {n : ℕ} {x : H256} (h0 : n ≠ 0) (ht : s.extraBlockHash n = some x)
    (hread : (s.numberHash c n).1 = x) : Cache.Open s.blockHashes n x := by
  rw [numberHash_eq h0] at hread
  refine (Cache.lookup_eq_iff ht).mp ?_
  cases hc : Cache.lookup s.blockHashes s.extraBlockHash n with
  | none => simp [Cache.lookup, ht] at hc
  | some y => rw [hc] at hread; exact congrArg some hread

/-- And only then. -/
theorem Extended.open_of_indexIsChain (e : Extended c s s' h b nonces k) (hs : Sound c s)
    (hindex : IndexIsChain c s') (n : ℕ) (hn : n ≤ b.number) (hlast : s.lastBlockNumber < n) :
    Cache.Open s.blockHashes n (s.chainOver h b n) := by
  have hk := e.le_last
  have hread := hindex n (e.lastBlockNumber ▸ hn)
  rw [e.lastBlockHash] at hread
  rw [← e.ancestor_eq_chainOver hs hn]
  refine (open_of_numberHash (by omega) (e.extraBlockHash_of_lt hs (by omega) hn) hread).evict ?_
  rw [e.blockHashes, if_neg (by omega)]
  exact .inr rfl

end Extended

/-! ## A head without details -/

section Detached

variable {n : ℕ}

theorem Detached.extraBlockHash_eq (e : Detached c s s' h b nonces) :
    s'.extraBlockHash n = if n = b.number then some h else s.extraBlockHash n := by
  have hmem : ∀ {m x}, (m, x) ∈ numbers c [h] ↔ x = h ∧ m = b.number := by
    intro m x
    rw [mem_numbers, List.mem_singleton]
    constructor
    · rintro ⟨rfl, b', hb', rfl⟩
      obtain rfl : b = b' := Option.some_inj.mp (e.accepted.block.symm.trans hb')
      exact ⟨rfl, rfl⟩
    · rintro ⟨rfl, rfl⟩
      exact ⟨rfl, b, e.accepted.block, rfl⟩
  rw [e.extraBlockHash]
  split
  · next htop => exact Cache.write_of_mem (hmem.mpr ⟨rfl, htop⟩) fun x hx => (hmem.mp hx).1
  · next htop => exact Cache.write_of_notMem fun x hx => htop (hmem.mp hx).2

theorem Indexed.detached (i : Indexed c s) (e : Detached c s s' h b nonces)
    (hnull : s.lastBlockNumber = c_invalidNumber)
    (hchain : s.ancestor s.lastBlockHash (s.number b.parentHash) = b.parentHash)
    (hopen : Cache.Open s.blockHashes b.number h) : Indexed c s' where
  sound := e.sound i.sound
  head := ⟨e.lastBlockHash ▸ e.known_self,
    by rw [e.lastBlockHash, e.lastBlockNumber, e.self.1]⟩
  fits := by
    intro n h0 hn
    have hnumber := e.accepted.number
    have hbound := e.accepted.bounded
    rw [e.lastBlockNumber] at hn
    rw [e.lastBlockHash, e.ancestor_eq_chainOver i.sound hn, chainOver, e.blockHashes, Cache.Fits,
      e.extraBlockHash_eq]
    by_cases htop : n = b.number
    · rw [if_pos htop, if_pos htop, htop]
      exact ⟨rfl, hopen⟩
    · have hlast : s.number s.lastBlockHash = 2 ^ 32 - 1 := i.head.number.trans hnull
      have hle : n ≤ s.lastBlockNumber := by
        rw [hnull, c_invalidNumber]
        omega
      have hancestor : s.ancestor b.parentHash n = s.ancestor s.lastBlockHash n := by
        rw [← hchain]
        exact i.sound.rooted.ancestor_ancestor i.head.known (by omega) (by omega)
      rw [if_neg htop, if_neg htop, hancestor]
      exact i.fits n h0 hle

theorem Indexed.of_detached (i : Indexed c s) (e : Detached c s s' h b nonces)
    (hnull : s.lastBlockNumber = c_invalidNumber) (hindex : IndexIsChain c s') :
    s.ancestor s.lastBlockHash (s.number b.parentHash) = b.parentHash ∧
      Cache.Open s.blockHashes b.number h := by
  have hnumber := e.accepted.number
  have hbound := e.accepted.bounded
  have hself : s.ancestor b.parentHash (s.number b.parentHash) = b.parentHash :=
    Lib.ancestor_self _ _ _
  rw [IndexIsChain, e.lastBlockNumber, e.lastBlockHash] at hindex
  constructor
  · by_cases h0 : s.number b.parentHash = 0
    · rw [h0, ancestor_zero i.sound i.head]
      exact (i.sound.rooted.eq_root _ e.accepted.parent h0).symm
    · have hle : s.number b.parentHash ≤ s.lastBlockNumber := by
        rw [hnull, c_invalidNumber]
        omega
      have hread := hindex (s.number b.parentHash) (by omega)
      rw [e.ancestor_of_lt i.sound (by omega), hself, numberHash_eq h0, Cache.lookup,
        e.blockHashes, e.extraBlockHash_eq, if_neg (by omega), ← Cache.lookup,
        (i.fits _ (by omega) hle).lookup_eq] at hread
      exact hread
  · have hread := hindex b.number le_rfl
    rw [e.ancestor_self] at hread
    have htable : s'.extraBlockHash b.number = some h := by rw [e.extraBlockHash_eq, if_pos rfl]
    rw [← e.blockHashes]
    exact open_of_numberHash (by omega) htable hread

end Detached

/-! ## Runs -/

/-- An import keeps the invariant if it meets the condition. -/
theorem Indexed.importBlock (i : Indexed c s) {mustBeNew valid : Bool}
    (hopen : NumbersOpen c s (.importBlock h mustBeNew valid)) :
    Indexed c (s.importBlock c h mustBeNew valid) := by
  cases i.sound.imported_cases i.head h mustBeNew valid with
  | refused _ same => rwa [same]
  | aside _ _ inserted same =>
      rw [same] at inserted ⊢
      exact i.inserted inserted rfl rfl rfl rfl
  | detached check best null detached =>
      simp only [NumbersOpen, check, null, if_true] at hopen
      exact i.detached detached null (hopen best).1 (hopen best).2
  | extended check best null extended =>
      simp only [NumbersOpen, check, null, if_false] at hopen
      exact i.extended extended (hopen best)

/-- And only then is the index right after it. -/
theorem Indexed.numbersOpen (i : Indexed c s) {mustBeNew valid : Bool}
    (hindex : IndexIsChain c (s.importBlock c h mustBeNew valid)) :
    NumbersOpen c s (.importBlock h mustBeNew valid) := by
  cases i.sound.imported_cases i.head h mustBeNew valid with
  | refused check _ => simp only [NumbersOpen, check]
  | aside check best _ _ =>
      simp only [NumbersOpen, check, best]
      exact fun hbest => absurd hbest Bool.false_ne_true
  | detached check best null detached =>
      simp only [NumbersOpen, check, null, if_true]
      exact fun _ => i.of_detached detached null hindex
  | extended check best null extended =>
      simp only [NumbersOpen, check, null, if_false]
      exact fun _ => extended.open_of_indexIsChain i.sound hindex

/-- A lower head on the chain. -/
theorem Indexed.lower (i : Indexed c s) {n : ℕ} (hn : n < s.lastBlockNumber)
    (hd : s'.details? = s.details?) (hnonces : s'.nonces = s.nonces)
    (hl : s'.lastBlockHash = s.ancestor s.lastBlockHash n) (hln : s'.lastBlockNumber = n)
    (hfits : ∀ m ≤ n, ∀ x, Cache.Fits s.blockHashes s.extraBlockHash m x →
      Cache.Fits s'.blockHashes s'.extraBlockHash m x) :
    Indexed c s' where
  sound := i.sound.congr hd hnonces
  head := i.sound.headed_lower i.head hn hd hl hln
  fits := by
    intro m h0 hm
    rw [hln] at hm
    rw [hl, ancestor_congr hd, i.sound.ancestor_lower i.head hn hm]
    exact hfits m hm _ (i.fits m h0 (by omega))

/-- A rewind ends on the chain. -/
theorem Indexed.rewind (i : Indexed c s) (newHead : ℕ) : Indexed c (s.rewind c newHead) := by
  unfold BlockChain.rewind
  split
  · exact i
  · next hlt =>
      have hbound := i.sound.number_lt i.head.known
      rw [i.head.number] at hbound
      have hword : (newHead + 1) % 2 ^ 32 = newHead + 1 := Nat.mod_eq_of_lt (by omega)
      set s₁ := s.clearCachesDuringChainReversion (newHead + 1) with hs₁
      have hfits : ∀ m ≤ newHead, ∀ x, Cache.Fits s.blockHashes s.extraBlockHash m x →
          Cache.Fits s₁.blockHashes s₁.extraBlockHash m x := by
        intro m hm x hx
        exact ⟨hx.1, hx.2.evict (.inr (if_neg (by omega)))⟩
      simp only [hword, ← hs₁]
      by_cases h0 : newHead = 0
      · subst h0
        exact i.lower (by omega) rfl rfl (ancestor_zero i.sound i.head).symm rfl hfits
      · have hread := hfits newHead le_rfl _ (i.fits newHead (by omega) (by omega))
        rw [numberHash_eq h0, hread.lookup_eq]
        exact i.lower (by omega) rfl rfl rfl rfl fun m hm x hx => (hfits m hm x hx).load newHead

theorem Indexed.numberHash (i : Indexed c s) (n : ℕ) : Indexed c (s.numberHash c n).2 := by
  by_cases h0 : n = 0
  · subst h0
    exact i
  · rw [numberHash_eq h0]
    exact i.congr rfl rfl rfl rfl fun _ _ hfits => hfits.load n

theorem Indexed.noteUsed (i : Indexed c s) (id : CacheID) : Indexed c (s.noteUsed id) :=
  i.congr rfl rfl rfl rfl fun _ _ hfits => hfits

/-- A collection drops entries of one cache. -/
theorem foldl_collect_eq (ids : List CacheID) (s : BlockChain) :
    ∃ f, ids.foldl collect s = { s with transactionAddresses := f } ∧
      ∀ tx, f tx = none ∨ f tx = s.transactionAddresses tx := by
  induction ids generalizing s with
  | nil => exact ⟨_, rfl, fun tx => .inr rfl⟩
  | cons id ids ih =>
      obtain ⟨f, hf, hdrop⟩ := ih (s.collect id)
      cases id with
      | transactionAddress tx =>
          refine ⟨f, hf, fun tx' => ?_⟩
          rcases hdrop tx' with h | h
          · exact .inl h
          · by_cases heq : tx' = tx
            · subst heq
              exact .inl (h.trans (Function.update_self _ _ _))
            · exact .inr (h.trans (Function.update_of_ne heq _ _))
      | accountsIndexAddress sender nonce => exact ⟨f, hf, hdrop⟩

/-- An operation keeps the invariant if it meets the condition. -/
theorem Indexed.next (i : Indexed c s) {op : Op} (hopen : NumbersOpen c s op) :
    Indexed c (s.next c op) := by
  cases op with
  | importBlock h mustBeNew valid => exact i.importBlock hopen
  | rewind newHead => exact i.rewind newHead
  | numberHash n => exact i.numberHash n
  | transactionLocation tx =>
      simp only [BlockChain.next, BlockChain.transactionLocation]
      split
      · exact i
      split
      · exact i
      · exact i.congr rfl rfl rfl rfl fun _ _ hfits => hfits
  | accountLocation sender nonce =>
      simp only [BlockChain.next, BlockChain.accountLocation]
      split
      · exact i
      split
      · exact i
      · exact i.congr rfl rfl rfl rfl fun _ _ hfits => hfits
  | garbageCollect =>
      simp only [BlockChain.next, BlockChain.garbageCollect]
      obtain ⟨f, hf, -⟩ := foldl_collect_eq (s.cacheUsage.getLastD []) s
      rw [hf]
      exact i.congr rfl rfl rfl rfl fun _ _ hfits => hfits

/-- After an operation the index is right exactly if the operation meets the condition. -/
theorem Indexed.next_iff (i : Indexed c s) (op : Op) :
    IndexIsChain c (s.next c op) ↔ NumbersOpen c s op := by
  refine ⟨fun hindex => ?_, fun hopen => (i.next hopen).indexIsChain⟩
  cases op with
  | importBlock h mustBeNew valid => exact i.numbersOpen hindex
  | rewind _ | numberHash _ | transactionLocation _ | accountLocation _ _ | garbageCollect =>
      trivial

theorem indexed_start (c : Blocks) : Indexed c (start c) where
  sound := by
    refine ⟨if_pos rfl, fun h d hd hne => ?_⟩
    simp only [start, if_neg hne] at hd
    cases hd
  head := by
    have hd : (start c).details? c.genesisHash = some
      { number := 0, totalDifficulty := c.genesis.difficulty, parent := 0 } := if_pos rfl
    exact ⟨Option.isSome_of_eq_some hd, (place hd).1⟩
  fits := fun n h0 hn => absurd hn (by simp only [start]; omega)

/-- The rule of the head, for a block that was inserted. -/
theorem Inserted.bestIsHead (e : Inserted c s s' h b nonces) (hs : Sound c s) (hh : Headed s)
    (hl : s'.lastBlockHash = if s.isBest c (s.detailsOver b).totalDifficulty b.gasUsed = true
      then h else s.lastBlockHash) :
    let last := (s.details s.lastBlockHash).totalDifficulty
    let td := (s.detailsOver b).totalDifficulty
    (s'.details h).totalDifficulty = td ∧
      (s'.details s'.lastBlockHash).totalDifficulty.toNat = max last.toNat td.toNat ∧
      s'.lastBlockHash = if last < td then h
        else if td = last ∧ c.tieBreakingGas = true ∧
          ((c.block s.lastBlockHash).elim 0 Block.gasUsed) < b.gasUsed then h
        else s.lastBlockHash := by
  intro last td
  have hself : (s'.details h).totalDifficulty = td := by
    rw [BlockChain.details, e.details_self]
    rfl
  have hlast : (s'.details s.lastBlockHash).totalDifficulty = last := by
    rw [BlockChain.details, e.details_eq hs hh.known]
    rfl
  have hbest : s.isBest c td b.gasUsed = true ↔ last < td ∨ td = last ∧ c.tieBreakingGas = true ∧
      ((c.block s.lastBlockHash).elim 0 Block.gasUsed) < b.gasUsed := by
    simp only [isBest, Bool.or_eq_true, Bool.and_eq_true, decide_eq_true_eq, beq_iff_eq]
    tauto
  refine ⟨hself, ?_⟩
  rw [hl]
  by_cases hlt : last < td
  · rw [if_pos (hbest.mpr (.inl hlt)), if_pos hlt, hself]
    exact ⟨(max_eq_right (BitVec.lt_def.mp hlt).le).symm, rfl⟩
  rw [if_neg hlt]
  have hle : td.toNat ≤ last.toNat := not_lt.mp fun h => hlt (BitVec.lt_def.mpr h)
  by_cases htie : td = last ∧ c.tieBreakingGas = true ∧
      ((c.block s.lastBlockHash).elim 0 Block.gasUsed) < b.gasUsed
  · rw [if_pos (hbest.mpr (.inr htie)), if_pos htie, hself, htie.1]
    exact ⟨(max_self _).symm, rfl⟩
  · rw [if_neg fun h => (hbest.mp h).elim hlt htie, if_neg htie, hlast]
    exact ⟨(max_eq_left hle).symm, rfl⟩

/-- The rule of the head, for an operation. -/
theorem Indexed.bestIsHead (i : Indexed c s) (op : Op) : BestIsHead c s op := by
  cases op with
  | rewind _ | numberHash _ | transactionLocation _ | accountLocation _ _ | garbageCollect =>
      trivial
  | importBlock h mustBeNew valid =>
      cases i.sound.imported_cases i.head h mustBeNew valid with
      | refused check same =>
          simp only [BestIsHead, check]
          exact same
      | aside check best inserted same =>
          simp only [BestIsHead, check]
          refine inserted.bestIsHead i.sound i.head ?_
          rw [best, same]
          rfl
      | detached check best null detached =>
          simp only [BestIsHead, check]
          exact detached.bestIsHead i.sound i.head (by rw [best, detached.lastBlockHash, if_pos rfl])
      | extended check best null extended =>
          simp only [BestIsHead, check]
          exact extended.bestIsHead i.sound i.head (by rw [best, extended.lastBlockHash, if_pos rfl])

/-- The states of a run include the first. -/
theorem mem_trail_self (s : BlockChain) (ops : List Op) : s ∈ trail (next c) id s ops := by
  cases ops <;> simp [trail]

/-- A run from a state with the invariant. -/
theorem Indexed.run (i : Indexed c s) (ops : List Op) :
    (∀ s' ∈ trail (BlockChain.next c) id s ops, IndexIsChain c s') ∧
        Along (BlockChain.next c) (BestIsHead c) s ops ↔
      Along (BlockChain.next c) (NumbersOpen c) s ops := by
  induction ops generalizing s with
  | nil =>
      simp only [trail, Along, List.mem_singleton, forall_eq, and_true, iff_true, id]
      exact i.indexIsChain
  | cons op ops ih =>
      rw [trail, Along, Along, List.forall_mem_cons]
      constructor
      · rintro ⟨⟨-, hindex⟩, -, hbest⟩
        have hopen : NumbersOpen c s op := (i.next_iff op).mp (hindex _ (mem_trail_self _ _))
        exact ⟨hopen, (ih (i.next hopen)).mp ⟨hindex, hbest⟩⟩
      · rintro ⟨hopen, hrest⟩
        obtain ⟨hindex, hbest⟩ := (ih (i.next hopen)).mpr hrest
        exact ⟨⟨i.indexIsChain, hindex⟩, i.bestIsHead op, hbest⟩

/-- **The number index follows the chain exactly if no number above the head was looked up
before another block gets it.** -/
theorem index_is_chain (c : Blocks) (ops : List Op) :
    (∀ s ∈ trail (next c) id (start c) ops, IndexIsChain c s) ∧
        Along (next c) (BestIsHead c) (start c) ops ↔
      Along (next c) (NumbersOpen c) (start c) ops :=
  (indexed_start c).run ops

/-! ## Numbers of the blocks in the index -/

/-- The index has every block at its number, also what is above the head. -/
def Numbered (c : Blocks) (s : BlockChain) : Prop :=
  ∀ n h, s.blockHashes n = some h ∨ s.extraBlockHash n = some h →
    ∃ b, c.block h = some b ∧ b.number = n

theorem Numbered.foldl_writeBlock (hs : Numbered c s) (bs : List H256) :
    Numbered c (bs.foldl (writeBlock c) s) := by
  rw [foldl_writeBlock_eq]
  rintro n h (hcache | htable)
  · exact hs n h (.inl hcache)
  · rcases Cache.mem_or_of_write htable with hmem | htable
    · exact (mem_numbers.mp hmem).2
    · exact hs n h (.inr htable)

theorem Numbered.clear (hs : Numbered c s) (firstInvalid : ℕ) :
    Numbered c (s.clearCachesDuringChainReversion firstInvalid) := by
  rintro n h (hcache | htable)
  · simp only [clearCachesDuringChainReversion, Option.ite_none_left_eq_some] at hcache
    exact hs n h (.inl hcache.2)
  · exact hs n h (.inr htable)

theorem Numbered.importBlock (hs : Numbered c s) (h : H256) (mustBeNew valid : Bool) :
    Numbered c (s.importBlock c h mustBeNew valid) := by
  rw [BlockChain.importBlock]
  split
  · exact hs
  · rw [insertBlockAndExtras]
    split
    · split
      · exact hs
      · refine Numbered.foldl_writeBlock (s := ite _ _ _) ?_ _
        split
        · exact hs.clear _
        · exact hs
    · exact hs

theorem Numbered.numberHash (hs : Numbered c s) (n : ℕ) : Numbered c (s.numberHash c n).2 := by
  by_cases h0 : n = 0
  · subst h0
    exact hs
  · rw [numberHash_eq h0]
    rintro m h (hcache | htable)
    · simp only [Cache.load, Function.update_apply] at hcache
      split at hcache
      · rename_i hm
        subst hm
        rw [Cache.lookup, Option.or_eq_some_iff] at hcache
        exact hs m h (hcache.imp_right And.right)
      · exact hs m h (.inl hcache)
    · exact hs m h (.inr htable)

theorem Numbered.rewind (hs : Numbered c s) (newHead : ℕ) : Numbered c (s.rewind c newHead) := by
  rw [BlockChain.rewind]
  split
  · exact hs
  · exact (hs.clear _).numberHash newHead

theorem numbered_start (c : Blocks) : Numbered c (start c) := by
  rintro n h (hcache | htable)
  · cases hcache
  · cases htable

/-- What the index says about a number has this number, or has no details. -/
theorem Numbered.number_numberHash (hs : Numbered c s) (hsound : Sound c s) (n : ℕ) :
    s.number (s.numberHash c n).1 = n ∨ s.number (s.numberHash c n).1 = c_invalidNumber := by
  by_cases h0 : n = 0
  · subst h0
    exact .inl hsound.rooted.root_height
  · by_cases hknown : s.Known (s.numberHash c n).1
    · left
      obtain ⟨b, hb, hnumber⟩ := hsound.block hknown
      rw [numberHash_eq h0] at hknown hb hnumber ⊢
      cases hlookup : Cache.lookup s.blockHashes s.extraBlockHash n with
      | none =>
          rw [hlookup] at hknown
          exact absurd hknown hsound.not_known_zero
      | some h =>
          rw [hlookup] at hb hnumber
          rw [Cache.lookup, Option.or_eq_some_iff] at hlookup
          obtain ⟨b', hb', rfl⟩ := hs n h (hlookup.imp_right And.right)
          exact hnumber.trans (congrArg Block.number (Option.some_inj.mp (hb.symm.trans hb')))
    · right
      rw [Known, Option.not_isSome_iff_eq_none] at hknown
      rw [BlockChain.number, details, hknown]
      rfl

/-- Two blocks over the genesis block. -/
def siblings : Blocks where
  block := fun h =>
    if h = 1 ∨ h = 2 then some ⟨3, 1, 1, 0, []⟩ else if h = 3 then some ⟨0, 0, 1, 0, []⟩ else none
  sender := fun _ => 0
  nonce := fun _ => 0
  hasZeroSignature := fun _ => false
  genesisHash := 3
  genesis := ⟨0, 0, 1, 0, []⟩
  genesisNonces := fun _ => 0
  tieBreakingGas := true
  constantinopleForkBlock := 2 ^ 32
  sender_of_zeroSignature := fun _ h => absurd h Bool.false_ne_true
  block_zero := by decide
  block_genesis := by decide
  genesis_number := rfl
  genesis_transactions := rfl

/-- A block that was rewound and looked up keeps its number when the other one is imported. -/
theorem stale_number :
    ¬∀ s ∈ trail (next siblings) id (start siblings)
        [.importBlock 1 true true, .rewind 0, .numberHash 1, .importBlock 2 true true],
      IndexIsChain siblings s := by
  decide +kernel

end CppSwc.BlockChain
