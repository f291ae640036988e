import CppSwc.Chain.BlockChain
import CppSwc.Lib.Cache
import Mathlib.Data.List.Iterate

/-!
# Routes between blocks

The details of the imported blocks form a tree with the genesis block as its root.  There
`treeRoute` finds the last common ancestor, and an import that moves the head rewrites
the index for the blocks of the new chain above it.
-/

namespace CppSwc.BlockChain

open Lib

/-! ## The tree of the details -/

/-- The checks of an import that are kept. -/
structure Accepted (c : Blocks) (s : BlockChain) (h : H256) (b : Block)
    (nonces : Address → ℕ) : Prop where
  block : c.block h = some b
  parent : (s.details? b.parentHash).isSome
  number : b.number = s.number b.parentHash + 1
  bounded : b.number < 2 ^ 32
  enacted : enact c b b.transactions (s.nonces b.parentHash) = some nonces

/-- The details of a block over its parent. -/
def detailsOver (s : BlockChain) (b : Block) : BlockDetails where
  number := b.number
  totalDifficulty := (s.details b.parentHash).totalDifficulty + b.difficulty
  parent := b.parentHash

/-- Every block with details was accepted over the block before it. -/
structure Sound (c : Blocks) (s : BlockChain) : Prop where
  genesis : s.details? c.genesisHash =
    some { number := 0, totalDifficulty := c.genesis.difficulty, parent := 0 }
  imported : ∀ h d, s.details? h = some d → h ≠ c.genesisHash →
    ∃ b, d = s.detailsOver b ∧ Accepted c s h b (s.nonces h)

/-- The block has details. -/
def Known (s : BlockChain) (h : H256) : Prop := (s.details? h).isSome

/-- The ancestor of a block at a height. -/
def ancestor (s : BlockChain) (h : H256) (n : ℕ) : H256 := Lib.ancestor s.parent s.number h n

variable {c : Blocks} {s s' : BlockChain} {h x y : H256} {b : Block} {nonces : Address → ℕ}

/-- What the details of an imported block say. -/
theorem Sound.accepted (hs : Sound c s) (hx : s.Known x) (hne : x ≠ c.genesisHash) :
    ∃ b, Accepted c s x b (s.nonces x) ∧ s.details? x = some (s.detailsOver b) := by
  obtain ⟨d, hd⟩ := Option.isSome_iff_exists.mp hx
  obtain ⟨b, rfl, hacc⟩ := hs.imported x d hd hne
  exact ⟨b, hacc, hd⟩

/-- Where a block with known details stands. -/
theorem place {d : BlockDetails} (hd : s.details? x = some d) :
    s.number x = d.number ∧ s.parent x = d.parent := by
  simp [BlockChain.number, BlockChain.parent, details, hd]

/-- The block of a hash with details. -/
theorem Sound.block (hs : Sound c s) (hx : s.Known x) :
    ∃ b, c.block x = some b ∧ s.number x = b.number := by
  by_cases hne : x = c.genesisHash
  · subst hne
    refine ⟨c.genesis, c.block_genesis, ?_⟩
    simp [BlockChain.number, details, hs.genesis, c.genesis_number]
  · obtain ⟨b, hacc, hd⟩ := hs.accepted hx hne
    exact ⟨b, hacc.block, (place hd).1⟩

theorem Sound.not_known_zero (hs : Sound c s) : ¬s.Known 0 := by
  intro h0
  obtain ⟨b, hb, -⟩ := hs.block h0
  rw [c.block_zero] at hb
  cases hb

theorem Sound.ne_zero (hs : Sound c s) (hx : s.Known x) : x ≠ 0 := by
  rintro rfl
  exact hs.not_known_zero hx

/-- The details form a tree. -/
theorem Sound.rooted (hs : Sound c s) : Rooted s.Known s.parent s.number c.genesisHash where
  root_known := by rw [Known, hs.genesis]; rfl
  root_height := by simp [BlockChain.number, details, hs.genesis]
  eq_root := by
    intro x hx hzero
    by_contra hne
    obtain ⟨b, hacc, hd⟩ := hs.accepted hx hne
    have hnumber : s.number x = b.number := (place hd).1
    have := hacc.number
    omega
  up := by
    intro x hx hne
    have hgenesis : x ≠ c.genesisHash := by
      rintro rfl
      exact hne (by simp [BlockChain.number, details, hs.genesis])
    obtain ⟨b, hacc, hd⟩ := hs.accepted hx hgenesis
    rw [(place hd).1, (place hd).2]
    exact ⟨hacc.parent, hacc.number⟩

/-- The block of an ancestor has its number. -/
theorem Sound.block_ancestor (hs : Sound c s) (hx : s.Known x) {n : ℕ} (hn : n ≤ s.number x) :
    ∃ b, c.block (s.ancestor x n) = some b ∧ b.number = n := by
  obtain ⟨b, hb, hnumber⟩ := hs.block (hs.rooted.known_ancestor (n := n) hx)
  exact ⟨b, hb, hnumber.symm.trans (hs.rooted.height_ancestor hx hn)⟩

/-- The block of an ancestor was accepted over the one below. -/
theorem Sound.accepted_ancestor (hs : Sound c s) (hx : s.Known x) {n : ℕ}
    (hn : n + 1 ≤ s.number x) :
    ∃ b, Accepted c s (s.ancestor x (n + 1)) b (s.nonces (s.ancestor x (n + 1))) ∧
      b.parentHash = s.ancestor x n := by
  have r := hs.rooted
  have hheight : s.number (s.ancestor x (n + 1)) = n + 1 := r.height_ancestor hx hn
  have hknown : s.Known (s.ancestor x (n + 1)) := r.known_ancestor hx
  have hne : s.ancestor x (n + 1) ≠ c.genesisHash := by
    intro heq
    rw [heq, r.root_height] at hheight
    omega
  obtain ⟨b, hacc, hd⟩ := hs.accepted hknown hne
  have hup : s.ancestor (s.ancestor x (n + 1)) n = s.parent (s.ancestor x (n + 1)) := by
    rw [ancestor, Lib.ancestor, hheight, Nat.add_sub_cancel_left, Function.iterate_one]
  have hbelow : s.ancestor (s.ancestor x (n + 1)) n = s.ancestor x n :=
    r.ancestor_ancestor hx (Nat.le_succ n) hn
  exact ⟨b, hacc, by rw [← hbelow, hup, (place hd).2]; rfl⟩

/-! ## The loops of `treeRoute` -/

theorem climb_eq (parent : H256 → H256) (n : ℕ) (h : H256) :
    climb parent n h = (List.iterate parent h n, parent^[n] h) := by
  induction n generalizing h with
  | zero => rfl
  | succ n ih => rw [climb, ih, List.iterate, Function.iterate_succ_apply]

/-- From one height, the two blocks climb to their last common ancestor. -/
theorem meet_eq {known : H256 → Prop} {parent : H256 → H256} {height : H256 → ℕ} {root : H256}
    (r : Rooted known parent height root) (h0 : ¬known 0) (n : ℕ) {x y : H256} (hx : known x)
    (hy : known y) (hxy : height x = height y) (hn : height x < n) :
    ∃ k ≤ height x,
      meet parent n x y = some (List.iterate parent x (height x - k + 1),
        List.iterate parent y (height y - k), Lib.ancestor parent height x k) ∧
      Lib.ancestor parent height x k = Lib.ancestor parent height y k ∧
      ∀ j, k < j → j ≤ height x →
        Lib.ancestor parent height x j ≠ Lib.ancestor parent height y j := by
  induction n generalizing x y with
  | zero => omega
  | succ n ih =>
      by_cases heq : x = y
      · subst heq
        refine ⟨height x, le_rfl, ?_, rfl, fun j hj hle => absurd hj (by omega)⟩
        rw [meet, if_pos rfl, ancestor_self, Nat.sub_self]
        rfl
      · have hheight : height x ≠ 0 := by
          intro hzero
          exact heq ((r.eq_root x hx hzero).trans (r.eq_root y hy (by omega)).symm)
        have hzero : ¬(x = 0 ∨ y = 0) := by
          rintro (rfl | rfl)
          · exact h0 hx
          · exact h0 hy
        obtain ⟨hpx, hupx⟩ := r.up x hx hheight
        obtain ⟨hpy, hupy⟩ := r.up y hy (by omega)
        obtain ⟨k, hk, hmeet, hcommon, hlast⟩ := ih hpx hpy (by omega) (by omega)
        have hclimb : ∀ {z j}, known z → j < height z →
            Lib.ancestor parent height (parent z) j = Lib.ancestor parent height z j :=
          fun hz hj => (r.ancestor_parent hz hj).symm
        refine ⟨k, by omega, ?_, ?_, ?_⟩
        · have hlx : height x - k + 1 = (height (parent x) - k + 1) + 1 := by omega
          have hly : height y - k = (height (parent y) - k) + 1 := by omega
          rw [meet, if_neg heq, if_neg hzero, hmeet, Option.map_some, hlx, hly,
            hclimb hx (by omega)]
          rfl
        · rw [← hclimb hx (by omega), ← hclimb hy (by omega), hcommon]
        · intro j hj hle
          by_cases htop : j = height x
          · rw [htop, ancestor_self, hxy, ancestor_self]
            exact heq
          · rw [← hclimb hx (by omega), ← hclimb hy (by omega)]
            exact hlast j hj (by omega)

/-- Once they are levelled, the two blocks climb to their last common ancestor. -/
theorem meet_levelled {root : H256} (r : Rooted s.Known s.parent s.number root)
    (h0 : ¬s.Known 0) (hx : s.Known x) (hy : s.Known y) :
    ∃ k, LastCommon s.parent s.number x y k ∧
      meet s.parent (min (s.number x) (s.number y) + 1)
          (s.parent^[s.number x - s.number y] x) (s.parent^[s.number y - s.number x] y) =
        some (List.iterate s.parent (s.parent^[s.number x - s.number y] x)
            (min (s.number x) (s.number y) - k + 1),
          List.iterate s.parent (s.parent^[s.number y - s.number x] y)
            (min (s.number x) (s.number y) - k), s.ancestor x k) := by
  obtain ⟨hkx, hlx⟩ := r.iterate hx (k := s.number x - s.number y) (Nat.sub_le _ _)
  obtain ⟨hky, hly⟩ := r.iterate hy (k := s.number y - s.number x) (Nat.sub_le _ _)
  obtain ⟨k, hk, hmeet, hcommon, hlast⟩ := meet_eq r h0
    (min (s.number x) (s.number y) + 1) hkx hky (by omega) (by omega)
  have hclimb : ∀ {z m j}, s.Known z → j + m ≤ s.number z →
      Lib.ancestor s.parent s.number (s.parent^[m] z) j = s.ancestor z j := by
    intro z m j hz hj
    have hat : s.parent^[m] z = Lib.ancestor s.parent s.number z (s.number z - m) := by
      rw [Lib.ancestor]
      congr 2
      omega
    rw [hat]
    exact r.ancestor_ancestor hz (by omega) (Nat.sub_le _ _)
  rw [hclimb hx (by omega)] at hmeet hcommon
  rw [hclimb hy (by omega)] at hcommon
  refine ⟨k, ⟨by omega, by omega, hcommon, ?_⟩, ?_⟩
  · intro j hj hjx hjy
    have hne := hlast j hj (by omega)
    rw [hclimb hx (by omega), hclimb hy (by omega)] at hne
    exact hne
  · rw [hmeet]
    congr 3
    · congr 1
      omega
    · congr 1
      omega

/-- `treeRoute` goes down to the last common ancestor, which it includes, and up again. -/
theorem Sound.treeRoute_eq (hs : Sound c s) (hx : s.Known x) (hy : s.Known y)
    (hnx : s.number x ≠ c_invalidNumber) (hny : s.number y ≠ c_invalidNumber) :
    ∃ k, k ≤ s.number x ∧ k ≤ s.number y ∧
      s.treeRoute x y = some (List.iterate s.parent x (s.number x - k + 1) ++
        (List.iterate s.parent y (s.number y - k)).reverse, s.ancestor x k) ∧
      s.ancestor x k = s.ancestor y k ∧
      ∀ j, k < j → j ≤ s.number x → j ≤ s.number y → s.ancestor x j ≠ s.ancestor y j := by
  obtain ⟨k, hlast, hmeet⟩ := meet_levelled hs.rooted hs.not_known_zero hx hy
  have hkx := hlast.le_left
  have hky := hlast.le_right
  have hguard : ¬(x = 0 ∨ y = 0 ∨ (s.details x).isNull = true ∨ (s.details y).isNull = true) := by
    simp only [BlockDetails.isNull, beq_iff_eq]
    rintro (h | h | h | h)
    exacts [hs.ne_zero hx h, hs.ne_zero hy h, hnx h, hny h]
  have hroute : ∀ {z m l}, List.iterate s.parent z m ++
      List.iterate s.parent (s.parent^[m] z) l = List.iterate s.parent z (m + l) :=
    fun {z m l} => (List.iterate_add s.parent z m l).symm
  refine ⟨k, hkx, hky, ?_, hlast.common, hlast.last⟩
  simp only [treeRoute, hguard, if_false, climb_eq, hmeet, Option.map_some, hroute]
  congr 3
  · congr 1
    omega
  · congr 2
    omega

/-! ## Imports -/

/-- Blocks numbers are those of a machine word. -/
theorem Sound.number_lt (hs : Sound c s) (hx : s.Known x) : s.number x < 2 ^ 32 := by
  by_cases hne : x = c.genesisHash
  · subst hne
    rw [hs.rooted.root_height]
    decide
  · obtain ⟨b, hacc, hd⟩ := hs.accepted hx hne
    rw [(place hd).1]
    exact hacc.bounded

/-- The block has been committed. -/
structure Inserted (c : Blocks) (s s' : BlockChain) (h : H256) (b : Block)
    (nonces : Address → ℕ) : Prop where
  accepted : Accepted c s h b nonces
  details : s'.details? = Function.update s.details? h (some (s.detailsOver b))
  nonces : s'.nonces = Function.update s.nonces h nonces

namespace Inserted

theorem ne_genesisHash (i : Inserted c s s' h b nonces) : h ≠ c.genesisHash := by
  rintro rfl
  have hb := i.accepted.block
  rw [c.block_genesis, Option.some_inj] at hb
  have := i.accepted.number
  rw [← hb, c.genesis_number] at this
  omega

theorem details_self (i : Inserted c s s' h b nonces) :
    s'.details? h = some (s.detailsOver b) := by
  rw [i.details, Function.update_self]

theorem known_self (i : Inserted c s s' h b nonces) : s'.Known h := by
  rw [Known, i.details_self]
  rfl

/-- A block that is imported again had the same details. -/
theorem details_eq (i : Inserted c s s' h b nonces) (hs : Sound c s) {x : H256} (hx : s.Known x) :
    s'.details? x = s.details? x := by
  by_cases hne : x = h
  · subst hne
    obtain ⟨b', hacc, hd⟩ := hs.accepted hx i.ne_genesisHash
    obtain rfl : b = b' := Option.some_inj.mp (i.accepted.block.symm.trans hacc.block)
    rw [i.details_self, hd]
  · rw [i.details, Function.update_of_ne hne]

/-- And the same state. -/
theorem nonces_eq (i : Inserted c s s' h b nonces) (hs : Sound c s) (hx : s.Known x) :
    s'.nonces x = s.nonces x := by
  by_cases hne : x = h
  · subst hne
    obtain ⟨b', hacc, -⟩ := hs.accepted hx i.ne_genesisHash
    obtain rfl : b = b' := Option.some_inj.mp (i.accepted.block.symm.trans hacc.block)
    rw [i.nonces, Function.update_self]
    exact Option.some_inj.mp (i.accepted.enacted.symm.trans hacc.enacted)
  · rw [i.nonces, Function.update_of_ne hne]

theorem known (i : Inserted c s s' h b nonces) (hs : Sound c s) (hx : s.Known x) :
    s'.Known x := by
  rwa [Known, i.details_eq hs hx]

theorem detailsOver_eq (i : Inserted c s s' h b nonces) (hs : Sound c s) {b' : Block}
    (hp : s.Known b'.parentHash) : s'.detailsOver b' = s.detailsOver b' := by
  simp only [detailsOver, BlockChain.details, i.details_eq hs hp]

theorem agree (i : Inserted c s s' h b nonces) (hs : Sound c s) (x : H256) (hx : s.Known x) :
    s'.parent x = s.parent x ∧ s'.number x = s.number x := by
  simp [BlockChain.parent, BlockChain.number, BlockChain.details, i.details_eq hs hx]

theorem self (i : Inserted c s s' h b nonces) :
    s'.number h = b.number ∧ s'.parent h = b.parentHash :=
  place i.details_self

theorem transfer (i : Inserted c s s' h b nonces) (hs : Sound c s) {b' : Block}
    {nonces' : Address → ℕ} (ha : Accepted c s x b' nonces') : Accepted c s' x b' nonces' where
  block := ha.block
  parent := i.known hs ha.parent
  number := by rw [(i.agree hs _ ha.parent).2, ha.number]
  bounded := ha.bounded
  enacted := by rw [i.nonces_eq hs ha.parent, ha.enacted]

theorem sound (i : Inserted c s s' h b nonces) (hs : Sound c s) : Sound c s' where
  genesis := by rw [i.details_eq hs hs.rooted.root_known, hs.genesis]
  imported := by
    intro x d hd hne
    by_cases hx : x = h
    · subst hx
      rw [i.details_self, Option.some_inj] at hd
      refine ⟨b, by rw [i.detailsOver_eq hs i.accepted.parent, hd], ?_⟩
      rw [i.nonces, Function.update_self]
      exact i.transfer hs i.accepted
    · have hknown : s.details? x = some d := by
        rwa [i.details, Function.update_of_ne hx] at hd
      obtain ⟨b', rfl, hacc⟩ := hs.imported x d hknown hne
      refine ⟨b', (i.detailsOver_eq hs hacc.parent).symm, ?_⟩
      rw [i.nonces_eq hs (by rw [Known, hknown]; rfl)]
      exact i.transfer hs hacc

/-- The chains of the blocks before stay. -/
theorem ancestor_eq (i : Inserted c s s' h b nonces) (hs : Sound c s) (hx : s.Known x) (n : ℕ) :
    s'.ancestor x n = s.ancestor x n :=
  hs.rooted.ancestor_congr (i.agree hs) hx n

theorem ancestor_self (i : Inserted c s s' h b nonces) : s'.ancestor h b.number = h := by
  rw [← i.self.1]
  exact Lib.ancestor_self _ _ _

/-- The chain of the new block is that of its parent. -/
theorem ancestor_of_lt (i : Inserted c s s' h b nonces) (hs : Sound c s) {n : ℕ}
    (hn : n < b.number) : s'.ancestor h n = s.ancestor b.parentHash n := by
  rw [ancestor, (i.sound hs).rooted.ancestor_parent i.known_self (i.self.1 ▸ hn), i.self.2]
  exact i.ancestor_eq hs i.accepted.parent n

end Inserted

/-- A block that passes the checks is accepted. -/
theorem Sound.of_checkImport (hs : Sound c s) {mustBeNew valid : Bool} {td : U256}
    (hc : s.checkImport c h mustBeNew valid = some (b, td, nonces)) :
    Accepted c s h b nonces ∧ td = (s.detailsOver b).totalDifficulty := by
  unfold checkImport at hc
  cases hb : c.block h with
  | none => simp [hb] at hc
  | some b' =>
      simp only [hb, Option.ite_none_left_eq_some, Option.map_eq_some_iff, Prod.mk.injEq] at hc
      obtain ⟨-, hknown, -, hvalid, nonces', henact, rfl, rfl, rfl⟩ := hc
      have hparent : s.Known b'.parentHash := by
        simp only [isKnown, Bool.not_false, Bool.true_or, Bool.and_true, Bool.not_eq_true',
          Bool.not_eq_false, Bool.or_eq_true, beq_iff_eq] at hknown
        rcases hknown with hgenesis | hknown
        · rw [hgenesis]
          exact hs.rooted.root_known
        · exact hknown
      obtain ⟨p, hp, hnumber⟩ := hs.block hparent
      simp only [Bool.or_eq_true, Bool.not_eq_true', decide_eq_true_eq, bne_iff_ne, not_or,
        Bool.not_eq_false, not_le, ne_eq, not_not, hp, Option.elim_some] at hvalid
      exact ⟨⟨hb, hparent, by rw [hnumber]; exact hvalid.2, hvalid.1.2, henact⟩, rfl⟩

/-! ## The loop over the route -/

/-- The entries of the number index for some blocks. -/
def numbers (c : Blocks) (bs : List H256) : List (ℕ × H256) :=
  bs.flatMap fun x => (c.block x).elim [] fun b => [(b.number, x)]

/-- The entries of a table of locations for some blocks. -/
def locations {κ : Type} (c : Blocks) (key : H256 → κ) (bs : List H256) :
    List (κ × TransactionAddress) :=
  bs.flatMap fun x => (c.block x).elim [] fun b =>
    b.transactions.zipIdx.map fun e => (key e.1, ⟨x, e.2⟩)

/-- The key of the account index. -/
def account (c : Blocks) (tx : H256) : Address × ℕ := (c.sender tx, c.nonce tx)

theorem mem_numbers {bs : List H256} {n : ℕ} :
    (n, x) ∈ numbers c bs ↔ x ∈ bs ∧ ∃ b, c.block x = some b ∧ b.number = n := by
  simp only [numbers, List.mem_flatMap]
  constructor
  · rintro ⟨y, hy, hmem⟩
    cases hb : c.block y with
    | none => simp [hb] at hmem
    | some b =>
        simp only [hb, Option.elim_some, List.mem_singleton, Prod.mk.injEq] at hmem
        obtain ⟨rfl, rfl⟩ := hmem
        exact ⟨hy, b, hb, rfl⟩
  · rintro ⟨hx, b, hb, rfl⟩
    exact ⟨x, hx, by simp [hb]⟩

theorem mem_locations {κ : Type} {key : H256 → κ} {bs : List H256} {k : κ}
    {ta : TransactionAddress} :
    (k, ta) ∈ locations c key bs ↔ ta.blockHash ∈ bs ∧
      ∃ b tx, c.block ta.blockHash = some b ∧ b.transactions[ta.index]? = some tx ∧ key tx = k := by
  simp only [locations, List.mem_flatMap]
  constructor
  · rintro ⟨y, hy, hmem⟩
    cases hb : c.block y with
    | none => simp [hb] at hmem
    | some b =>
        simp only [hb, Option.elim_some, List.mem_map, Prod.mk.injEq, Prod.exists] at hmem
        obtain ⟨tx, i, htx, rfl, rfl⟩ := hmem
        exact ⟨hy, b, tx, hb, List.mem_zipIdx_iff_getElem?.mp htx, rfl⟩
  · rintro ⟨hx, b, tx, hb, htx, rfl⟩
    refine ⟨ta.blockHash, hx, ?_⟩
    simp only [hb, Option.elim_some, List.mem_map, Prod.mk.injEq, Prod.exists]
    exact ⟨tx, ta.index, List.mem_zipIdx_iff_getElem?.mpr htx, rfl, rfl⟩

theorem writeTransactions_eq (h : H256) (txs : List H256) (i : ℕ) (s : BlockChain) :
    writeTransactions c h txs i s = { s with
      extraAccountsIndexAddress := Cache.write s.extraAccountsIndexAddress
        ((txs.zipIdx i).map fun e => (account c e.1, ⟨h, e.2⟩))
      extraTransactionAddress := Cache.write s.extraTransactionAddress
        ((txs.zipIdx i).map fun e => (e.1, ⟨h, e.2⟩)) } := by
  induction txs generalizing i s with
  | nil => rfl
  | cons tx txs ih => rw [writeTransactions, ih]; rfl

theorem writeBlock_eq (s : BlockChain) (h : H256) :
    s.writeBlock c h = { s with
      extraBlockHash := Cache.write s.extraBlockHash (numbers c [h])
      extraAccountsIndexAddress :=
        Cache.write s.extraAccountsIndexAddress (locations c (account c) [h])
      extraTransactionAddress := Cache.write s.extraTransactionAddress (locations c id [h]) } := by
  unfold writeBlock
  cases hb : c.block h with
  | none => simp [numbers, locations, hb, Cache.write]
  | some b =>
      simp only [writeTransactions_eq, numbers, locations, List.flatMap_cons, List.flatMap_nil, hb,
        Option.elim_some, List.append_nil]
      rfl

/-- The loop writes three tables. -/
theorem foldl_writeBlock_eq (bs : List H256) (s : BlockChain) :
    bs.foldl (writeBlock c) s = { s with
      extraBlockHash := Cache.write s.extraBlockHash (numbers c bs)
      extraAccountsIndexAddress :=
        Cache.write s.extraAccountsIndexAddress (locations c (account c) bs)
      extraTransactionAddress := Cache.write s.extraTransactionAddress (locations c id bs) } := by
  induction bs generalizing s with
  | nil => rfl
  | cons h bs ih =>
      have hn : numbers c (h :: bs) = numbers c [h] ++ numbers c bs := by simp [numbers]
      have hl : ∀ {κ : Type} (key : H256 → κ),
          locations c key (h :: bs) = locations c key [h] ++ locations c key bs := by
        intro κ key
        simp [locations]
      rw [List.foldl_cons, ih, writeBlock_eq, hn, hl, hl, Cache.write_append, Cache.write_append,
        Cache.write_append]

/-! ## A new head -/

/-- The chain of a block over its parent. -/
def chainOver (s : BlockChain) (h : H256) (b : Block) (n : ℕ) : H256 :=
  if n = b.number then h else s.ancestor b.parentHash n

theorem Inserted.ancestor_eq_chainOver (i : Inserted c s s' h b nonces) (hs : Sound c s) {n : ℕ}
    (hn : n ≤ b.number) : s'.ancestor h n = s.chainOver h b n := by
  unfold chainOver
  split
  · next htop => rw [htop, i.ancestor_self]
  · exact i.ancestor_of_lt hs (by omega)

/-- The head is a block of the chain, at its number. -/
structure Headed (s : BlockChain) : Prop where
  known : s.Known s.lastBlockHash
  number : s.number s.lastBlockHash = s.lastBlockNumber

/-- The blocks of the new chain above height `k`, from the top. -/
def fresh (s : BlockChain) (h parent : H256) (k : ℕ) : List H256 :=
  h :: List.iterate s.parent parent (s.number parent - k)

/-- What an import that moves the head does, with the last common block at height `k`. -/
structure Extended (c : Blocks) (s s' : BlockChain) (h : H256) (b : Block)
    (nonces : Address → ℕ) (k : ℕ) : Prop extends Inserted c s s' h b nonces where
  le_last : k ≤ s.lastBlockNumber
  lt_new : k < b.number
  common : s.ancestor s.lastBlockHash k = s.ancestor b.parentHash k
  lastBlockHash : s'.lastBlockHash = h
  lastBlockNumber : s'.lastBlockNumber = b.number
  extraBlockHash : s'.extraBlockHash =
    Cache.write s.extraBlockHash (numbers c (s.fresh h b.parentHash k))
  extraTransactionAddress : s'.extraTransactionAddress =
    Cache.write s.extraTransactionAddress (locations c id (s.fresh h b.parentHash k))
  extraAccountsIndexAddress : s'.extraAccountsIndexAddress =
    Cache.write s.extraAccountsIndexAddress (locations c (account c) (s.fresh h b.parentHash k))
  blockHashes : ∀ n, s'.blockHashes n =
    if k < n ∧ n ≤ s.lastBlockNumber then none else s.blockHashes n
  transactionAddresses : ∀ tx, s'.transactionAddresses tx =
    if k < s.lastBlockNumber then none else s.transactionAddresses tx
  accountsIndexAddress : s'.accountsIndexAddress = s.accountsIndexAddress

/-- The blocks written are those of the new chain above the common block. -/
theorem Extended.mem_fresh {k : ℕ} (e : Extended c s s' h b nonces k) (hs : Sound c s) :
    x ∈ s.fresh h b.parentHash k ↔ ∃ n, k < n ∧ n ≤ b.number ∧ s'.ancestor h n = x := by
  have hnumber := e.accepted.number
  have hk := e.lt_new
  rw [fresh, List.mem_cons, List.mem_iterate]
  constructor
  · rintro (rfl | ⟨m, hm, rfl⟩)
    · exact ⟨b.number, hk, le_rfl, e.ancestor_self⟩
    · refine ⟨s.number b.parentHash - m, by omega, by omega, ?_⟩
      rw [e.ancestor_of_lt hs (by omega), ancestor, Lib.ancestor]
      congr 2
      omega
  · rintro ⟨n, hkn, hn, rfl⟩
    by_cases htop : n = b.number
    · exact .inl (htop ▸ e.ancestor_self)
    · refine .inr ⟨s.number b.parentHash - n, by omega, ?_⟩
      rw [e.ancestor_of_lt hs (by omega)]
      rfl

/-- Where a block that is written stands. -/
theorem Extended.number_of_mem {k : ℕ} (e : Extended c s s' h b nonces k) (hs : Sound c s)
    (hx : x ∈ s.fresh h b.parentHash k) {b' : Block} (hb' : c.block x = some b') :
    k < b'.number ∧ b'.number ≤ b.number ∧ s'.ancestor h b'.number = x := by
  obtain ⟨n, hk, hn, rfl⟩ := (e.mem_fresh hs).mp hx
  obtain ⟨b'', hb'', rfl⟩ := (e.sound hs).block_ancestor e.known_self (e.self.1.symm ▸ hn)
  obtain rfl : b' = b'' := Option.some_inj.mp (hb'.symm.trans hb'')
  exact ⟨hk, hn, rfl⟩

/-- The loop stops at the common block. -/
theorem Sound.takeWhile_route (hs : Sound c s) (ha : Accepted c s h b nonces) {k : ℕ}
    (hk : k ≤ s.number b.parentHash) (hcommon : s.ancestor x k = s.ancestor b.parentHash k) :
    ((List.iterate s.parent x (s.number x - k + 1) ++
        (List.iterate s.parent b.parentHash (s.number b.parentHash - k)).reverse ++
        [h]).reverse.takeWhile fun y => decide (y ≠ s.ancestor x k)) =
      s.fresh h b.parentHash k := by
  have r := hs.rooted
  have hheight : s.number (s.ancestor b.parentHash k) = k := r.height_ancestor ha.parent hk
  have hknown : s.Known (s.ancestor b.parentHash k) := r.known_ancestor ha.parent
  have hlast : List.iterate s.parent x (s.number x - k + 1) =
      List.iterate s.parent x (s.number x - k) ++ [s.ancestor x k] := by
    rw [List.iterate_add]
    rfl
  have hh : h ≠ s.ancestor b.parentHash k := by
    rintro rfl
    obtain ⟨b', hb', hnumber⟩ := hs.block hknown
    obtain rfl : b = b' := Option.some_inj.mp (ha.block.symm.trans hb')
    have := ha.number
    omega
  have habove : ∀ y ∈ List.iterate s.parent b.parentHash (s.number b.parentHash - k),
      y ≠ s.ancestor b.parentHash k := by
    intro y hy heq
    obtain ⟨m, hm, rfl⟩ := List.mem_iterate.mp hy
    have hiter := (r.iterate ha.parent (k := m) (by omega)).2
    rw [heq, hheight] at hiter
    omega
  rw [hlast, hcommon]
  simp only [List.reverse_append, List.reverse_cons, List.reverse_nil, List.nil_append,
    List.reverse_reverse, List.singleton_append, List.takeWhile_cons, hh, ne_eq, not_false_eq_true,
    decide_true, if_true, fresh]
  rw [List.takeWhile_append_of_pos fun y hy => by simpa using habove y hy]
  simp

/-- The caches before the loop. -/
theorem clear_fields {k : ℕ} (hk : k ≤ s.lastBlockNumber) (hend : s.lastBlockNumber + 1 < 2 ^ 32) :
    (if ¬k = s.lastBlockNumber then s.clearCachesDuringChainReversion (k + 1) else s) = { s with
      blockHashes := fun n => if k < n ∧ n ≤ s.lastBlockNumber then none else s.blockHashes n
      transactionAddresses := fun tx =>
        if k < s.lastBlockNumber then none else s.transactionAddresses tx } := by
  by_cases heq : k = s.lastBlockNumber
  · have hhashes : (fun n => if k < n ∧ n ≤ s.lastBlockNumber then none else s.blockHashes n) =
        s.blockHashes := by
      funext n
      exact if_neg (by omega)
    rw [if_neg (not_not_intro heq), hhashes]
    simp only [heq, lt_irrefl, if_false]
  · have hlt : k < s.lastBlockNumber := by omega
    rw [if_pos heq, clearCachesDuringChainReversion, Nat.mod_eq_of_lt hend]
    simp only [Nat.succ_le_iff, Nat.lt_succ_iff, hlt, if_true]

/-- The block becomes the head, along the route to it. -/
theorem Sound.extended_route (hs : Sound c s) (hh : Headed s) (hnull : s.lastBlockNumber ≠ c_invalidNumber)
    (ha : Accepted c s h b nonces)
    (hbest : s.isBest c (s.detailsOver b).totalDifficulty b.gasUsed = true) :
    ∃ k route, s.treeRoute s.lastBlockHash b.parentHash =
        some (route, s.ancestor s.lastBlockHash k) ∧
      ((route ++ [h]).reverse.takeWhile fun y => decide (y ≠ s.ancestor s.lastBlockHash k)) =
        s.fresh h b.parentHash k ∧
      s.number (s.ancestor s.lastBlockHash k) = k ∧
      Extended c s
        (s.insertBlockAndExtras c h b (s.detailsOver b).totalDifficulty nonces) h b nonces k := by
  have hnumber := ha.number
  have hbound := ha.bounded
  have hparent : s.number b.parentHash ≠ c_invalidNumber := by
    unfold c_invalidNumber
    omega
  have hend : s.lastBlockNumber + 1 < 2 ^ 32 := by
    have hlast := hs.number_lt hh.known
    rw [hh.number] at hlast
    unfold c_invalidNumber at hnull
    omega
  obtain ⟨k, hkl, hkp, hroute, hcommon, -⟩ :=
    hs.treeRoute_eq hh.known ha.parent (hh.number ▸ hnull) hparent
  have hheight : s.number (s.ancestor s.lastBlockHash k) = k :=
    hs.rooted.height_ancestor hh.known hkl
  have hsame : s.ancestor s.lastBlockHash k = s.lastBlockHash ↔ k = s.lastBlockNumber := by
    constructor
    · intro heq
      rw [← hheight, ← hh.number, heq]
    · rintro rfl
      rw [← hh.number]
      exact Lib.ancestor_self _ _ _
  rw [hh.number] at hkl
  have hk : (k + 1) % 2 ^ 32 = k + 1 := Nat.mod_eq_of_lt (by omega)
  refine ⟨k, _, hroute, hs.takeWhile_route ha hkp hcommon, hheight, ?_⟩
  unfold insertBlockAndExtras
  simp only [hbest, if_true, hroute, extend, hs.takeWhile_route ha hkp hcommon, hheight, hk, ne_eq,
    hsame, clear_fields hkl hend, foldl_writeBlock_eq]
  exact {
    accepted := ha
    details := rfl
    nonces := rfl
    le_last := hkl
    lt_new := by omega
    common := hcommon
    lastBlockHash := rfl
    lastBlockNumber := rfl
    extraBlockHash := rfl
    extraTransactionAddress := rfl
    extraAccountsIndexAddress := rfl
    blockHashes := fun _ => rfl
    transactionAddresses := fun _ => rfl
    accountsIndexAddress := rfl }

/-- The block becomes the head. -/
theorem Sound.extended (hs : Sound c s) (hh : Headed s) (hnull : s.lastBlockNumber ≠ c_invalidNumber)
    (ha : Accepted c s h b nonces)
    (hbest : s.isBest c (s.detailsOver b).totalDifficulty b.gasUsed = true) :
    ∃ k, Extended c s
      (s.insertBlockAndExtras c h b (s.detailsOver b).totalDifficulty nonces) h b nonces k := by
  obtain ⟨k, -, -, -, -, e⟩ := hs.extended_route hh hnull ha hbest
  exact ⟨k, e⟩

/-- What an import does when the head has the number that stands for missing details: there
is no route, and only the block itself is written. -/
structure Detached (c : Blocks) (s s' : BlockChain) (h : H256) (b : Block)
    (nonces : Address → ℕ) : Prop extends Inserted c s s' h b nonces where
  lastBlockHash : s'.lastBlockHash = h
  lastBlockNumber : s'.lastBlockNumber = b.number
  extraBlockHash : s'.extraBlockHash = Cache.write s.extraBlockHash (numbers c [h])
  blockHashes : s'.blockHashes = s.blockHashes

theorem Sound.detached (hs : Sound c s) (hh : Headed s) (hnull : s.lastBlockNumber = c_invalidNumber)
    (ha : Accepted c s h b nonces)
    (hbest : s.isBest c (s.detailsOver b).totalDifficulty b.gasUsed = true) :
    Detached c s (s.insertBlockAndExtras c h b (s.detailsOver b).totalDifficulty nonces) h b
      nonces := by
  have hlast : (s.details s.lastBlockHash).isNull = true := by
    rw [BlockDetails.isNull, beq_iff_eq, ← hnull, ← hh.number]
    rfl
  have hzero : s.number 0 = c_invalidNumber := by
    have hnone : s.details? 0 = none := Option.not_isSome_iff_eq_none.mp hs.not_known_zero
    rw [BlockChain.number, details, hnone]
    rfl
  have hne : h ≠ 0 := by
    rintro rfl
    have hb := ha.block
    rw [c.block_zero] at hb
    cases hb
  have hroute : s.treeRoute s.lastBlockHash b.parentHash = some ([], 0) := by
    rw [treeRoute, if_pos (.inr (.inr (.inl hlast)))]
  have hhashes : (s.clearCachesDuringChainReversion 0).blockHashes = s.blockHashes := by
    funext n
    simp [clearCachesDuringChainReversion, hnull, c_invalidNumber]
  have hword : (c_invalidNumber + 1) % 2 ^ 32 = 0 := by decide
  unfold insertBlockAndExtras
  simp only [hbest, if_true, hroute, extend, List.nil_append, List.reverse_singleton,
    List.takeWhile_cons, List.takeWhile_nil, ne_eq, hne, not_false_eq_true, decide_true,
    Ne.symm (hs.ne_zero hh.known), hzero, hword, foldl_writeBlock_eq]
  exact {
    accepted := ha
    details := rfl
    nonces := rfl
    lastBlockHash := rfl
    lastBlockNumber := rfl
    extraBlockHash := rfl
    blockHashes := hhashes }

/-- What an import can do. -/
inductive Imported (c : Blocks) (s : BlockChain) (h : H256) (mustBeNew valid : Bool) : Prop where
  | refused (check : s.checkImport c h mustBeNew valid = none)
      (same : s.importBlock c h mustBeNew valid = s)
  | aside {b : Block} {nonces : Address → ℕ}
      (check : s.checkImport c h mustBeNew valid =
        some (b, (s.detailsOver b).totalDifficulty, nonces))
      (best : s.isBest c (s.detailsOver b).totalDifficulty b.gasUsed = false)
      (inserted : Inserted c s (s.importBlock c h mustBeNew valid) h b nonces)
      (same : s.importBlock c h mustBeNew valid =
        s.commit h b (s.detailsOver b).totalDifficulty nonces)
  | detached {b : Block} {nonces : Address → ℕ}
      (check : s.checkImport c h mustBeNew valid =
        some (b, (s.detailsOver b).totalDifficulty, nonces))
      (best : s.isBest c (s.detailsOver b).totalDifficulty b.gasUsed = true)
      (null : s.lastBlockNumber = c_invalidNumber)
      (detached : Detached c s (s.importBlock c h mustBeNew valid) h b nonces)
  | extended {b : Block} {nonces : Address → ℕ} {k : ℕ}
      (check : s.checkImport c h mustBeNew valid =
        some (b, (s.detailsOver b).totalDifficulty, nonces))
      (best : s.isBest c (s.detailsOver b).totalDifficulty b.gasUsed = true)
      (null : s.lastBlockNumber ≠ c_invalidNumber)
      (extended : Extended c s (s.importBlock c h mustBeNew valid) h b nonces k)

theorem Sound.imported_cases (hs : Sound c s) (hh : Headed s) (h : H256) (mustBeNew valid : Bool) :
    Imported c s h mustBeNew valid := by
  cases hc : s.checkImport c h mustBeNew valid with
  | none => exact .refused hc (by rw [importBlock, hc])
  | some r =>
      obtain ⟨b, td, nonces⟩ := r
      obtain ⟨ha, rfl⟩ := hs.of_checkImport hc
      have himport : s.importBlock c h mustBeNew valid =
          s.insertBlockAndExtras c h b (s.detailsOver b).totalDifficulty nonces := by
        rw [importBlock, hc]
      cases hbest : s.isBest c (s.detailsOver b).totalDifficulty b.gasUsed with
      | false =>
          have hsame : s.importBlock c h mustBeNew valid =
              s.commit h b (s.detailsOver b).totalDifficulty nonces := by
            rw [himport, insertBlockAndExtras, hbest]
            rfl
          exact .aside hc hbest ⟨ha, by rw [hsame]; rfl, by rw [hsame]; rfl⟩ hsame
      | true =>
          by_cases hnull : s.lastBlockNumber = c_invalidNumber
          · exact .detached hc hbest hnull (himport ▸ hs.detached hh hnull ha hbest)
          · obtain ⟨k, e⟩ := hs.extended hh hnull ha hbest
            exact .extended hc hbest hnull (himport ▸ e)

/-- Only the details and the states decide whether a chain is sound. -/
theorem Sound.congr (hs : Sound c s) (hd : s'.details? = s.details?) (hn : s'.nonces = s.nonces) :
    Sound c s' := by
  cases s'
  cases s
  subst hd hn
  refine ⟨hs.genesis, fun x d hd hne => ?_⟩
  obtain ⟨b, hover, ha⟩ := hs.imported x d hd hne
  exact ⟨b, hover, ha.block, ha.parent, ha.number, ha.bounded, ha.enacted⟩

theorem Headed.congr (hh : Headed s) (hd : s'.details? = s.details?)
    (hl : s'.lastBlockHash = s.lastBlockHash) (hn : s'.lastBlockNumber = s.lastBlockNumber) :
    Headed s' := by
  cases s'
  cases s
  subst hd hl hn
  exact ⟨hh.known, hh.number⟩

theorem ancestor_congr (hd : s'.details? = s.details?) (x : H256) (n : ℕ) :
    s'.ancestor x n = s.ancestor x n := by
  cases s'
  cases s
  subst hd
  rfl

/-- A lower head on the chain. -/
theorem Sound.headed_lower (hs : Sound c s) (hh : Headed s) {n : ℕ} (hn : n < s.lastBlockNumber)
    (hd : s'.details? = s.details?) (hl : s'.lastBlockHash = s.ancestor s.lastBlockHash n)
    (hln : s'.lastBlockNumber = n) : Headed s' := by
  have hnumber : s'.number = s.number := by
    funext x
    rw [number, number, details, details, hd]
  refine ⟨?_, ?_⟩
  · rw [Known, hl, hd]
    exact hs.rooted.known_ancestor hh.known
  · rw [hl, hln, hnumber]
    exact hs.rooted.height_ancestor hh.known (by rw [hh.number]; omega)

theorem Sound.ancestor_lower (hs : Sound c s) (hh : Headed s) {m n : ℕ}
    (hn : n < s.lastBlockNumber) (hm : m ≤ n) :
    s.ancestor (s.ancestor s.lastBlockHash n) m = s.ancestor s.lastBlockHash m :=
  hs.rooted.ancestor_ancestor hh.known hm (by rw [hh.number]; omega)

end CppSwc.BlockChain
