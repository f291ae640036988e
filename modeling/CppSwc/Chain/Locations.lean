import CppSwc.Chain.NumberIndex

/-!
# Transaction locations

`transactionLocation` gives the block of the chain that holds a transaction, unless one
of the two caches holds the transaction, or another one of the sender with the nonce, at
another place.  Both are filled by lookups of blocks that leave the chain later.  A
reversion clears the cache by hash and not the one by account, and an import over the
head clears neither.

Executed transactions of one sender have increasing nonces along a chain, so that its
transactions have different accounts.  Transactions without a signature are the exception.
-/

namespace CppSwc.BlockChain

open Lib

variable {c : Blocks} {s s' : BlockChain} {h x : H256} {b : Block} {nonces nonces' : Address → ℕ}
  {a : Address} {tx tx' : H256} {txs : List H256}

/-- `tx` is the transaction of a block at an index. -/
def Holds (c : Blocks) (x : H256) (i : ℕ) (tx : H256) : Prop :=
  ∃ b, c.block x = some b ∧ b.transactions[i]? = some tx

/-- Lookups by hash and by account find every transaction of the chain. -/
def LocationsFollow (c : Blocks) (s : BlockChain) : Prop :=
  ∀ n ≤ s.lastBlockNumber, ∀ i tx, Holds c (s.ancestor s.lastBlockHash n) i tx →
    (s.transactionLocation tx).1 = (s.ancestor s.lastBlockHash n, i) ∧
      (s.accountLocation (c.sender tx) (c.nonce tx)).1 = (s.ancestor s.lastBlockHash n, i)

/-- The block at a height of the chain of a new head is on the chain already. -/
def Kept (s : BlockChain) (h : H256) (b : Block) (n : ℕ) : Prop :=
  n ≤ s.lastBlockNumber ∧ s.ancestor s.lastBlockHash n = s.chainOver h b n

/-- For the transactions of the blocks that come onto the chain: if the head is extended,
the cache by hash does not hold them elsewhere, the cache by account does not hold their
sender and nonce elsewhere, and a transaction without a signature has its nonce for
itself. -/
def FreshOpen (c : Blocks) (s : BlockChain) (h : H256) (b : Block) : Prop :=
  ∀ n ≤ b.number, ¬s.Kept h b n → ∀ i tx, Holds c (s.chainOver h b n) i tx →
    (s.chainOver h b s.lastBlockNumber = s.lastBlockHash →
      Cache.Open s.transactionAddresses tx ⟨s.chainOver h b n, i⟩) ∧
    Cache.Open s.accountsIndexAddress (account c tx) ⟨s.chainOver h b n, i⟩ ∧
    (c.sender tx = MaxAddress → ∀ m ≤ b.number, ∀ j tx',
      Holds c (s.chainOver h b m) j tx' → account c tx' = account c tx → m = n ∧ j = i)

/-- The condition on a step: a new head finds the caches open, and does not follow a block
whose number stands for missing details.  A rewind ends on the chain. -/
def LocationsOpen (c : Blocks) (s : BlockChain) : Op → Prop
  | .importBlock h mustBeNew valid =>
      match s.checkImport c h mustBeNew valid with
      | none => True
      | some (b, td, _) => s.isBest c td b.gasUsed = true →
          s.lastBlockNumber ≠ c_invalidNumber ∧ s.FreshOpen c h b
  | .rewind newHead => newHead < s.lastBlockNumber →
      (s.rewind c newHead).lastBlockHash = s.ancestor s.lastBlockHash newHead
  | _ => True

/-! ## Nonces along a chain -/

/-- What one transaction does to the nonce of a sender. -/
theorem enact_cons (he : enact c b (tx :: txs) nonces = some nonces') :
    ∃ nonces₁, enact c b txs nonces₁ = some nonces' ∧ ∀ a, a ≠ MaxAddress →
      nonces a ≤ nonces₁ a ∧
      (c.sender tx = a → c.nonce tx = nonces a ∧ nonces a < nonces₁ a) := by
  rw [enact] at he
  split at he
  · next hzero =>
      have hmax := c.sender_of_zeroSignature tx hzero
      split at he
      · cases he
      · exact ⟨nonces, he, fun a ha =>
          ⟨le_rfl, fun hsender => absurd (hsender.symm.trans hmax) ha⟩⟩
  split at he
  · cases he
  next hnonce =>
  rw [ne_eq, not_not] at hnonce
  split at he
  · refine ⟨_, he, fun a _ => ?_⟩
    by_cases hsender : a = c.sender tx
    · subst hsender
      rw [Function.update_self]
      exact ⟨Nat.le_succ _, fun _ => ⟨hnonce, Nat.lt_succ_self _⟩⟩
    · rw [Function.update_of_ne hsender]
      exact ⟨le_rfl, fun heq => absurd heq.symm hsender⟩
  · next hmax =>
      rw [not_or, ne_eq, not_not] at hmax
      exact ⟨nonces, he, fun a ha =>
        ⟨le_rfl, fun hsender => absurd (hsender.symm.trans hmax.1) ha⟩⟩

/-- Nonces grow. -/
theorem enact_mono (he : enact c b txs nonces = some nonces') (ha : a ≠ MaxAddress) :
    nonces a ≤ nonces' a := by
  induction txs generalizing nonces with
  | nil =>
      cases he
      exact le_rfl
  | cons tx txs ih =>
      obtain ⟨nonces₁, hrest, hstep⟩ := enact_cons he
      exact (hstep a ha).1.trans (ih hrest)

/-- The nonces of a block lie between those before and after it. -/
theorem enact_bounds (he : enact c b txs nonces = some nonces') (ha : a ≠ MaxAddress) {i : ℕ}
    (htx : txs[i]? = some tx) (hsender : c.sender tx = a) :
    nonces a ≤ c.nonce tx ∧ c.nonce tx < nonces' a := by
  induction txs generalizing nonces i with
  | nil => cases htx
  | cons tx₀ txs ih =>
      obtain ⟨nonces₁, hrest, hstep⟩ := enact_cons he
      obtain ⟨hle, hown⟩ := hstep a ha
      cases i with
      | zero =>
          rw [List.getElem?_cons_zero, Option.some_inj] at htx
          subst htx
          obtain ⟨hnonce, hlt⟩ := hown hsender
          exact ⟨hnonce.ge, hnonce.trans_lt (hlt.trans_le (enact_mono hrest ha))⟩
      | succ i =>
          obtain ⟨hlow, hhigh⟩ := ih hrest htx
          exact ⟨hle.trans hlow, hhigh⟩

/-- The nonces of one sender increase in a block. -/
theorem enact_strict (he : enact c b txs nonces = some nonces') (ha : a ≠ MaxAddress) {i j : ℕ}
    (hij : i < j) (htx : txs[i]? = some tx) (htx' : txs[j]? = some tx')
    (hsender : c.sender tx = a) (hsender' : c.sender tx' = a) : c.nonce tx < c.nonce tx' := by
  induction txs generalizing nonces i j with
  | nil => cases htx
  | cons tx₀ txs ih =>
      obtain ⟨nonces₁, hrest, hstep⟩ := enact_cons he
      cases j with
      | zero => omega
      | succ j =>
          cases i with
          | zero =>
              rw [List.getElem?_cons_zero, Option.some_inj] at htx
              subst htx
              obtain ⟨hnonce, hlt⟩ := (hstep a ha).2 hsender
              exact hnonce.trans_lt (hlt.trans_le (enact_bounds hrest ha htx' hsender').1)
          | succ i => exact ih hrest (Nat.lt_of_succ_lt_succ hij) htx htx'

/-- The nonces grow along a chain. -/
theorem Sound.nonces_mono (hs : Sound c s) (hx : s.Known x) (ha : a ≠ MaxAddress) {m n : ℕ}
    (hmn : m ≤ n) (hn : n ≤ s.number x) :
    s.nonces (s.ancestor x m) a ≤ s.nonces (s.ancestor x n) a := by
  induction n, hmn using Nat.le_induction with
  | base => exact le_rfl
  | succ n hmn ih =>
      refine (ih (by omega)).trans ?_
      obtain ⟨b, ha', hparent⟩ := hs.accepted_ancestor hx hn
      rw [← hparent]
      exact enact_mono ha'.enacted ha

/-- The nonces of a transaction of the chain lie between those before and after its block. -/
theorem Sound.holds_bounds (hs : Sound c s) (hx : s.Known x) {n i : ℕ} (hn : n ≤ s.number x)
    (hat : Holds c (s.ancestor x n) i tx) :
    0 < n ∧ ∃ b, b.transactions[i]? = some tx ∧ c.block (s.ancestor x n) = some b ∧
      enact c b b.transactions (s.nonces (s.ancestor x (n - 1))) =
        some (s.nonces (s.ancestor x n)) := by
  obtain ⟨b, hb, htx⟩ := hat
  cases n with
  | zero =>
      have hroot : s.ancestor x 0 = c.genesisHash := hs.rooted.ancestor_zero hx
      rw [hroot, c.block_genesis, Option.some_inj] at hb
      rw [← hb, c.genesis_transactions] at htx
      cases htx
  | succ n =>
      obtain ⟨b', hacc, hparent⟩ := hs.accepted_ancestor hx hn
      obtain rfl : b = b' := Option.some_inj.mp (hb.symm.trans hacc.block)
      exact ⟨Nat.succ_pos n, b, htx, hb, by rw [Nat.add_sub_cancel, ← hparent]; exact hacc.enacted⟩

/-- Along a chain, later transactions of one sender have larger nonces. -/
theorem Sound.nonce_lt (hs : Sound c s) (hx : s.Known x) {m n i j : ℕ} (hn : n ≤ s.number x)
    (hlt : m < n ∨ m = n ∧ i < j) (hat : Holds c (s.ancestor x m) i tx)
    (hat' : Holds c (s.ancestor x n) j tx') (hsender : c.sender tx = c.sender tx')
    (hmax : c.sender tx ≠ MaxAddress) : c.nonce tx < c.nonce tx' := by
  obtain ⟨h0, b, htx, hb, henact⟩ := hs.holds_bounds hx (by omega) hat
  obtain ⟨h0', b', htx', hb', henact'⟩ := hs.holds_bounds hx hn hat'
  rcases hlt with hlt | ⟨rfl, hij⟩
  · have hhigh := (enact_bounds henact hmax htx rfl).2
    have hlow := (enact_bounds henact' hmax htx' hsender.symm).1
    exact hhigh.trans_le ((hs.nonces_mono hx hmax (by omega) (by omega)).trans hlow)
  · obtain rfl : b = b' := Option.some_inj.mp (hb.symm.trans hb')
    exact enact_strict henact hmax hij htx htx' rfl hsender.symm

/-- A signed transaction has its account for itself. -/
theorem Sound.account_unique (hs : Sound c s) (hx : s.Known x) {m n i j : ℕ}
    (hm : m ≤ s.number x) (hn : n ≤ s.number x) (hat : Holds c (s.ancestor x m) i tx)
    (hat' : Holds c (s.ancestor x n) j tx') (haccount : account c tx = account c tx')
    (hmax : c.sender tx ≠ MaxAddress) : m = n ∧ i = j := by
  obtain ⟨hsender, hnonce⟩ := Prod.mk.inj haccount
  by_contra hne
  rcases lt_or_ge m n with hlt | hge
  · exact (hs.nonce_lt hx hn (.inl hlt) hat hat' hsender hmax).ne hnonce
  rcases lt_or_eq_of_le hge with hgt | rfl
  · exact (hs.nonce_lt hx hm (.inl hgt) hat' hat hsender.symm (hsender ▸ hmax)).ne hnonce.symm
  rcases lt_trichotomy i j with hij | rfl | hji
  · exact (hs.nonce_lt hx hn (.inr ⟨rfl, hij⟩) hat hat' hsender hmax).ne hnonce
  · exact hne ⟨rfl, rfl⟩
  · exact (hs.nonce_lt hx hm (.inr ⟨rfl, hji⟩) hat' hat hsender.symm (hsender ▸ hmax)).ne
      hnonce.symm

/-! ## The two tables -/

/-- What holds along a run that meets the condition. -/
structure Located (c : Blocks) (s : BlockChain) : Prop where
  sound : Sound c s
  head : Headed s
  unique : ∀ m ≤ s.lastBlockNumber, ∀ n ≤ s.lastBlockNumber, ∀ i j tx tx',
    Holds c (s.ancestor s.lastBlockHash m) i tx → Holds c (s.ancestor s.lastBlockHash n) j tx' →
    account c tx = account c tx' → m = n ∧ i = j
  fits : ∀ n ≤ s.lastBlockNumber, ∀ i tx, Holds c (s.ancestor s.lastBlockHash n) i tx →
    Cache.Fits s.transactionAddresses s.extraTransactionAddress tx
        ⟨s.ancestor s.lastBlockHash n, i⟩ ∧
      Cache.Fits s.accountsIndexAddress s.extraAccountsIndexAddress (account c tx)
        ⟨s.ancestor s.lastBlockHash n, i⟩

theorem location_some {ta : TransactionAddress} (h : ta.blockHash ≠ 0) :
    location (some ta) = (ta.blockHash, ta.index) := by
  rw [location, if_neg h]

theorem transactionLocation_eq (s : BlockChain) (tx : H256) :
    ∃ usage, s.transactionLocation tx =
      (location (Cache.lookup s.transactionAddresses s.extraTransactionAddress tx),
        { s with
          transactionAddresses :=
            Cache.load s.transactionAddresses s.extraTransactionAddress tx
          cacheUsage := usage }) := by
  unfold transactionLocation
  cases hc : s.transactionAddresses tx with
  | some ta =>
      rw [Cache.load_of_hit hc, Cache.lookup_of_hit hc]
      exact ⟨s.cacheUsage, rfl⟩
  | none =>
      cases ht : s.extraTransactionAddress tx with
      | none =>
          rw [Cache.load_of_miss hc ht, Cache.lookup_of_none hc, ht]
          exact ⟨s.cacheUsage, rfl⟩
      | some ta =>
          rw [Cache.load_of_none hc ht, Cache.lookup_of_none hc, ht]
          exact ⟨_, rfl⟩

theorem accountLocation_eq (s : BlockChain) (sender : Address) (nonce : ℕ) :
    ∃ usage, s.accountLocation sender nonce =
      (location (Cache.lookup s.accountsIndexAddress s.extraAccountsIndexAddress (sender, nonce)),
        { s with
          accountsIndexAddress :=
            Cache.load s.accountsIndexAddress s.extraAccountsIndexAddress (sender, nonce)
          cacheUsage := usage }) := by
  unfold accountLocation
  cases hc : s.accountsIndexAddress (sender, nonce) with
  | some ta =>
      rw [Cache.load_of_hit hc, Cache.lookup_of_hit hc]
      exact ⟨s.cacheUsage, rfl⟩
  | none =>
      cases ht : s.extraAccountsIndexAddress (sender, nonce) with
      | none =>
          rw [Cache.load_of_miss hc ht, Cache.lookup_of_none hc, ht]
          exact ⟨s.cacheUsage, rfl⟩
      | some ta =>
          rw [Cache.load_of_none hc ht, Cache.lookup_of_none hc, ht]
          exact ⟨_, rfl⟩

theorem Located.locationsFollow (l : Located c s) : LocationsFollow c s := by
  intro n hn i tx hat
  have hne : s.ancestor s.lastBlockHash n ≠ 0 :=
    l.sound.ne_zero (l.sound.rooted.known_ancestor l.head.known)
  obtain ⟨htx, haccount⟩ := l.fits n hn i tx hat
  obtain ⟨_, htl⟩ := transactionLocation_eq s tx
  obtain ⟨_, hal⟩ := accountLocation_eq s (c.sender tx) (c.nonce tx)
  rw [htl, hal, htx.lookup_eq, ← account, haccount.lookup_eq, location_some hne]
  exact ⟨rfl, rfl⟩

theorem id_account {tx tx' : H256} (h : id tx = id tx') : account c tx = account c tx' :=
  congrArg (account c) h

/-- The entries of the new chain, in one of the two tables. -/
theorem Extended.fits {κ : Type} [DecidableEq κ] {key : H256 → κ} {k n i : ℕ}
    {cache table table' : κ → Option TransactionAddress}
    (e : Extended c s s' h b nonces k) (l : Located c s)
    (hkey : ∀ {tx tx'}, key tx = key tx' → account c tx = account c tx')
    (htable : table' = Cache.write table (locations c key (s.fresh h b.parentHash k)))
    (hunique : ∀ m ≤ b.number, ∀ j tx', Holds c (s'.ancestor h m) j tx' →
      account c tx' = account c tx → m = n ∧ j = i)
    (hn : n ≤ b.number) (hat : Holds c (s'.ancestor h n) i tx)
    (hopen : Cache.Open cache (key tx) ⟨s'.ancestor h n, i⟩)
    (hold : n ≤ k → table (key tx) = some ⟨s'.ancestor h n, i⟩) :
    Cache.Fits cache table' (key tx) ⟨s'.ancestor h n, i⟩ := by
  refine ⟨?_, hopen⟩
  have hwritten : ∀ ta, (key tx, ta) ∈ locations c key (s.fresh h b.parentHash k) →
      k < n ∧ ta = ⟨s'.ancestor h n, i⟩ := by
    rintro ⟨y, j⟩ hta
    obtain ⟨hfresh, b', tx', hb', htx', htxkey⟩ := mem_locations.mp hta
    obtain ⟨m, hk, hm, hy⟩ := (e.mem_fresh l.sound).mp hfresh
    obtain rfl : s'.ancestor h m = y := hy
    obtain ⟨rfl, rfl⟩ := hunique m hm j tx' ⟨b', hb', htx'⟩ (hkey htxkey)
    exact ⟨hk, rfl⟩
  rw [htable]
  by_cases hk : k < n
  · refine Cache.write_of_mem (mem_locations.mpr ?_) fun ta hta => (hwritten ta hta).2
    obtain ⟨b', hb', htx⟩ := hat
    exact ⟨(e.mem_fresh l.sound).mpr ⟨n, hk, hn, rfl⟩, b', tx, hb', htx, rfl⟩
  · rw [Cache.write_of_notMem fun ta hta => hk (hwritten ta hta).1]
    exact hold (by omega)

section Extended

variable {k : ℕ}

/-- If nothing is reverted, the head is extended. -/
theorem Extended.chainOver_last (e : Extended c s s' h b nonces k) (hh : Headed s)
    (hk : k = s.lastBlockNumber) : s.chainOver h b s.lastBlockNumber = s.lastBlockHash := by
  have hlt := e.lt_new
  rw [chainOver, if_neg (by omega), ← hk, ← e.common, hk, ← hh.number]
  exact Lib.ancestor_self _ _ _

theorem Located.unique_extended (l : Located c s) (e : Extended c s s' h b nonces k)
    (hopen : s.FreshOpen c h b) {m n i j : ℕ} (hm : m ≤ b.number) (hn : n ≤ b.number)
    (hat : Holds c (s'.ancestor h m) i tx) (hat' : Holds c (s'.ancestor h n) j tx')
    (haccount : account c tx = account c tx') : m = n ∧ i = j := by
  by_cases hmax : c.sender tx = MaxAddress
  · have hmax' : c.sender tx' = MaxAddress := (Prod.mk.inj haccount).1 ▸ hmax
    rw [e.ancestor_eq_chainOver l.sound hm] at hat
    rw [e.ancestor_eq_chainOver l.sound hn] at hat'
    by_cases hkm : s.Kept h b m
    · by_cases hkn : s.Kept h b n
      · exact l.unique m hkm.1 n hkn.1 i j tx tx' (hkm.2 ▸ hat) (hkn.2 ▸ hat') haccount
      · exact (hopen n hn hkn j tx' hat').2.2 hmax' m hm i tx hat haccount
    · obtain ⟨hnm, hji⟩ := (hopen m hm hkm i tx hat).2.2 hmax n hn j tx' hat' haccount.symm
      exact ⟨hnm.symm, hji.symm⟩
  · exact (e.sound l.sound).account_unique e.known_self (e.self.1.symm ▸ hm)
      (e.self.1.symm ▸ hn) hat hat' haccount hmax

/-- A new head keeps the tables if the caches are open for what comes onto the chain. -/
theorem Located.extended (l : Located c s) (e : Extended c s s' h b nonces k)
    (hopen : s.FreshOpen c h b) : Located c s' where
  sound := e.sound l.sound
  head := ⟨e.lastBlockHash ▸ e.known_self,
    by rw [e.lastBlockHash, e.lastBlockNumber, e.self.1]⟩
  unique := by
    rw [e.lastBlockHash, e.lastBlockNumber]
    exact fun m hm n hn i j tx tx' => l.unique_extended e hopen hm hn
  fits := by
    intro n hn i tx hat
    rw [e.lastBlockNumber] at hn
    rw [e.lastBlockHash] at hat ⊢
    have hunique : ∀ m ≤ b.number, ∀ j tx', Holds c (s'.ancestor h m) j tx' →
        account c tx' = account c tx → m = n ∧ j = i := fun m hm j tx' hat' haccount =>
      l.unique_extended e hopen hm hn hat' hat haccount
    have hchain := e.ancestor_eq_chainOver l.sound hn
    by_cases hkept : s.Kept h b n
    · have hsame : s'.ancestor h n = s.ancestor s.lastBlockHash n := hchain.trans hkept.2.symm
      obtain ⟨htx, haccount⟩ := l.fits n hkept.1 i tx (hsame ▸ hat)
      rw [← hsame] at htx haccount
      refine ⟨e.fits l id_account e.extraTransactionAddress hunique hn hat ?_ fun _ => htx.1,
        e.fits l id e.extraAccountsIndexAddress hunique hn hat ?_ fun _ => haccount.1⟩
      · refine htx.2.evict ?_
        rw [e.transactionAddresses]
        exact ite_eq_or_eq _ _ _
      · rw [e.accountsIndexAddress]
        exact haccount.2
    · have hk : ¬n ≤ k := by
        intro hle
        exact hkept ⟨hle.trans e.le_last,
          (e.ancestor_of_le l.sound l.head hle).symm.trans hchain⟩
      obtain ⟨htx, haccount, -⟩ := hopen n hn hkept i tx (hchain ▸ hat)
      rw [← hchain] at htx haccount
      refine ⟨e.fits l id_account e.extraTransactionAddress hunique hn hat ?_
          fun hle => absurd hle hk,
        e.fits l id e.extraAccountsIndexAddress hunique hn hat ?_ fun hle => absurd hle hk⟩
      · by_cases hlt : k < s.lastBlockNumber
        · exact .inl (by rw [e.transactionAddresses, if_pos hlt])
        · have hlast : k = s.lastBlockNumber := le_antisymm e.le_last (not_lt.mp hlt)
          exact (htx (e.chainOver_last l.head hlast)).evict
            (.inr (by rw [e.transactionAddresses, if_neg hlt]))
      · rw [e.accountsIndexAddress]
        exact haccount

end Extended

/-! ## Runs -/

/-- The invariant reads the blocks, the head and the two tables. -/
theorem Located.congr (l : Located c s) (hd : s'.details? = s.details?)
    (hn : s'.nonces = s.nonces) (hl : s'.lastBlockHash = s.lastBlockHash)
    (hln : s'.lastBlockNumber = s.lastBlockNumber)
    (htx : ∀ tx ta, Cache.Fits s.transactionAddresses s.extraTransactionAddress tx ta →
      Cache.Fits s'.transactionAddresses s'.extraTransactionAddress tx ta)
    (haccount : ∀ k ta, Cache.Fits s.accountsIndexAddress s.extraAccountsIndexAddress k ta →
      Cache.Fits s'.accountsIndexAddress s'.extraAccountsIndexAddress k ta) : Located c s' where
  sound := l.sound.congr hd hn
  head := l.head.congr hd hl hln
  unique := by
    rw [hl, hln]
    simp only [ancestor_congr hd]
    exact l.unique
  fits := by
    rw [hl, hln]
    simp only [ancestor_congr hd]
    exact fun n hn i tx hat =>
      ⟨htx _ _ (l.fits n hn i tx hat).1, haccount _ _ (l.fits n hn i tx hat).2⟩

/-- A block that does not become the head. -/
theorem Located.inserted (l : Located c s) (e : Inserted c s s' h b nonces)
    (hl : s'.lastBlockHash = s.lastBlockHash) (hln : s'.lastBlockNumber = s.lastBlockNumber)
    (htx : s'.transactionAddresses = s.transactionAddresses)
    (hextra : s'.extraTransactionAddress = s.extraTransactionAddress)
    (haccount : s'.accountsIndexAddress = s.accountsIndexAddress)
    (hextra' : s'.extraAccountsIndexAddress = s.extraAccountsIndexAddress) : Located c s' where
  sound := e.sound l.sound
  head := ⟨hl ▸ e.known l.sound l.head.known,
    by rw [hl, hln, (e.agree l.sound _ l.head.known).2, l.head.number]⟩
  unique := by
    rw [hl, hln]
    simp only [e.ancestor_eq l.sound l.head.known]
    exact l.unique
  fits := by
    rw [hl, hln, htx, hextra, haccount, hextra']
    simp only [e.ancestor_eq l.sound l.head.known]
    exact l.fits

/-- A lower head on the chain. -/
theorem Located.lower (l : Located c s) {n : ℕ} (hn : n < s.lastBlockNumber)
    (hd : s'.details? = s.details?) (hnonces : s'.nonces = s.nonces)
    (hl : s'.lastBlockHash = s.ancestor s.lastBlockHash n) (hln : s'.lastBlockNumber = n)
    (htx : ∀ tx ta, Cache.Fits s.transactionAddresses s.extraTransactionAddress tx ta →
      Cache.Fits s'.transactionAddresses s'.extraTransactionAddress tx ta)
    (haccount : ∀ k ta, Cache.Fits s.accountsIndexAddress s.extraAccountsIndexAddress k ta →
      Cache.Fits s'.accountsIndexAddress s'.extraAccountsIndexAddress k ta) : Located c s' where
  sound := l.sound.congr hd hnonces
  head := l.sound.headed_lower l.head hn hd hl hln
  unique := by
    rw [hl, hln]
    intro m hm m' hm' i j tx tx'
    simp only [ancestor_congr hd, l.sound.ancestor_lower l.head hn hm,
      l.sound.ancestor_lower l.head hn hm']
    exact l.unique m (by omega) m' (by omega) i j tx tx'
  fits := by
    rw [hl, hln]
    intro m hm i tx
    simp only [ancestor_congr hd, l.sound.ancestor_lower l.head hn hm]
    exact fun hat =>
      ⟨htx _ _ (l.fits m (by omega) i tx hat).1, haccount _ _ (l.fits m (by omega) i tx hat).2⟩

/-- A rewind clears the cache by hash and no table. -/
theorem rewind_eq {n : ℕ} (hn : n < s.lastBlockNumber) :
    ∃ f x, s.rewind c n = { s with
      blockHashes := f, transactionAddresses := fun _ => none
      lastBlockHash := x, lastBlockNumber := n } := by
  rw [rewind, if_neg (not_le.mpr hn)]
  by_cases h0 : n = 0
  · subst h0
    exact ⟨_, _, rfl⟩
  · rw [numberHash_eq h0]
    exact ⟨_, _, rfl⟩

/-- An operation keeps the invariant if it meets the condition. -/
theorem Located.next (l : Located c s) {op : Op} (hopen : LocationsOpen c s op) :
    Located c (s.next c op) := by
  cases op with
  | importBlock h mustBeNew valid =>
      simp only [BlockChain.next]
      cases l.sound.imported_cases l.head h mustBeNew valid with
      | refused _ same => rwa [same]
      | aside _ _ inserted same =>
          rw [same] at inserted ⊢
          exact l.inserted inserted rfl rfl rfl rfl rfl rfl
      | detached check best null _ =>
          simp only [LocationsOpen, check] at hopen
          exact absurd null (hopen best).1
      | extended check best null extended =>
          simp only [LocationsOpen, check] at hopen
          exact l.extended extended (hopen best).2
  | rewind newHead =>
      simp only [BlockChain.next]
      by_cases hle : s.lastBlockNumber ≤ newHead
      · rwa [rewind, if_pos hle]
      · have hend := hopen (not_le.mp hle)
        obtain ⟨f, x, hrewind⟩ := rewind_eq (c := c) (not_le.mp hle)
        rw [hrewind] at hend ⊢
        refine l.lower (not_le.mp hle) rfl rfl hend rfl (fun tx ta hfits => ?_)
          fun _ _ hfits => hfits
        exact ⟨hfits.1, .inl rfl⟩
  | numberHash n =>
      simp only [BlockChain.next]
      by_cases h0 : n = 0
      · subst h0
        exact l
      · rw [numberHash_eq h0]
        exact l.congr rfl rfl rfl rfl (fun _ _ hfits => hfits) fun _ _ hfits => hfits
  | transactionLocation tx =>
      simp only [BlockChain.next]
      obtain ⟨usage, htl⟩ := transactionLocation_eq s tx
      rw [htl]
      exact l.congr rfl rfl rfl rfl (fun _ _ hfits => hfits.load tx) fun _ _ hfits => hfits
  | accountLocation sender nonce =>
      simp only [BlockChain.next]
      obtain ⟨usage, hal⟩ := accountLocation_eq s sender nonce
      rw [hal]
      exact l.congr rfl rfl rfl rfl (fun _ _ hfits => hfits) fun _ _ hfits => hfits.load _
  | garbageCollect =>
      simp only [BlockChain.next, BlockChain.garbageCollect]
      obtain ⟨f, hf, hdrop⟩ := foldl_collect_eq (s.cacheUsage.getLastD []) s
      rw [hf]
      refine l.congr rfl rfl rfl rfl (fun tx ta hfits => ?_) fun _ _ hfits => hfits
      exact ⟨hfits.1, hfits.2.evict (hdrop tx)⟩

theorem located_start (c : Blocks) : Located c (start c) where
  sound := (indexed_start c).sound
  head := (indexed_start c).head
  unique := by
    intro m hm n hn i j tx tx' hat
    obtain ⟨h0, -⟩ := (indexed_start c).sound.holds_bounds (indexed_start c).head.known
      ((indexed_start c).head.number.symm ▸ hm) hat
    exact absurd h0 (not_lt.mpr hm)
  fits := by
    intro n hn i tx hat
    obtain ⟨h0, -⟩ := (indexed_start c).sound.holds_bounds (indexed_start c).head.known
      ((indexed_start c).head.number.symm ▸ hn) hat
    exact absurd h0 (not_lt.mpr hn)

/-- **Lookups find the transactions of the chain in every run whose new heads find the
caches open.** -/
theorem locations_follow (c : Blocks) (ops : List Op)
    (hopen : Along (next c) (LocationsOpen c) (start c) ops) :
    ∀ s ∈ trail (next c) id (start c) ops, LocationsFollow c s := by
  intro s hs
  exact (forall_trail_of_along (fun _ _ l hstep => l.next hstep) ops (located_start c) hopen s
    hs).locationsFollow

/-- Two blocks over the genesis block, each with a transaction of one account. -/
def rivals : Blocks :=
  { siblings with
    block := fun h =>
      if h = 1 then some ⟨3, 1, 1, 21000, [10]⟩
      else if h = 2 then some ⟨3, 1, 1, 42000, [11]⟩
      else if h = 3 then some siblings.genesis else none
    sender := fun _ => 7
    sender_of_zeroSignature := fun _ h => absurd h Bool.false_ne_true
    block_zero := by decide
    block_genesis := rfl }

/-- A run with a reversion, where the account was not looked up before. -/
theorem locations_follow_reversion :
    LocationsFollow rivals ([.importBlock 1 true true, .transactionLocation 10,
      .importBlock 2 true true, .garbageCollect, .accountLocation 7 0].foldl (next rivals)
        (start rivals)) := by
  have hmax : (7 : Address) ≠ MaxAddress := by decide
  refine locations_follow rivals [.importBlock 1 true true, .transactionLocation 10,
    .importBlock 2 true true, .garbageCollect, .accountLocation 7 0] ⟨fun _ => ⟨by decide, ?_⟩,
    trivial, fun _ => ⟨by decide +kernel, ?_⟩, trivial, trivial, trivial⟩ _
    (.tail _ (.tail _ (.tail _ (.tail _ (.tail _ (.head _))))))
  · exact fun _ _ _ _ _ _ => ⟨fun _ => .inl rfl, .inl rfl, fun h => absurd h hmax⟩
  · have hreverted : ((start rivals).importBlock rivals 1 true true).chainOver 2
        ⟨3, 1, 1, 42000, [11]⟩ 1 ≠ 1 := by decide +kernel
    exact fun _ _ _ _ _ _ =>
      ⟨fun hlast => absurd hlast hreverted, .inl rfl, fun h => absurd h hmax⟩

/-- The account of a block that has left the chain is still cached. -/
theorem stale_account :
    ¬∀ s ∈ trail (next rivals) id (start rivals)
        [.importBlock 1 true true, .accountLocation 7 0, .importBlock 2 true true],
      LocationsFollow rivals s := by
  intro hall
  have hfollow := hall _ (.tail _ (.tail _ (.tail _ (.head _))))
  have hread := (hfollow 1 (by decide +kernel) 0 11
    ⟨⟨3, 1, 1, 42000, [11]⟩, by decide +kernel, rfl⟩).2
  revert hread
  decide +kernel

end CppSwc.BlockChain
