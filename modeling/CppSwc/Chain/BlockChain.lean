import CppSwc.Core.Common
import CppSwc.Lib.Forest
import Mathlib.Logic.Function.Basic

/-!
# The block chain

`BlockChain` of libethereum: the details of every block, the number index and the two
tables of transaction locations, each a cache over the extras database, and the head.

Hashes are ideal, so a hash stands for its content: `Blocks` says which block has which
hash, and who signed which transaction.  The details of a hash never change apart from
its children, and so the table and its cache are one.  Children, blooms and receipts are
left out.  Of the checks on an imported block those on its number and on the nonces of
its transactions are kept, and `valid` answers for the others.
-/

namespace CppSwc

namespace BlockChain

/-- What is read of a block. -/
structure Block where
  parentHash : H256
  /-- `BlockHeader::number`. -/
  number : ℕ
  difficulty : U256
  gasUsed : U256
  /-- The hashes of its transactions. -/
  transactions : List H256
deriving DecidableEq

/-- `MaxAddress`, the sender of every transaction with a zero signature. -/
def MaxAddress : Address := BitVec.allOnes 160

/-- The contents of hashes, and the chain parameters. -/
structure Blocks where
  /-- The block of a hash. -/
  block : H256 → Option Block
  /-- `Transaction::sender`. -/
  sender : H256 → Address
  /-- `Transaction::nonce`. -/
  nonce : H256 → ℕ
  /-- `Transaction::hasZeroSignature`. -/
  hasZeroSignature : H256 → Bool
  genesisHash : H256
  genesis : Block
  /-- The nonces of the genesis state. -/
  genesisNonces : Address → ℕ
  tieBreakingGas : Bool
  constantinopleForkBlock : ℕ
  sender_of_zeroSignature : ∀ tx, hasZeroSignature tx = true → sender tx = MaxAddress
  block_zero : block 0 = none
  block_genesis : block genesisHash = some genesis
  genesis_number : genesis.number = 0
  genesis_transactions : genesis.transactions = []

/-- `c_invalidNumber`. -/
def c_invalidNumber : ℕ := 2 ^ 32 - 1

/-- `BlockDetails`. -/
structure BlockDetails where
  number : ℕ := c_invalidNumber
  totalDifficulty : U256 := BitVec.allOnes 256
  parent : H256 := 0

namespace BlockDetails

/-- `isNull`. -/
def isNull (d : BlockDetails) : Bool := d.number == c_invalidNumber

end BlockDetails

/-- `TransactionAddress`. -/
structure TransactionAddress where
  blockHash : H256
  index : ℕ
deriving DecidableEq

/-- `CacheID`, of the two caches of transaction locations. -/
inductive CacheID where
  | transactionAddress (hash : H256)
  | accountsIndexAddress (sender : Address) (nonce : ℕ)
deriving DecidableEq

end BlockChain

open BlockChain in
/-- `BlockChain`.  The tables of the extras database are named after their kind, the
caches as in the class. -/
structure BlockChain where
  details? : H256 → Option BlockDetails
  /-- The nonces in the state after each block. -/
  nonces : H256 → Address → ℕ
  extraBlockHash : ℕ → Option H256 := fun _ => none
  extraTransactionAddress : H256 → Option TransactionAddress := fun _ => none
  extraAccountsIndexAddress : Address × ℕ → Option TransactionAddress := fun _ => none
  blockHashes : ℕ → Option H256 := fun _ => none
  transactionAddresses : H256 → Option TransactionAddress := fun _ => none
  accountsIndexAddress : Address × ℕ → Option TransactionAddress := fun _ => none
  /-- `m_cacheUsage`, the newest generation first. -/
  cacheUsage : List (List CacheID) := List.replicate 20 []
  lastBlockHash : H256
  lastBlockNumber : ℕ

namespace BlockChain

variable (c : Blocks)

/-- A chain opened on an empty database. -/
def start : BlockChain where
  details? := fun h => if h = c.genesisHash then
    some { number := 0, totalDifficulty := c.genesis.difficulty, parent := 0 } else none
  nonces := fun _ => c.genesisNonces
  lastBlockHash := c.genesisHash
  lastBlockNumber := 0

/-! ## Reading -/

/-- `details`. -/
def details (s : BlockChain) (h : H256) : BlockDetails := (s.details? h).getD {}

/-- `number(h)`. -/
def number (s : BlockChain) (h : H256) : ℕ := (s.details h).number

/-- The parent in the details. -/
def parent (s : BlockChain) (h : H256) : H256 := (s.details h).parent

/-- `isKnown`. -/
def isKnown (s : BlockChain) (h : H256) (isCurrent : Bool) : Bool :=
  h == c.genesisHash ||
    (s.details? h).isSome && (!isCurrent || decide (s.number h ≤ s.lastBlockNumber))

/-- `noteUsed`. -/
def noteUsed (s : BlockChain) (id : CacheID) : BlockChain :=
  { s with cacheUsage := match s.cacheUsage with
      | g₀ :: g₁ :: gs => (g₀.insert id) :: g₁.erase id :: gs
      | gs => gs }

/-- `numberHash`, by `queryExtras` on the block hashes.  Their uses are not noted. -/
def numberHash (s : BlockChain) (n : ℕ) : H256 × BlockChain :=
  if n = 0 then (c.genesisHash, s)
  else match s.blockHashes n with
    | some h => (h, s)
    | none => match s.extraBlockHash n with
        | none => (0, s)
        | some h => (h, { s with blockHashes := Function.update s.blockHashes n (some h) })

/-- What `transactionLocation` makes of what `queryExtras` finds. -/
def location : Option TransactionAddress → H256 × ℕ
  | none => (0, 0)
  | some ta => if ta.blockHash = 0 then (0, 0) else (ta.blockHash, ta.index)

/-- `transactionLocation` by hash. -/
def transactionLocation (s : BlockChain) (tx : H256) : (H256 × ℕ) × BlockChain :=
  match s.transactionAddresses tx with
  | some ta => (location (some ta), s)
  | none => match s.extraTransactionAddress tx with
      | none => (location none, s)
      | some ta =>
          (location (some ta), { s.noteUsed (.transactionAddress tx) with
            transactionAddresses := Function.update s.transactionAddresses tx (some ta) })

/-- `transactionLocation` by sender and nonce. -/
def accountLocation (s : BlockChain) (sender : Address) (nonce : ℕ) :
    (H256 × ℕ) × BlockChain :=
  match s.accountsIndexAddress (sender, nonce) with
  | some ta => (location (some ta), s)
  | none => match s.extraAccountsIndexAddress (sender, nonce) with
      | none => (location none, s)
      | some ta =>
          (location (some ta), { s.noteUsed (.accountsIndexAddress sender nonce) with
            accountsIndexAddress :=
              Function.update s.accountsIndexAddress (sender, nonce) (some ta) })

/-- One round of the loop of `garbageCollect`.  The switch has no case for the account
index. -/
def collect (s : BlockChain) : CacheID → BlockChain
  | .transactionAddress tx =>
      { s with transactionAddresses := Function.update s.transactionAddresses tx none }
  | .accountsIndexAddress _ _ => s

/-- `garbageCollect`, past the checks of the time and of the sizes. -/
def garbageCollect (s : BlockChain) : BlockChain :=
  let s' := (s.cacheUsage.getLastD []).foldl collect s
  { s' with cacheUsage := [] :: s'.cacheUsage.dropLast }

/-! ## Routes -/

/-- The loops of `treeRoute` over one of the blocks: what is passed, and where it ends. -/
def climb (parent : H256 → H256) : ℕ → H256 → List H256 × H256
  | 0, h => ([], h)
  | n + 1, h => (h :: (climb parent n (parent h)).1, (climb parent n (parent h)).2)

/-- The loop over both.  The common block is pushed with the first list.  There is none
where an assertion fails. -/
def meet (parent : H256 → H256) : ℕ → H256 → H256 → Option (List H256 × List H256 × H256)
  | 0, _, _ => none
  | n + 1, a, b =>
      if a = b then some ([a], [], a)
      else if a = 0 ∨ b = 0 then none
      else (meet parent n (parent a) (parent b)).map fun r => (a :: r.1, b :: r.2.1, r.2.2)

/-- `treeRoute`, without the index.  A common ancestor is met before the genesis block is
passed. -/
def treeRoute (s : BlockChain) (a b : H256) : Option (List H256 × H256) :=
  if a = 0 ∨ b = 0 ∨ (s.details a).isNull ∨ (s.details b).isNull then some ([], 0)
  else
    let fn := s.number a
    let tn := s.number b
    let pre := climb s.parent (fn - tn) a
    let post := climb s.parent (tn - fn) b
    (meet s.parent (min fn tn + 1) pre.2 post.2).map fun r =>
      (pre.1 ++ r.1 ++ (post.1 ++ r.2.1).reverse, r.2.2)

/-! ## Writing -/

/-- `clearCachesDuringChainReversion`. -/
def clearCachesDuringChainReversion (s : BlockChain) (firstInvalid : ℕ) : BlockChain :=
  { s with
    blockHashes := fun n =>
      if firstInvalid ≤ n ∧ n < (s.lastBlockNumber + 1) % 2 ^ 32 then none else s.blockHashes n
    transactionAddresses := fun _ => none }

/-- The addresses of the transactions of one block. -/
def writeTransactions (h : H256) : List H256 → ℕ → BlockChain → BlockChain
  | [], _, s => s
  | tx :: txs, i, s =>
      writeTransactions h txs (i + 1) { s with
        extraAccountsIndexAddress := Function.update s.extraAccountsIndexAddress
          (c.sender tx, c.nonce tx) (some ⟨h, i⟩)
        extraTransactionAddress := Function.update s.extraTransactionAddress tx (some ⟨h, i⟩) }

/-- One round of the loop over the route. -/
def writeBlock (s : BlockChain) (h : H256) : BlockChain :=
  match c.block h with
  | none => s
  | some b =>
      let s' := writeTransactions c h b.transactions 0 s
      { s' with extraBlockHash := Function.update s'.extraBlockHash b.number (some h) }

/-- Whether a block of total difficulty `td` becomes the head. -/
def isBest (s : BlockChain) (td : U256) (gasUsed : U256) : Bool :=
  let last := (s.details s.lastBlockHash).totalDifficulty
  decide (last < td) ||
    c.tieBreakingGas && td == last &&
      decide (((c.block s.lastBlockHash).elim 0 Block.gasUsed) < gasUsed)

/-- The branch of `insertBlockAndExtras` for a new head.  The route of the source is read
backwards, from the new head to the common block. -/
def extend (s : BlockChain) (h : H256) (b : Block) (route : List H256) (common : H256) :
    BlockChain :=
  let s₁ := if common ≠ s.lastBlockHash then
    s.clearCachesDuringChainReversion ((s.number common + 1) % 2 ^ 32) else s
  let s₂ := ((route ++ [h]).reverse.takeWhile (· ≠ common)).foldl (writeBlock c) s₁
  { s₂ with lastBlockHash := h, lastBlockNumber := b.number }

/-- The details and the state of a block are committed. -/
def commit (s : BlockChain) (h : H256) (b : Block) (td : U256) (nonces : Address → ℕ) :
    BlockChain :=
  { s with
    details? := Function.update s.details? h
      (some { number := b.number, totalDifficulty := td, parent := b.parentHash })
    nonces := Function.update s.nonces h nonces }

/-- `insertBlockAndExtras`.  The details are committed after the loop over the route, which
does not read them. -/
def insertBlockAndExtras (s : BlockChain) (h : H256) (b : Block) (td : U256)
    (nonces : Address → ℕ) : BlockChain :=
  if s.isBest c td b.gasUsed then
    match s.treeRoute s.lastBlockHash b.parentHash with
    | none => s
    | some (route, common) => (s.extend c h b route common).commit h b td nonces
  else s.commit h b td nonces

/-- What `Executive` does to the nonces: a transaction with a signature has the nonce of
its sender, one without has nonce zero and needs the Constantinople rules, under which
the nonce of `MaxAddress` stays. -/
def enact (b : Block) : List H256 → (Address → ℕ) → Option (Address → ℕ)
  | [], nonces => some nonces
  | tx :: txs, nonces =>
      if c.hasZeroSignature tx then
        if b.number < c.constantinopleForkBlock ∨ c.nonce tx ≠ 0 then none
        else enact b txs nonces
      else if c.nonce tx ≠ nonces (c.sender tx) then none
      else if c.sender tx ≠ MaxAddress ∨ b.number < c.constantinopleForkBlock then
        enact b txs (Function.update nonces (c.sender tx) (nonces (c.sender tx) + 1))
      else enact b txs nonces

/-- The checks of `import`: the block, its total difficulty and the nonces after it. -/
def checkImport (s : BlockChain) (h : H256) (mustBeNew valid : Bool) :
    Option (Block × U256 × (Address → ℕ)) :=
  match c.block h with
  | none => none
  | some b =>
      if mustBeNew && s.isKnown c h true then none
      else if !s.isKnown c b.parentHash false then none
      else if (s.details b.parentHash).isNull then none
      else if !valid || decide (2 ^ 32 ≤ b.number) ||
        b.number != ((c.block b.parentHash).elim 0 Block.number) + 1 then none
      else (enact c b b.transactions (s.nonces b.parentHash)).map fun nonces =>
        (b, (s.details b.parentHash).totalDifficulty + b.difficulty, nonces)

/-- `import`.  A block that is refused leaves the chain as it is, and a parent without
details ends the process. -/
def importBlock (s : BlockChain) (h : H256) (mustBeNew valid : Bool) : BlockChain :=
  match s.checkImport c h mustBeNew valid with
  | none => s
  | some (b, td, nonces) => s.insertBlockAndExtras c h b td nonces

/-- `rewind`. -/
def rewind (s : BlockChain) (newHead : ℕ) : BlockChain :=
  if s.lastBlockNumber ≤ newHead then s
  else
    let r := (s.clearCachesDuringChainReversion ((newHead + 1) % 2 ^ 32)).numberHash c newHead
    { r.2 with lastBlockHash := r.1, lastBlockNumber := newHead }

/-! ## Runs -/

/-- What happens to a chain. -/
inductive Op where
  | importBlock (h : H256) (mustBeNew valid : Bool)
  | rewind (newHead : ℕ)
  | numberHash (n : ℕ)
  | transactionLocation (tx : H256)
  | accountLocation (sender : Address) (nonce : ℕ)
  | garbageCollect

/-- The chain after one operation. -/
def next (s : BlockChain) : Op → BlockChain
  | .importBlock h mustBeNew valid => s.importBlock c h mustBeNew valid
  | .rewind newHead => s.rewind c newHead
  | .numberHash n => (s.numberHash c n).2
  | .transactionLocation tx => (s.transactionLocation tx).2
  | .accountLocation sender nonce => (s.accountLocation sender nonce).2
  | .garbageCollect => s.garbageCollect

end BlockChain

end CppSwc
