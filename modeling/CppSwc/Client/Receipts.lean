import CppSwc.Chain.Locations
import CppSwc.Core.LogBloom

/-!
# Receipts of one sender

`ListTransactions` and `ListTransactionReceipts` of `ClientBase`, which find transactions by
sender and nonce, and `localisedTransactionReceipt`, which finds one by its hash.  The list of
receipts takes the cumulative gas of a receipt for the gas of its transaction.

Hashes are ideal, so a transaction is its hash.  The signature of a transaction in a stored
block was checked when the block was imported.
-/

namespace CppSwc.ClientBase

open BlockChain Lib

/-- `TransactionReceipt`. -/
structure TransactionReceipt where
  statusCodeOrStateRoot : UInt8 ⊕ H256
  cumulativeGasUsed : U256
  bloom : LogBloom
  log : LogEntries
deriving DecidableEq

/-- `LocalisedLogEntry`.  Its polarity is not known, and it is mined. -/
structure LocalisedLogEntry extends LogEntry where
  blockHash : H256
  blockNumber : ℕ
  transactionHash : H256
  transactionIndex : ℕ
  logIndex : ℕ
deriving DecidableEq

/-- The receipts in the extras database.  With a block `import` stores one receipt for each of
its transactions. -/
structure Receipts (c : Blocks) where
  receipts : H256 → List TransactionReceipt
  length_receipts : ∀ h b, c.block h = some b → (receipts h).length = b.transactions.length

variable (c : Blocks) (r : Receipts c) (toAddress : Address → ℕ → Address) (s : BlockChain)

/-- `PendingBlockHash`, `LatestBlockHash` and `EarliestBlockHash`. -/
def numberFromHash (blockHash : H256) : ℕ :=
  if blockHash = 0 then s.lastBlockNumber + 1
  else if blockHash = 2 then s.lastBlockNumber
  else if blockHash = 1 then 0
  else s.number blockHash

/-- `transaction` of a block, if there is one at the index. -/
def transaction (blockHash : H256) (i : ℕ) : Option H256 :=
  (c.block blockHash).bind fun b => b.transactions[i]?

variable {c s} {s' : BlockChain}

/-- Every location by sender and nonce is that of a transaction. -/
def Filed (c : Blocks) (s : BlockChain) : Prop :=
  ∀ key ta, s.accountsIndexAddress key = some ta ∨ s.extraAccountsIndexAddress key = some ta →
    ∃ tx, Holds c ta.blockHash ta.index tx

theorem Filed.congr (f : Filed c s) (ha : s'.accountsIndexAddress = s.accountsIndexAddress)
    (he : s'.extraAccountsIndexAddress = s.extraAccountsIndexAddress) : Filed c s' := by
  intro key ta hta
  rw [ha, he] at hta
  exact f key ta hta

/-- The transactions that are written are those of the block. -/
theorem Filed.writeTransactions {h : H256} {txs : List H256} {i : ℕ} (f : Filed c s)
    (hholds : ∀ j tx, txs[j]? = some tx → Holds c h (i + j) tx) :
    Filed c (writeTransactions c h txs i s) := by
  induction txs generalizing s i with
  | nil => exact f
  | cons tx txs ih =>
      refine ih ?_ fun j tx' htx' => ?_
      · rintro key ta (hta | hta)
        · exact f key ta (.inl hta)
        · simp only [Function.update_apply] at hta
          split at hta
          · cases hta
            exact ⟨tx, hholds 0 tx rfl⟩
          · exact f key ta (.inr hta)
      · have hnext := hholds (j + 1) tx' htx'
        rwa [← Nat.add_assoc, Nat.add_right_comm] at hnext

theorem Filed.writeBlock (f : Filed c s) (h : H256) : Filed c (s.writeBlock c h) := by
  rw [BlockChain.writeBlock]
  split
  · exact f
  · next b hb =>
      have hwritten : Filed c (BlockChain.writeTransactions c h b.transactions 0 s) :=
        f.writeTransactions fun j tx htx => ⟨b, hb, by rwa [Nat.zero_add]⟩
      exact hwritten.congr rfl rfl

theorem Filed.importBlock (f : Filed c s) (h : H256) (mustBeNew valid : Bool) :
    Filed c (s.importBlock c h mustBeNew valid) := by
  rw [BlockChain.importBlock]
  split
  · exact f
  rw [insertBlockAndExtras]
  split
  · split
    · exact f
    · refine Filed.congr ?_ rfl rfl
      rw [extend]
      refine Filed.congr (invariant_foldl (fun _ h i => i.writeBlock h) _ ?_) rfl rfl
      split
      · exact f.congr rfl rfl
      · exact f
  · exact f.congr rfl rfl

theorem numberHash_account (n : ℕ) :
    (s.numberHash c n).2.accountsIndexAddress = s.accountsIndexAddress ∧
      (s.numberHash c n).2.extraAccountsIndexAddress = s.extraAccountsIndexAddress := by
  by_cases hn : n = 0
  · subst hn
    exact ⟨rfl, rfl⟩
  · rw [numberHash_eq hn]
    exact ⟨rfl, rfl⟩

/-- A lookup gives what is stored. -/
theorem Filed.of_lookup (f : Filed c s) {key : Address × ℕ} {ta : TransactionAddress}
    (h : Cache.lookup s.accountsIndexAddress s.extraAccountsIndexAddress key = some ta) :
    ∃ tx, Holds c ta.blockHash ta.index tx := by
  refine f key ta ?_
  rw [Cache.lookup] at h
  exact (Option.or_eq_some_iff.mp h).imp_right And.right

/-- Operations keep it. -/
theorem Filed.next (f : Filed c s) (op : Op) : Filed c (s.next c op) := by
  cases op with
  | importBlock h mustBeNew valid => exact f.importBlock h mustBeNew valid
  | rewind newHead =>
      rw [BlockChain.next, BlockChain.rewind]
      split
      · exact f
      · obtain ⟨ha, he⟩ := numberHash_account (c := c) newHead
        exact f.congr ha he
  | numberHash n =>
      obtain ⟨ha, he⟩ := numberHash_account (c := c) n
      exact f.congr ha he
  | transactionLocation tx =>
      obtain ⟨usage, htl⟩ := transactionLocation_eq s tx
      rw [BlockChain.next, htl]
      exact f.congr rfl rfl
  | accountLocation sender nonce =>
      obtain ⟨usage, hal⟩ := accountLocation_eq s sender nonce
      rw [BlockChain.next, hal]
      rintro key ta (hta | hta)
      · simp only [Cache.load, Function.update_apply] at hta
        split at hta
        · exact f.of_lookup hta
        · exact f key ta (.inl hta)
      · exact f key ta (.inr hta)
  | garbageCollect =>
      obtain ⟨g, hg, -⟩ := foldl_collect_eq (s.cacheUsage.getLastD []) s
      rw [BlockChain.next, BlockChain.garbageCollect, hg]
      exact f.congr rfl rfl

variable {r toAddress} {sender : Address} {nonce : U256} {tl : H256 × ℕ} {tx : H256} {i : ℕ}

/-- The transaction is the first in its block, or those before it used no gas. -/
def FirstGas (r : Receipts c) (tl : H256 × ℕ) : Prop :=
  tl.2 = 0 ∨
    ∀ before, (r.receipts tl.1)[tl.2 - 1]? = some before → before.cumulativeGasUsed = 0

/-- Both queries give the same for the transaction at a place: it is found there by its hash,
and its gas is the cumulative one. -/
def Agrees (r : Receipts c) (s : BlockChain) (tl : H256 × ℕ) : Prop :=
  ∀ tx, transaction c tl.1 tl.2 = some tx → (s.transactionLocation tx).1 = tl ∧ FirstGas r tl

theorem transaction_of_holds {x : H256} (h : Holds c x i tx) : transaction c x i = some tx := by
  obtain ⟨b, hb, htx⟩ := h
  rw [transaction, hb]
  exact htx

/-- Where the lookups follow the chain, only the gas makes a difference. -/
theorem agrees_iff_of_follow {n : ℕ} (h : LocationsFollow c s) (hn : n ≤ s.lastBlockNumber)
    (hholds : Holds c (s.ancestor s.lastBlockHash n) i tx) :
    Agrees r s (s.ancestor s.lastBlockHash n, i) ↔
      FirstGas r (s.ancestor s.lastBlockHash n, i) := by
  constructor
  · exact fun hagrees => (hagrees tx (transaction_of_holds hholds)).2
  · intro hfirst tx' htx'
    obtain rfl : tx = tx' := by
      rw [transaction_of_holds hholds] at htx'
      exact Option.some_inj.mp htx'
    exact ⟨(h n hn i tx hholds).1, hfirst⟩

end CppSwc.ClientBase
