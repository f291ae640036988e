import CppSwc.Lib.Action
import CppSwc.State.Account

/-!
# State

`State` of libethereum: the state trie, a cache of accounts over it and the change log
that `rollback` undoes.

An account is loaded into the cache when it is first asked for, and a loaded account may
drop others: `clearCacheIfTooLarge` removes random entries that are not dirty.  What is
chosen is the argument `pick`, a function of the candidates.

The change log has its newest entry first.  `m_touched`, which nothing here reads, and
the cache of code sizes, which holds the sizes of codes by their hash, are left out.
-/

namespace CppSwc

open Std Lib CodeHash

/-- `Change`. -/
inductive Change (H : Type) where
  | balance (address : Address) (value : U256)
  | storage (address : Address) (key value : U256)
  | storageRoot (address : Address) (value : StorageTrie)
  | nonce (address : Address) (value : U256)
  | create (address : Address)
  | code (address : Address) (oldCode : Bytes)
  | touch (address : Address)

/-- The account that a change is about. -/
def Change.address {H : Type} : Change H → Address
  | .balance a _ | .storage a _ _ | .storageRoot a _ | .nonce a _ | .create a | .code a _
  | .touch a => a

/-- The members of `State`. -/
structure State (H : Type) where
  /-- `m_state`, by its content. -/
  trie : ExtTreeMap Address (Leaf H) := ∅
  /-- The code with a hash in `m_db`, empty if there is none. -/
  codes : H → Bytes := fun _ => []
  cache : ExtTreeMap Address (Account H) := ∅
  unchangedCacheEntries : List Address := []
  nonExistingAccountsCache : ExtTreeSet Address := ∅
  accountStartNonce : U256
  changeLog : List (Change H) := []

/-- The exceptions of `State`, and a failed `assert`. -/
inductive StateException where
  | notEnoughCash
  | invalidAccountStartNonce
  | assertion
deriving DecidableEq, Repr

/-- `Invalid256`. -/
def invalid256 : U256 := BitVec.allOnes 256

namespace State

variable {H : Type} [DecidableEq H] [CodeHash H]

/-- A member function. -/
abbrev Action (H : Type) (α : Type) := EStateM StateException (State H) α

/-- The random choice of `clearCacheIfTooLarge`. -/
abbrev Pick := List Address → Nat

/-! ## The cache -/

/-- An assignment to `m_cache[a]`. -/
def put (a : Address) (x : Account H) (s : State H) : State H :=
  { s with cache := s.cache.insert a x }

/-- A change at the end of the change log. -/
def logged (c : Change H) (s : State H) : State H := { s with changeLog := c :: s.changeLog }

/-- One round of `clearCacheIfTooLarge`, for the candidate at index `i`. -/
def evict (i : Nat) (s : State H) : State H :=
  let addr := s.unchangedCacheEntries.getD i 0
  { s with
    unchangedCacheEntries :=
      (s.unchangedCacheEntries.set i (s.unchangedCacheEntries.getLastD 0)).dropLast
    cache :=
      match s.cache[addr]? with
      | some x => if x.isDirty then s.cache else s.cache.erase addr
      | none => s.cache }

/-- `clearCacheIfTooLarge`, with a bound on its rounds. -/
def clearCacheIfTooLarge (pick : Pick) : Nat → State H → State H
  | 0, s => s
  | n + 1, s =>
      if 1000 < s.unchangedCacheEntries.length then
        clearCacheIfTooLarge pick n
          (s.evict (pick s.unchangedCacheEntries % s.unchangedCacheEntries.length))
      else s

/-- What `account` leaves. -/
def load (pick : Pick) (a : Address) (s : State H) : State H :=
  if s.cache.contains a ∨ s.nonExistingAccountsCache.contains a then s
  else
    match s.trie[a]? with
    | none => { s with nonExistingAccountsCache := s.nonExistingAccountsCache.insert a }
    | some leaf =>
        let s := clearCacheIfTooLarge pick s.unchangedCacheEntries.length s
        { s.put a (.ofLeaf leaf) with
          unchangedCacheEntries := s.unchangedCacheEntries ++ [a] }

/-- `account`. -/
def account (pick : Pick) (a : Address) : Action H (Option (Account H)) := do
  modify (load pick a)
  let s ← get
  pure s.cache[a]?

omit [DecidableEq H] [CodeHash H] in
theorem account_bind {α : Type} (pick : Pick) (a : Address) (f : Option (Account H) → Action H α)
    (s : State H) :
    (account pick a >>= f) s = f (s.load pick a).cache[a]? (s.load pick a) := rfl

/-- `m_cache[a]`, where a new entry is a dead account. -/
def entry (s : State H) (a : Address) : Account H := s.cache.getD a .dead

/-! ## Reading -/

/-- `addressInUse`. -/
def addressInUse (pick : Pick) (a : Address) : Action H Bool := do
  let x ← account pick a
  pure x.isSome

/-- `accountNonemptyAndExisting`. -/
def accountNonemptyAndExisting (pick : Pick) (a : Address) : Action H Bool := do
  let x ← account pick a
  pure (x.any fun x => !x.isEmpty)

/-- `addressHasCode`. -/
def addressHasCode (pick : Pick) (a : Address) : Action H Bool := do
  let x ← account pick a
  pure (x.any fun x => x.codeHash ≠ emptySHA3)

/-- `balance`. -/
def balance (pick : Pick) (a : Address) : Action H U256 := do
  let x ← account pick a
  pure (x.elim 0 Account.balance)

/-- `getNonce`. -/
def getNonce (pick : Pick) (a : Address) : Action H U256 := do
  let x ← account pick a
  let s ← get
  pure (x.elim s.accountStartNonce Account.nonce)

/-- A slot of an account in the cache.  One that is not in the overlay is noted there. -/
def readStorage (a : Address) (key : U256) (x : Account H) : Action H U256 := do
  modify fun s =>
    if x.storageOverlay.contains key then s
    else s.put a (x.setStorageCache key (x.storageAt key))
  pure (x.storageAt key)

/-- `storage`. -/
def storage (pick : Pick) (a : Address) (key : U256) : Action H U256 := do
  let x ← account pick a
  match x with
  | none => pure 0
  | some x => readStorage a key x

/-- The code of an account in the cache.  Code that is read from the database is noted,
after a check of its hash. -/
def readCode (a : Address) (x : Account H) : Action H Bytes := do
  let s ← get
  if x.codeHash = emptySHA3 then pure []
  else if x.codeCache = [] then do
    throwIf (sha3 (s.codes x.codeHash) ≠ x.codeHash) .assertion
    modify (put a (x.noteCode (s.codes x.codeHash)))
    pure (s.codes x.codeHash)
  else pure x.codeCache

/-- `code`. -/
def code (pick : Pick) (a : Address) : Action H Bytes := do
  let x ← account pick a
  match x with
  | none => pure []
  | some x => readCode a x

/-- `codeHash`. -/
def codeHash (pick : Pick) (a : Address) : Action H H := do
  let x ← account pick a
  pure (x.elim emptySHA3 Account.codeHash)

/-- `codeSize`. -/
def codeSize (pick : Pick) (a : Address) : Action H Nat := do
  let x ← account pick a
  match x with
  | none => pure 0
  | some x =>
      if x.hasNewCode then pure x.codeCache.length
      else do
        let code ← code pick a
        pure code.length

/-- `requireAccountStartNonce`. -/
def requireAccountStartNonce : Action H U256 := do
  let s ← get
  throwIf (s.accountStartNonce = invalid256) .invalidAccountStartNonce
  pure s.accountStartNonce

/-! ## Writing -/

/-- A new account in the cache. -/
def created (a : Address) (x : Account H) (s : State H) : State H :=
  { s.put a x with
    nonExistingAccountsCache := s.nonExistingAccountsCache.erase a
    changeLog := .create a :: s.changeLog }

/-- `createAccount`. -/
def createAccount (pick : Pick) (a : Address) (x : Account H) : Action H Unit := do
  let inUse ← addressInUse pick a
  throwIf inUse .assertion
  modify (created a x)

/-- `createContract`. -/
def createContract (pick : Pick) (a : Address) : Action H Unit := do
  let nonce ← requireAccountStartNonce
  createAccount pick a (.create nonce 0)

/-- The part that `incNonce` and `setNonce` share: an account that is there gets the
nonce `new`, and else one is created with the nonce `first`. -/
def writeNonce (pick : Pick) (a : Address) (new : Account H → U256) (first : Action H U256) :
    Action H Unit := do
  let x ← account pick a
  match x with
  | some x => modify fun s => (s.put a (x.setNonce (new x))).logged (.nonce a x.nonce)
  | none => do
      let nonce ← first
      createAccount pick a (.create nonce 0)

/-- `incNonce`. -/
def incNonce (pick : Pick) (a : Address) : Action H Unit :=
  writeNonce pick a (fun x => x.nonce + 1) do
    let nonce ← requireAccountStartNonce
    pure (nonce + 1)

/-- `setNonce`. -/
def setNonce (pick : Pick) (a : Address) (nonce : U256) : Action H Unit :=
  writeNonce pick a (fun _ => nonce) (pure nonce)

/-- The balance of an account that is there grows.  A first touch of an empty account
is logged, and then the amount, unless it is zero. -/
def raise (a : Address) (amount : U256) (x : Account H) (s : State H) : State H :=
  let s := if !x.isDirty && x.isEmpty then s.logged (.touch a) else s
  let s := s.put a (x.addBalance amount)
  if amount ≠ 0 then s.logged (.balance a amount) else s

/-- `addBalance`. -/
def addBalance (pick : Pick) (a : Address) (amount : U256) : Action H Unit := do
  let x ← account pick a
  match x with
  | some x => modify (raise a amount x)
  | none => do
      let nonce ← requireAccountStartNonce
      createAccount pick a (.create nonce amount)
      modify fun s => if amount ≠ 0 then s.logged (.balance a amount) else s

/-- `subBalance`. -/
def subBalance (pick : Pick) (a : Address) (value : U256) : Action H Unit :=
  if value = 0 then pure ()
  else do
    let x ← account pick a
    throwIf (∀ y ∈ x, y.balance < value) .notEnoughCash
    addBalance pick a (0 - value)

/-- `setBalance`. -/
def setBalance (pick : Pick) (a : Address) (value : U256) : Action H Unit := do
  let x ← account pick a
  addBalance pick a (value - x.elim 0 Account.balance)

/-- `transferBalance`, with a choice for each account. -/
def transferBalance (pick pick' : Pick) (source target : Address) (value : U256) :
    Action H Unit := do
  subBalance pick source value
  addBalance pick' target value

/-- `setStorage`. -/
def setStorage (pick : Pick) (a : Address) (key value : U256) : Action H Unit := do
  let old ← storage pick a key
  modify fun s => (s.put a ((s.entry a).setStorage key value)).logged (.storage a key old)

/-- `clearStorage`. -/
def clearStorage (a : Address) : Action H Unit :=
  modify fun s =>
    let s := s.put a (s.entry a)
    if (s.entry a).storageRoot.isEmpty then s
    else (s.put a (s.entry a).clearStorage).logged (.storageRoot a (s.entry a).storageRoot)

/-- `setCode`. -/
def setCode (pick : Pick) (a : Address) (new : Bytes) : Action H Unit := do
  let old ← code pick a
  modify fun s => (s.put a ((s.entry a).setCode new)).logged (.code a old)

/-- `kill`. -/
def kill (pick : Pick) (a : Address) : Action H Unit := do
  let x ← account pick a
  match x with
  | some x => modify (put a x.kill)
  | none => pure ()

/-! ## Undoing and committing -/

/-- One round of `rollback`, for the change at the end of the change log. -/
def undo (c : Change H) (s : State H) : State H :=
  let x := s.entry c.address
  let s := { s with changeLog := s.changeLog.tail }
  match c with
  | .storage a key value => s.put a (x.setStorage key value)
  | .storageRoot a value => s.put a (x.setStorageRoot value)
  | .balance a value => s.put a (x.addBalance (0 - value))
  | .nonce a value => s.put a (x.setNonce value)
  | .create a => { s with cache := s.cache.erase a }
  | .code a oldCode => s.put a (x.setCode oldCode)
  | .touch a =>
      { s.put a x.untouch with unchangedCacheEntries := s.unchangedCacheEntries ++ [a] }

/-- `savepoint`. -/
def savepoint (s : State H) : Nat := s.changeLog.length

/-- `rollback`, to a savepoint that is not past the end of the change log. -/
def rollback (savepoint : Nat) (s : State H) : State H :=
  (s.changeLog.take (s.changeLog.length - savepoint)).foldl (fun s c => s.undo c) s

/-- `CommitBehaviour`. -/
inductive CommitBehaviour where
  | keepEmptyAccounts
  | removeEmptyAccounts
deriving DecidableEq, Repr

/-- `removeEmptyAccounts`, for one account. -/
def removeIfEmpty (x : Account H) : Account H := if x.isDirty && x.isEmpty then x.kill else x

/-- `dev::eth::commit`, for one account. -/
def commitAccount (s : State H) (e : Address × Account H) : State H :=
  if e.2.isDirty then
    if e.2.isAlive then
      { s with
        codes := fun h => if e.2.hasNewCode ∧ h = e.2.codeHash then e.2.codeCache else s.codes h
        trie := s.trie.insert e.1
          ⟨e.2.nonce, e.2.balance, e.2.storageTrie, e.2.codeHash⟩ }
    else { s with trie := s.trie.erase e.1 }
  else s

/-- `commit`. -/
def commit (behaviour : CommitBehaviour) (s : State H) : State H :=
  let cache := if behaviour = .removeEmptyAccounts then s.cache.map fun _ x => removeIfEmpty x
    else s.cache
  { cache.toList.foldl commitAccount s with
    changeLog := []
    cache := ∅
    unchangedCacheEntries := [] }

/-- `setRoot`. -/
def setRoot (root : ExtTreeMap Address (Leaf H)) (s : State H) : State H :=
  { s with cache := ∅, unchangedCacheEntries := [], nonExistingAccountsCache := ∅, trie := root }

/-- A `State` that is opened on a trie. -/
def opened (trie : ExtTreeMap Address (Leaf H)) (codes : H → Bytes) (accountStartNonce : U256) :
    State H :=
  { trie, codes, accountStartNonce }

end State

end CppSwc
