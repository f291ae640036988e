import CppSwc.Core.Common
import CppSwc.Lib.Grouped
import CppSwc.Lib.SearchTree
import CppSwc.Lib.Run

/-!
# The transaction queue

`TransactionQueue` holds the transactions that may go into the next block, in
`current`, and those whose nonce is too high, in `future`.  `current` is a multiset
ordered by `PriorityCompare`, and two indices lead to its nodes, one by hash and one
by sender and nonce.  Each function is the member function of the same name.

* A node is named by its transaction: no transaction is twice in the multiset.
* `sender()` throws if the sender cannot be recovered from the signature, and
  `from()`, which is `safeSender()`, is the zero address then.  The comparison calls
  `sender()`.
* A new index entry holds an iterator to nowhere until the multiset has its node.
  It is `none` here.
* An operation that throws leaves the queue as it was at that point.  One that
  dereferences an iterator to nowhere, or fails an assertion, has no result.

What the containers leave open is in `Env`: `begin()` of an unordered map, and how
the tree of the multiset is rebalanced.
-/

namespace CppSwc

open Lib Std

/-- `Transaction`, as far as the queue looks at it. -/
structure Transaction where
  /-- `sha3(WithSignature)`. -/
  sha3 : H256
  nonce : U256
  gasPrice : U256
  /-- `sender()`.  `none` if it throws. -/
  sender : Option Address
  /-- There is a signature.  `sha3(WithSignature)` throws without one. -/
  isSigned : Bool := true
  hasZeroSignature : Bool := false
deriving DecidableEq

/-- `safeSender()`, also called `from()`. -/
def Transaction.safeSender (t : Transaction) : Address := t.sender.getD 0

/-- `TransactionQueue`. -/
structure TransactionQueue where
  known : ExtTreeSet H256 := ∅
  dropped : ExtTreeSet H256 := ∅
  current : SearchTree Transaction := .leaf
  currentByHash : ExtTreeMap H256 Transaction := ∅
  currentByAddressAndNonce : ExtTreeMap Address (ExtTreeMap U256 (Option Transaction)) := ∅
  future : ExtTreeMap Address (ExtTreeMap U256 Transaction) := ∅
  futureSize : Nat := 0
  limit : Nat
  futureLimit : Nat

namespace TransactionQueue

/-- What the containers leave open during one operation. -/
structure Env where
  /-- The key at `m_future.begin()`, for each time it is asked. -/
  begins : Nat → Address
  /-- How the tree is rebalanced. -/
  balance : Balance Transaction

/-- Why an operation stops. -/
inductive Stop where
  /-- An exception is thrown. -/
  | exception
  /-- The process is in no defined state any more. -/
  | fault
deriving DecidableEq

/-- The queue after a part of an operation, or the queue at which it stopped. -/
abbrev Result (α : Type) := Except (Stop × TransactionQueue) α

/-- The pending transactions in the order of the multiset. -/
def pending (q : TransactionQueue) : List Transaction := q.current.toList

/-! ## The order -/

/-- The nonce of a transaction above the lowest pending nonce of its sender. -/
def height (q : TransactionQueue) (t : Transaction) : Except Stop U256 :=
  match t.sender with
  | none => .error .exception
  | some sender =>
      match firstKey? (group q.currentByAddressAndNonce sender) with
      | none => .error .fault
      | some lowest => .ok (t.nonce - lowest)

/-- `PriorityCompare`. -/
def priorityCompare (q : TransactionQueue) (first second : Transaction) : Except Stop Bool := do
  let height1 ← q.height first
  let height2 ← q.height second
  return decide (height1 < height2) || height1 == height2 && decide (second.gasPrice < first.gasPrice)

/-! ## Entering and leaving the pending transactions -/

/-- The index entry for a transaction that is not in the multiset yet. -/
def register (a : Address) (t : Transaction) (q : TransactionQueue) : TransactionQueue :=
  if (lookup q.currentByAddressAndNonce a t.nonce).isSome then q
  else { q with currentByAddressAndNonce := insertAt q.currentByAddressAndNonce a t.nonce none }

/-- What `insertCurrent` and `makeCurrent` do for a transaction: a new index entry,
then the multiset, then both indices. -/
def enter (balance : Balance Transaction) (a : Address) (t : Transaction) (q : TransactionQueue) :
    Result TransactionQueue :=
  let q := q.register a t
  match q.current.emplace (q.priorityCompare t) t with
  | .error stop => .error (stop, q)
  | .ok current =>
      .ok { q with
        current := balance.rebalance current
        currentByAddressAndNonce := insertAt q.currentByAddressAndNonce a t.nonce (some t)
        currentByHash := q.currentByHash.insert t.sha3 t }

/-- `remove_WITH_LOCK`. -/
def remove (balance : Balance Transaction) (txHash : H256) (q : TransactionQueue) :
    Result (TransactionQueue × Bool) :=
  match q.currentByHash[txHash]? with
  | none => .ok (q, false)
  | some t =>
      if q.currentByAddressAndNonce.contains t.safeSender then
        .ok ({ q with
          currentByAddressAndNonce := eraseAt q.currentByAddressAndNonce t.safeSender [t.nonce]
          current := balance.rebalance (q.current.erase t)
          currentByHash := q.currentByHash.erase txHash
          known := q.known.erase txHash }, true)
      else .error (.fault, q)

/-! ## Future transactions -/

/-- The entries whose nonces follow without a gap. -/
def consecutive : U256 → List (U256 × Transaction) → List (U256 × Transaction)
  | _, [] => []
  | nonce, e :: es => if e.2.nonce = nonce then e :: consecutive (nonce + 1) es else []

/-- The future transactions of a sender from a nonce on, up to the first gap. -/
def following (nonce : U256) (fs : ExtTreeMap U256 Transaction) : List (U256 × Transaction) :=
  if fs.contains nonce then consecutive nonce (fs.toList.dropWhile (·.1 < nonce)) else []

/-- The loop of `makeCurrent` over the transactions that follow. -/
def promote (balance : Balance Transaction) (a : Address) :
    List (U256 × Transaction) → TransactionQueue → Result TransactionQueue
  | [], q => .ok q
  | e :: es, q => do
      let q ← q.enter balance a e.2
      promote balance a es { q with futureSize := q.futureSize - 1 }

/-- `m_future.begin()`: the map of some key. -/
def beginFuture (begins : Address) (q : TransactionQueue) :
    Option (Address × ExtTreeMap U256 Transaction) :=
  match q.future[begins]? with
  | some fs => some (begins, fs)
  | none => q.future.toList.head?

/-- The loop of `makeCurrent` that keeps the future within its limit.  It ends at the
latest when the counter is zero. -/
def evictFuture (begins : Nat → Address) : Nat → TransactionQueue → Result TransactionQueue
  | 0, q => .ok q
  | n + 1, q =>
      if q.futureSize ≤ q.futureLimit then .ok q
      else
        match q.beginFuture (begins n) with
        | none => .error (.fault, q)
        | some (a, fs) =>
            match lastKey? fs with
            | none => .error (.fault, q)
            | some nonce =>
                evictFuture begins n
                  { q with futureSize := q.futureSize - 1, future := eraseAt q.future a [nonce] }

/-- The transactions `makeCurrent` takes over. -/
def promoted (t : Transaction) (q : TransactionQueue) : List (U256 × Transaction) :=
  match q.future[t.safeSender]? with
  | none => []
  | some fs => following (t.nonce + 1) fs

/-- `makeCurrent_WITH_LOCK`.  The future transactions that are taken over are erased
only after the loop. -/
def makeCurrent (env : Env) (t : Transaction) (q : TransactionQueue) : Result TransactionQueue := do
  let run := q.promoted t
  let q ← q.promote env.balance t.safeSender run
  let q := if run.isEmpty then q
    else { q with future := eraseAt q.future t.safeSender (run.map Prod.fst) }
  q.evictFuture env.begins q.futureSize

/-! ## Importing -/

/-- `insertCurrent_WITH_LOCK`. -/
def insertCurrent (env : Env) (h : H256) (t : Transaction) (q : TransactionQueue) :
    Result TransactionQueue :=
  if q.currentByHash.contains h then .ok q
  else do
    let q ← q.enter env.balance t.safeSender t
    let q ← q.makeCurrent env t
    return { q with known := q.known.insert h }

/-- The pending transaction with the same sender and nonce goes, unless it has the
higher gas price.  The second component says whether it has. -/
def replaceCurrent (balance : Balance Transaction) (t : Transaction) (q : TransactionQueue) :
    Result (TransactionQueue × Bool) :=
  match lookup q.currentByAddressAndNonce t.safeSender t.nonce with
  | none => .ok (q, false)
  | some none => .error (.fault, q)
  | some (some old) =>
      if t.gasPrice < old.gasPrice then .ok (q, true)
      else (q.remove balance old.sha3).map fun (q, _) => (q, false)

/-- So does the future transaction. -/
def replaceFuture (t : Transaction) (q : TransactionQueue) : TransactionQueue × Bool :=
  match lookup q.future t.safeSender t.nonce with
  | none => (q, false)
  | some old =>
      if t.gasPrice < old.gasPrice then (q, true)
      else ({ q with
        future := eraseAt q.future t.safeSender [t.nonce]
        futureSize := q.futureSize - 1 }, false)

/-- The loop of `manageImport` that keeps the pending transactions within their limit.
It never ends if the last transaction is not in the index by hash. -/
def evictCurrent (balance : Balance Transaction) : Nat → TransactionQueue → Result TransactionQueue
  | 0, q => .ok q
  | n + 1, q =>
      if q.pending.length ≤ q.limit then .ok q
      else
        match q.pending.getLast? with
        | none => .error (.fault, q)
        | some t => do
            let (q, removed) ← q.remove balance t.sha3
            if removed then evictCurrent balance n q else .error (.fault, q)

/-- The body of `manageImport_WITH_LOCK`. -/
def manageImportBody (env : Env) (h : H256) (t : Transaction) (q : TransactionQueue) :
    Result (TransactionQueue × ImportResult) := do
  let (q, overbid) ← q.replaceCurrent env.balance t
  if overbid then return (q, .overbidGasPrice)
  let (q, overbid) := q.replaceFuture t
  if overbid then return (q, .overbidGasPrice)
  let q ← q.insertCurrent env h t
  let q ← q.evictCurrent env.balance q.pending.length
  return (q, .success)

/-- `manageImport_WITH_LOCK`, which catches what is thrown. -/
def manageImport (env : Env) (h : H256) (t : Transaction) (q : TransactionQueue) :
    Option (TransactionQueue × ImportResult) :=
  match q.manageImportBody env h t with
  | .ok answer => some answer
  | .error (.exception, q) => some (q, .malformed)
  | .error (.fault, _) => none

/-- `check_WITH_LOCK`. -/
def check (h : H256) (ik : IfDropped) (q : TransactionQueue) : ImportResult :=
  if q.known.contains h then .alreadyKnown
  else if q.dropped.contains h && ik == .ignore then .alreadyInChain
  else .success

/-- `import`.  The answer is missing if it throws, for want of a signature. -/
def «import» (env : Env) (t : Transaction) (ik : IfDropped) (q : TransactionQueue) :
    Option (TransactionQueue × Option ImportResult) :=
  if t.hasZeroSignature then some (q, some .zeroSignature)
  else if !t.isSigned then some (q, none)
  else
    match q.check t.sha3 ik with
    | .success => (q.manageImport env t.sha3 t).map fun (q, ir) => (q, some ir)
    | ir => some (q, some ir)

/-! ## The other operations -/

/-- The queue an operation leaves behind, whether it throws or not. -/
def settle : Result TransactionQueue → Option TransactionQueue
  | .ok q => some q
  | .error (.exception, q) => some q
  | .error (.fault, _) => none

/-- `drop`. -/
def drop (env : Env) (txHash : H256) (q : TransactionQueue) : Result TransactionQueue :=
  if q.known.contains txHash then
    ({ q with dropped := q.dropped.insert txHash }.remove env.balance txHash).map Prod.fst
  else .ok q

/-- `dropGood`. -/
def dropGood (env : Env) (t : Transaction) (q : TransactionQueue) : Result TransactionQueue := do
  let q ← q.makeCurrent env t
  if !t.isSigned then .error (.exception, q)
  else if q.known.contains t.sha3 then (q.remove env.balance t.sha3).map Prod.fst
  else return q

/-- The loop of `setFuture` over the entries of a sender. -/
def demote (balance : Balance Transaction) (a : Address) :
    List (U256 × Option Transaction) → TransactionQueue → Result TransactionQueue
  | [], q => .ok q
  | (_, none) :: _, q => .error (.fault, q)
  | (_, some t) :: es, q =>
      demote balance a es { q with
        currentByHash := q.currentByHash.erase t.sha3
        future := if (lookup q.future a t.nonce).isSome then q.future
          else insertAt q.future a t.nonce t
        current := balance.rebalance (q.current.erase t)
        futureSize := q.futureSize + 1 }

/-- The index entries of the sender of a transaction from its nonce on. -/
def fromNonce (t : Transaction) (q : TransactionQueue) : List (U256 × Option Transaction) :=
  let queue : ExtTreeMap U256 (Option Transaction) := group q.currentByAddressAndNonce t.safeSender
  queue.toList.dropWhile (·.1 < t.nonce)

/-- `setFuture`.  `m_future[from]` makes an empty map if there is none. -/
def setFuture (env : Env) (txHash : H256) (q : TransactionQueue) : Result TransactionQueue :=
  match q.currentByHash[txHash]? with
  | none => .ok q
  | some st => do
      let a := st.safeSender
      let tail := q.fromNonce st
      let q ← { q with future := q.future.insert a (group q.future a) }.demote env.balance a tail
      return { q with
        currentByAddressAndNonce := eraseAt q.currentByAddressAndNonce a (tail.map Prod.fst) }

/-- `clear`. -/
def clear (q : TransactionQueue) : TransactionQueue :=
  { limit := q.limit, futureLimit := q.futureLimit }

/-- `topTransactions`. -/
def topTransactions (limit : Nat) (avoid : ExtTreeSet H256) (q : TransactionQueue) :
    List Transaction :=
  (q.pending.filter fun t => !avoid.contains t.sha3).take limit

/-! ## Runs -/

/-- The operations on the queue. -/
inductive Op where
  | import (env : Env) (t : Transaction) (ik : IfDropped)
  | drop (env : Env) (txHash : H256)
  | dropGood (env : Env) (t : Transaction)
  | setFuture (env : Env) (txHash : H256)
  | clear

/-- One operation. -/
def step (q : TransactionQueue) : Op → Option TransactionQueue
  | .import env t ik => (q.import env t ik).map (·.1)
  | .drop env txHash => settle (q.drop env txHash)
  | .dropGood env t => settle (q.dropGood env t)
  | .setFuture env txHash => settle (q.setFuture env txHash)
  | .clear => some q.clear

/-- All runs of the queue, from any limits and with any operations. -/
def system : System TransactionQueue Op where
  init q := ∃ limit futureLimit, q = { limit := limit, futureLimit := futureLimit }
  step := step

end TransactionQueue

end CppSwc
