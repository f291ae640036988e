import Std.Data.ExtTreeMap
import CppSwc.Core.BlockHeader
import CppSwc.Core.Common

/-!
# The block buffer of the synchroniser

`Request` holds the headers and bodies a node has fetched and not yet imported,
keyed by block number, with an index from the roots in a header to its number by
which bodies find their header.  Each function is the member function of the same
name.  A number is an `unsigned`, so `blockNumber + 1` wraps at `2 ^ 32`.

An operation ends in a `Fault` where the code fails an assertion or writes through
an iterator at the end of the map.  `insertHead` and `insertBlock` catch
everything, so an item that does not decode leaves the buffer alone.
-/

namespace CppSwc

/-- How the process may be brought down. -/
inductive Fault where
  /-- A failed `assert`. -/
  | assertion
  /-- An iterator at the end of a map is dereferenced. -/
  | endIterator
deriving DecidableEq, Repr

/-- `Blocker`, a header with or without its body.  An empty body is `Rlp.null`. -/
structure Blocker where
  head : Rlp
  body : Rlp := .null
  bodyTimeout : Nat := 0
  hash : H256
  parent : H256
  id : NodeID
  time : Nat
deriving DecidableEq

/-- `Header`, the roots by which a body is known. -/
structure Header where
  transactionsRoot : H256
  uncles : H256
deriving DecidableEq

/-- `Header::operator<`. -/
instance : Ord Header := ⟨compareLex (compareOn (·.transactionsRoot)) (compareOn (·.uncles))⟩

instance : Std.TransOrd Header :=
  inferInstanceAs (Std.TransCmp (compareLex (compareOn Header.transactionsRoot) (compareOn (·.uncles))))

instance : Std.LawfulEqOrd Header where
  eq_of_compare {a b} h := by
    obtain ⟨h₁, h₂⟩ := compareLex_eq_eq.mp h
    cases a
    cases b
    cases Std.LawfulEqOrd.eq_of_compare h₁
    cases Std.LawfulEqOrd.eq_of_compare h₂
    rfl

/-- The roots in a header. -/
def BlockHeader.roots (header : BlockHeader) : Header :=
  { transactionsRoot := header.transactionsRoot, uncles := header.sha3Uncles }

/-- The roots of a block without transactions and uncles. -/
def Prims.emptyRoots (P : Prims) : Header :=
  { transactionsRoot := P.emptyTrie, uncles := P.emptyListSHA3 }

/-- The roots of a body, computed from its transactions and uncles. -/
def bodyRoots (P : Prims) (body : Rlp) : Header :=
  { transactionsRoot := P.trieRootOver (body.item P.payload 0).items
    uncles := P.sha3 (body.item P.payload 1) }

namespace Blocker

/-- `Blocker(_block, blockerHead, _id)`. -/
def ofHead (P : Prims) (now : Nat) (id : NodeID) (item : Rlp) : Option Blocker :=
  (BlockHeader.ofHeader P item).map fun header =>
    { head := item, hash := header.hash, parent := header.parentHash, id := id, time := now }

/-- `Blocker(_block, blockerBlock, _id)`. -/
def ofBlock (P : Prims) (now : Nat) (id : NodeID) (block : Rlp) : Option Blocker := do
  let header ← BlockHeader.ofBlock P block
  let body := .list (block.items.drop 1)
  if bodyRoots P body = header.roots then
    some { head := block.item P.payload 0, body := body, hash := header.hash
           parent := header.parentHash, id := id, time := now }
  else none

end Blocker

/-- `Request`. -/
structure Request where
  blocks : Std.ExtTreeMap Nat Blocker := ∅
  headerToNumber : Std.ExtTreeMap Header Nat := ∅
  genesis : Blocker

/-- `Request(_hash)`.  The time of the genesis entry is never set. -/
def Request.start (hash : H256) (time : Nat) : Request :=
  { genesis := { head := .null, hash := hash, parent := 0, id := 0, time := time } }

/-- `blockNumber + 1` of an `unsigned`. -/
def nextNumber (n : Nat) : Nat := (n + 1) % 2 ^ 32

namespace Request

/-! ## Looking at the buffer -/

/-- The entry with the highest number. -/
def last (r : Request) : Option (Nat × Blocker) := r.blocks.toList.getLast?

/-- `upNumber`. -/
def upNumber (r : Request) : Nat := (r.last.map (·.1)).getD 0

/-- `upTime`. -/
def upTime (r : Request) : Nat := (r.last.map (·.2.time)).getD 0

/-- `id`, by default the peer of the entry with the highest number. -/
def id (r : Request) (number : Nat) : NodeID :=
  if number ≠ 0 then (r.blocks[number]?.map (·.id)).getD 0
  else (r.last.map (·.2.id)).getD 0

/-- `underNumber`. -/
def underNumber (r : Request) : Nat := (r.blocks.toList.head?.map (·.1)).getD 0

/-- `underHash`. -/
def underHash (r : Request) : H256 := (r.blocks.toList.head?.map (·.2.hash)).getD 0

/-- `haveItem`. -/
def haveItem (r : Request) (number : Nat) : Bool := r.blocks.contains number

/-- `hash`. -/
def hash (r : Request) (number : Nat) : H256 := (r.blocks[number]?.map (·.hash)).getD 0

/-! ## Removing -/

/-- `clear`. -/
def clear (r : Request) : Request := { r with blocks := ∅, headerToNumber := ∅ }

/-- `removeHeader`.  The index entry goes whatever number it has. -/
def removeHeader (P : Prims) (head : Rlp) (r : Request) : Request :=
  match BlockHeader.ofHeader P head with
  | none => r
  | some header =>
      if header.roots = P.emptyRoots then r
      else { r with headerToNumber := r.headerToNumber.erase header.roots }

/-- One round of the removal loops.  Entry 0 is the genesis block, which has no
header. -/
def removeEntry (P : Prims) (r : Request) (e : Nat × Blocker) : Request :=
  let r := if e.1 = 0 then r else r.removeHeader P e.2.head
  { r with blocks := r.blocks.erase e.1 }

/-- `removeUnder`. -/
def removeUnder (P : Prims) (number : Nat) (r : Request) : Request :=
  (r.blocks.toList.takeWhile (·.1 < number)).foldl (removeEntry P) r

/-- The entries from `number` on without a gap. -/
def contiguous : Nat → List (Nat × Blocker) → List (Nat × Blocker)
  | _, [] => []
  | number, e :: es => if e.1 = number then e :: contiguous (number + 1) es else []

/-- `removeUpWith`.  The loop starts at the entry `number`, so nothing happens if
there is none. -/
def removeUpWith (P : Prims) (number : Nat) (r : Request) : Request :=
  (contiguous number (r.blocks.toList.dropWhile (·.1 < number))).foldl (removeEntry P) r

/-! ## Inserting -/

/-- `insertBlocker` with a number and a header: the entry is stored. -/
def insertBlockerAt (P : Prims) (number : Nat) (b : Blocker) (header : BlockHeader) (r : Request) :
    Except Fault Request :=
  if number = 0 then .error .assertion
  else if number = 1 ∧ b.parent ≠ r.genesis.hash then .error .assertion
  else
    let blocks := if number = 1 then r.blocks.insert 0 r.genesis else r.blocks
    if header.roots = P.emptyRoots then
      .ok { r with blocks := blocks.insert number { b with body := .list [.list [], .list []] } }
    else
      .ok { r with
        blocks := blocks.insert number b
        headerToNumber := r.headerToNumber.insert header.roots number }

/-- The entry above the number, if the header is not its parent. -/
def unmatchedChild (r : Request) (number : Nat) (header : BlockHeader) : Option Blocker :=
  r.blocks[nextNumber number]?.filter (·.parent != header.hash)

/-- The entry below the number, if it is not the parent of the header. -/
def unmatchedParent (r : Request) (number : Nat) (header : BlockHeader) : Option Blocker :=
  r.blocks[number - 1]?.filter (header.parentHash != ·.hash)

/-- The check of `insertBlocker` against the entry below.  The second component
says whether the entry is to be stored. -/
def matchParent (P : Prims) (number : Nat) (header : BlockHeader) (uptime : Nat) (r : Request) :
    Request × Bool :=
  match r.unmatchedParent number header with
  | none => (r, true)
  | some parent =>
      if uptime < parent.time then (r.clear, false)
      else (r.removeUnder P (nextNumber number), true)

/-- The check against the entry above, and then that against the entry below. -/
def matchNeighbours (P : Prims) (number : Nat) (header : BlockHeader) (r : Request) :
    Request × Bool :=
  match r.unmatchedChild number header with
  | none => r.matchParent P number header r.upTime
  | some child =>
      if r.upTime < child.time then (r.clear, false)
      else (r.removeUpWith P number).matchParent P number header r.upTime

/-- What `insertBlocker` does before it stores the entry, and whether it does. -/
def prepare (P : Prims) (number : Nat) (header : BlockHeader) (id : NodeID) (r : Request) :
    Request × Bool :=
  if r.upNumber < number then
    (if (r.unmatchedParent number header).isSome then r.clear else r, true)
  else if id ≠ r.id 0 then (r, false)
  else r.matchNeighbours P number header

/-- `insertBlocker`. -/
def insertBlocker (P : Prims) (b : Blocker) (r : Request) : Except Fault Request :=
  match BlockHeader.ofHeader P b.head with
  | none => .ok r
  | some header =>
      let number := header.number % 2 ^ 32
      if number = 0 then .error .assertion
      else
        match r.prepare P number header b.id with
        | (r, false) => .ok r
        | (r, true) => r.insertBlockerAt P number b header

/-- `insertHead`. -/
def insertHead (P : Prims) (now : Nat) (id : NodeID) (item : Rlp) (r : Request) :
    Except Fault Request :=
  match Blocker.ofHead P now id item with
  | none => .ok r
  | some b => r.insertBlocker P b

/-- `insertBlock`. -/
def insertBlock (P : Prims) (now : Nat) (id : NodeID) (block : Rlp) (r : Request) :
    Except Fault Request :=
  match Blocker.ofBlock P now id block with
  | none => .ok r
  | some b => r.insertBlocker P b

/-- `insertBody`. -/
def insertBody (P : Prims) (body : Rlp) (r : Request) : Except Fault Request :=
  match r.headerToNumber[bodyRoots P body]? with
  | none => .ok r
  | some number =>
      match r.blocks[number]? with
      | none => .error .endIterator
      | some b => .ok { r with blocks := r.blocks.insert number { b with body := body } }

end Request

/-! ## Handing blocks to the queue -/

/-- The answers of the block queue and the chain during one call. -/
structure Answers where
  /-- `chain().isKnown`. -/
  isKnown : H256 → Bool
  /-- `bq().blockStatus`, before the call hands over blocks. -/
  blockStatus : H256 → QueueStatus
  /-- `bq().import` of the block with a number.  `none` is an exception. -/
  importBlock : Nat → Option ImportResult
  /-- `bq().blockStatus` of that block right after it. -/
  statusAfter : Nat → QueueStatus

/-- `knowHash`. -/
def Answers.knowHash (a : Answers) (hash : H256) : Bool :=
  hash != 0 && (a.blockStatus hash == .importing || a.blockStatus hash == .ready || a.isKnown hash)

namespace Request

/-- `clearNeedless`. -/
def clearNeedless (P : Prims) (a : Answers) (r : Request) : Request :=
  let known := r.blocks.toList.takeWhile (a.knowHash ·.2.hash)
  let number := (known.getLast?.map (·.1)).getD r.underNumber
  if 1 < number then r.removeUnder P number else r

/-- How the loop of `collectBlocks` ends. -/
inductive Collected where
  /-- At `end`, with `maxNumber`. -/
  | finish (maxNumber : Nat)
  /-- By a `return`. -/
  | quit
  /-- By a `return` after `clear()`. -/
  | clear
  /-- By a `return` after `removeUnder`. -/
  | removeUnder (number : Nat)

/-- Where `collectBlocks` starts: past the genesis entry and past a first entry
without body.  `none` if the body of an entry past the end is looked at. -/
def collectStart (entries : List (Nat × Blocker)) : Option (List (Nat × Blocker)) :=
  match if (entries.head?.map (·.1)) = some 0 then entries.tail else entries with
  | [] => none
  | e :: es => some (if e.2.body.isNull then es else e :: es)

/-- The loop of `collectBlocks`. -/
def collectLoop (P : Prims) (a : Answers) (r : Request) :
    Nat → Nat → List (Nat × Blocker) → Except Fault Collected
  | _, maxNumber, [] => .ok (.finish maxNumber)
  | blockNumber, maxNumber, e :: es =>
      if e.2.body.isNull || e.2.head.isNull then .ok (.finish maxNumber)
      else
        match BlockHeader.ofHeader P e.2.head with
        | none => .ok .quit
        | some header =>
            let number := header.number % 2 ^ 32
            if number ≠ e.1 then .error .assertion
            else
              match a.importBlock number with
              | none => .error .assertion
              | some .alreadyKnown =>
                  if a.statusAfter number = .ready ∨ a.statusAfter number = .importing then
                    collectLoop P a r (nextNumber blockNumber) (max maxNumber number) es
                  else if a.statusAfter number = .unknownParent ∧ e.1 ≠ blockNumber then
                    if header.hash ≠ 0 ∧ a.isKnown header.hash then .error .assertion
                    else if number = r.upNumber then .ok .quit
                    else if r.upTime ≤ e.2.time then .ok .clear
                    else .ok (.removeUnder (nextNumber number))
                  else .ok (.finish maxNumber)
              | some .alreadyInChain =>
                  collectLoop P a r (nextNumber blockNumber) (max maxNumber number) es
              | some .success =>
                  collectLoop P a r (nextNumber blockNumber) (max maxNumber number) es
              | some .malformed => .error .assertion
              | some .badChain => .ok (.finish maxNumber)
              | some .futureTimeUnknown => .ok (.finish maxNumber)
              | some .unknownParent => .ok (.finish maxNumber)
              | some .futureTimeKnown => .ok (.finish maxNumber)
              | some .overbidGasPrice =>
                  collectLoop P a r (nextNumber blockNumber) maxNumber es
              | some .zeroSignature =>
                  collectLoop P a r (nextNumber blockNumber) maxNumber es

/-- What `collectBlocks` removes in the end. -/
def finishCollect (P : Prims) (r : Request) : Collected → Request
  | .quit => r
  | .clear => r.clear
  | .removeUnder number => r.removeUnder P number
  | .finish maxNumber =>
      if maxNumber = 0 then r
      else if r.upNumber ≤ maxNumber then r.clear
      else r.removeUnder P maxNumber

/-- `collectBlocks`. -/
def collectBlocks (P : Prims) (a : Answers) (r : Request) : Except Fault Request :=
  let r := r.clearNeedless P a
  if r.blocks.isEmpty then .ok r
  else
    match collectStart r.blocks.toList with
    | none => .error .endIterator
    | some entries =>
        (collectLoop P a r ((entries.head?.map (·.1)).getD 0) 0 entries).map (finishCollect P r)

/-! ## Asking peers -/

/-- `REQUEST_BODY_TIMEOUT`. -/
def requestBodyTimeout : Nat := 10000

/-- The loop of `requestBodys`, over the entries without a gap. -/
def requestBodysLoop (limit now : Nat) :
    Nat → List (Nat × Blocker) → List H256 → Request → Request × List H256
  | _, [], bodys, r => (r, bodys)
  | number, e :: es, bodys, r =>
      if limit ≤ bodys.length ∨ number ≠ e.1 then (r, bodys)
      else if !e.2.body.isNull then requestBodysLoop limit now (number + 1) es bodys r
      else
        requestBodysLoop limit now (number + 1) es (bodys ++ [e.2.hash])
          { r with
            blocks := r.blocks.insert e.1 { e.2 with bodyTimeout := now + requestBodyTimeout } }

/-- `requestBodys`. -/
def requestBodys (limit now : Nat) (r : Request) : Request × List H256 :=
  requestBodysLoop limit now r.underNumber r.blocks.toList [] r

/-- The first gap in the entries: the number missing and the number of the entry
after it. -/
def firstGap : Nat → List (Nat × Blocker) → Option (Nat × Nat)
  | _, [] => none
  | number, e :: es => if e.1 = number then firstGap (number + 1) es else some (number, e.1)

/-- `requestHeads`. -/
def requestHeads (r : Request) : Except Fault (Nat × Nat) :=
  match r.blocks.toList with
  | [] => .ok (0, 0)
  | e :: es =>
      match firstGap (e.1 + 1) es with
      | none => .ok (0, e.1)
      | some (number, next) =>
          if next ≤ number then .error .assertion else .ok (number, next - number)

/-! ## Operations -/

/-- The operations that change the buffer. -/
inductive Op where
  | insertHead (now : Nat) (id : NodeID) (item : Rlp)
  | insertBlock (now : Nat) (id : NodeID) (block : Rlp)
  | insertBody (body : Rlp)
  | removeUnder (number : Nat)
  | clear
  | collectBlocks (answers : Answers)
  | requestBodys (limit now : Nat)

/-- One operation. -/
def step (P : Prims) (r : Request) : Op → Except Fault Request
  | .insertHead now id item => r.insertHead P now id item
  | .insertBlock now id block => r.insertBlock P now id block
  | .insertBody body => r.insertBody P body
  | .removeUnder number => .ok (r.removeUnder P number)
  | .clear => .ok r.clear
  | .collectBlocks answers => r.collectBlocks P answers
  | .requestBodys limit now => .ok (r.requestBodys limit now).1

end Request

end CppSwc
