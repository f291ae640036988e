import CppSwc.Core.BlockHeader
import CppSwc.Core.Common
import CppSwc.Lib.Run
import CppSwc.Lib.Worklist

/-!
# The block queue

`BlockQueue` takes in blocks in any order and hands them to the chain parents first.
A block waits in `unknown` until its parent is ready, then goes through `unverified`,
`verifying` and `verified`, and is drained.  Four sets of hashes say where a block is.
Each function is the member function of the same name.

* A block is a byte string with the header it decodes to.  Whether `verifyBlock` throws
  is an answer from outside.
* While a block is verified its place in `verifying` is held by a header without block
  data, with the hash of the block in the field `sha3Uncles`.
* `removeIf` returns the elements that `std::remove_if` has left behind the new end, of
  which the standard only says that they are valid.  They are arbitrary here, and what
  holds along runs holds whatever they are.  What implementations leave there is
  `leftBehind`, and `leaves` says of an operation that it is this.
* A verifier takes a block out of `unverified` under `m_verification` alone, so it may
  do so between two rounds of `doneDrain`.  Everywhere else this step can as well come
  before or after the whole operation.
* `tick` gives up the lock before it imports, so the imports are operations of their own.
-/

namespace CppSwc

open Lib Std

/-- A byte string that decodes as a block, with its header. -/
structure Block where
  info : BlockHeader
  bytes : Bytes
deriving DecidableEq

/-- `UnverifiedBlock`. -/
structure UnverifiedBlock where
  hash : H256
  parentHash : H256
  blockData : Block
deriving DecidableEq

/-- `VerifiedBlock`.  Without block data it holds a place in `verifying`. -/
structure VerifiedBlock where
  info : BlockHeader
  blockData : Bytes
deriving DecidableEq

namespace VerifiedBlock

/-- The verification is finished. -/
def isFinished (b : VerifiedBlock) : Bool := !b.blockData.isEmpty

/-- The hash of a block of `verifying`. -/
def heldHash (b : VerifiedBlock) : H256 :=
  if b.isFinished then b.info.hash else b.info.sha3Uncles

/-- The place of a block while it is verified.  The other fields are not looked at. -/
def placeOf (work : UnverifiedBlock) : VerifiedBlock where
  info := {
    parentHash := work.parentHash
    sha3Uncles := work.hash
    author := 0
    stateRoot := 0
    transactionsRoot := 0
    receiptsRoot := 0
    logBloom := 0
    difficulty := 0
    number := 0
    gasLimit := 0
    gasUsed := 0
    timestamp := 0
    extraData := []
    sealFields := []
    hash := 0 }
  blockData := []

/-- The block a successful verification returns. -/
def ofWork (work : UnverifiedBlock) : VerifiedBlock :=
  { info := work.blockData.info, blockData := work.blockData.bytes }

end VerifiedBlock

/-! ## Containers with a size -/

/-- `blockData.size()`, and what a move leaves of a block.  A header is copied, so it is
the data that go. -/
class HasBlockData (α : Type) where
  dataSize : α → BitVec 64
  movedFrom : α → α

instance : HasBlockData UnverifiedBlock where
  dataSize b := .ofNat 64 b.blockData.bytes.length
  movedFrom b := { b with blockData := { b.blockData with bytes := [] } }

instance : HasBlockData VerifiedBlock where
  dataSize b := .ofNat 64 b.blockData.length
  movedFrom b := { b with blockData := [] }

/-- `SizedBlockQueue`, with the total size in bytes. -/
structure SizedBlockQueue (α : Type) where
  queue : List α := []
  size : BitVec 64 := 0

namespace SizedBlockQueue

variable {α : Type} [HasBlockData α]

/-- The total size of some blocks. -/
def dataSizes (bs : List α) : BitVec 64 := bs.foldl (fun n b => n + HasBlockData.dataSize b) 0

/-- `enqueue`. -/
def enqueue (b : α) (s : SizedBlockQueue α) : SizedBlockQueue α :=
  { queue := s.queue ++ [b], size := s.size + HasBlockData.dataSize b }

/-- The queue `dequeue` leaves.  What it returns is the head. -/
def dequeue (s : SizedBlockQueue α) : SizedBlockQueue α :=
  match s.queue with
  | [] => s
  | b :: bs => { queue := bs, size := s.size - HasBlockData.dataSize b }

/-- `dequeueMultiple`. -/
def dequeueMultiple (n : Nat) (s : SizedBlockQueue α) : List α × SizedBlockQueue α :=
  (s.queue.take n, { queue := s.queue.drop n, size := s.size - dataSizes (s.queue.take n) })

/-- `removeIf`.  It returns as many blocks as it removes, and `tail` says which. -/
def removeIf (tail : Nat → α) (pred : α → Bool) (s : SizedBlockQueue α) :
    List α × SizedBlockQueue α :=
  let removed := (List.range (s.queue.countP pred)).map tail
  (removed, { queue := s.queue.filter (!pred ·), size := s.size - dataSizes removed })

/-- Where the elements end that `std::remove_if` keeps. -/
def newEnd (pred : α → Bool) (s : SizedBlockQueue α) : Nat := s.queue.countP (!pred ·)

/-- What implementations of `std::remove_if` leave behind the new end.  An element to
remove is where it was, and one to keep has been moved up. -/
def leftBehind (pred : α → Bool) (s : SizedBlockQueue α) : List α :=
  (s.queue.drop (s.newEnd pred)).map fun b => if pred b then b else HasBlockData.movedFrom b

/-- `tail` reads what is left behind. -/
def leaves [DecidableEq α] (tail : Nat → α) (pred : α → Bool) (s : SizedBlockQueue α) : Bool :=
  (s.removeIf tail pred).1 = s.leftBehind pred

/-- The list with the first element that meets `p` replaced. -/
def replaceFirst (p : α → Bool) (b : α) : List α → List α
  | [] => []
  | x :: xs => if p x then b :: xs else x :: replaceFirst p b xs

/-- `remove`. -/
def remove (tail : Nat → VerifiedBlock) (hash : H256) (s : SizedBlockQueue VerifiedBlock) :
    SizedBlockQueue VerifiedBlock :=
  (s.removeIf tail (·.info.sha3Uncles == hash)).2

/-- The first block that meets a condition is replaced, if there is one. -/
def replaceIf (pred : α → Bool) (b : α) (s : SizedBlockQueue α) : SizedBlockQueue α :=
  match s.queue.find? pred with
  | none => s
  | some old =>
      { queue := replaceFirst pred b s.queue
        size := s.size - HasBlockData.dataSize old + HasBlockData.dataSize b }

/-- `replace`. -/
def replace (hash : H256) (b : VerifiedBlock) (s : SizedBlockQueue VerifiedBlock) :
    SizedBlockQueue VerifiedBlock :=
  s.replaceIf (·.info.sha3Uncles == hash) b

end SizedBlockQueue

/-- `SizedBlockMap`, a multimap from keys to hashes and blocks. -/
structure SizedBlockMap (κ : Type) where
  map : List (κ × H256 × Block) := []
  size : BitVec 64 := 0

namespace SizedBlockMap

variable {κ : Type}

/-- The hashes of the blocks. -/
def hashes (m : SizedBlockMap κ) : List H256 := m.map.map fun e => e.2.1

/-- `insert`.  The block has been moved away when its size is added, which is zero then. -/
def insert [LE κ] [DecidableLE κ] (k : κ) (hash : H256) (b : Block) (m : SizedBlockMap κ) :
    SizedBlockMap κ :=
  { m with map := insertEntry k (hash, b) m.map }

/-- `removeRange`, with the entries that are removed and those that stay. -/
def removeRange (removed rest : List (κ × H256 × Block)) (m : SizedBlockMap κ) :
    SizedBlockMap κ :=
  { map := rest
    size := m.size - removed.foldl (fun n e => n + .ofNat 64 e.2.2.bytes.length) 0 }

end SizedBlockMap

/-- `BlockQueue`, with the blocks the verifiers are at. -/
structure BlockQueue where
  drainingSet : ExtTreeSet H256 := ∅
  readySet : ExtTreeSet H256 := ∅
  unknownSet : ExtTreeSet H256 := ∅
  unknown : SizedBlockMap H256 := {}
  knownBad : ExtTreeSet H256 := ∅
  future : SizedBlockMap Nat := {}
  verified : SizedBlockQueue VerifiedBlock := {}
  verifying : SizedBlockQueue VerifiedBlock := {}
  unverified : SizedBlockQueue UnverifiedBlock := {}
  difficulty : U256 := 0
  drainingDifficulty : U256 := 0
  working : List UnverifiedBlock := []

namespace BlockQueue

/-- A header's `difficulty()`. -/
def difficultyOf (info : BlockHeader) : U256 := .ofNat 256 info.difficulty

/-- `clear`. -/
def clear (q : BlockQueue) : BlockQueue :=
  { knownBad := q.knownBad, working := q.working }

/-! ## Verifiers -/

/-- The first half of `verifierBody`: a verifier takes a block. -/
def start (q : BlockQueue) : Option BlockQueue :=
  match q.unverified.queue with
  | [] => none
  | work :: _ => some { q with
      unverified := q.unverified.dequeue
      verifying := q.verifying.enqueue (.placeOf work)
      working := q.working ++ [work] }

/-- What becomes of a verified block at the head of `verifying`. -/
def accept (b : VerifiedBlock) (q : BlockQueue) : BlockQueue :=
  if q.knownBad.contains b.info.parentHash then
    { q with
      readySet := q.readySet.erase b.info.hash
      knownBad := q.knownBad.insert b.info.hash }
  else { q with verified := q.verified.enqueue b }

/-- The loop of `drainVerified_WITH_BOTH_LOCKS`. -/
def drainLoop : Nat → BlockQueue → BlockQueue
  | 0, q => q
  | n + 1, q =>
      match q.verifying.queue with
      | [] => q
      | b :: _ =>
          if b.isFinished then drainLoop n (accept b { q with verifying := q.verifying.dequeue })
          else q

/-- `drainVerified_WITH_BOTH_LOCKS`. -/
def drainVerified (q : BlockQueue) : BlockQueue := drainLoop q.verifying.queue.length q

/-- The rest of `verifierBody` if the verification throws. -/
def fail (tail : Nat → VerifiedBlock) (work : UnverifiedBlock) (q : BlockQueue) : BlockQueue :=
  drainVerified { q with
    readySet := q.readySet.erase work.hash
    knownBad := q.knownBad.insert work.hash
    verifying := q.verifying.remove tail work.hash }

/-- The rest of `verifierBody` if it succeeds. -/
def succeed (work : UnverifiedBlock) (q : BlockQueue) : BlockQueue :=
  let res := VerifiedBlock.ofWork work
  if q.verifying.queue.head?.any (·.info.sha3Uncles == work.hash) then
    drainVerified (accept res { q with verifying := q.verifying.dequeue })
  else { q with verifying := q.verifying.replace work.hash res }

/-- A verifier is done with the block it is at. -/
def finish (i : Nat) (good : Bool) (tail : Nat → VerifiedBlock) (q : BlockQueue) :
    Option BlockQueue :=
  match q.working[i]? with
  | none => none
  | some work =>
      let q := { q with working := q.working.eraseIdx i }
      some (if good then q.succeed work else q.fail tail work)

/-! ## Blocks with unknown parents -/

/-- A block of `unknown` whose parent is ready. -/
def unverifiedOf (e : H256 × H256 × Block) : UnverifiedBlock :=
  { hash := e.2.1, parentHash := e.1, blockData := e.2.2 }

/-- Blocks of `unknown` become ready, one after the other. -/
def release (entries : List (H256 × H256 × Block)) (q : BlockQueue) : BlockQueue :=
  { q with
    unverified := entries.foldl (fun s e => s.enqueue (unverifiedOf e)) q.unverified
    unknownSet := (entries.map fun e => e.2.1).foldl .erase q.unknownSet
    readySet := (entries.map fun e => e.2.1).foldl .insert q.readySet }

/-- The entries of `unknown` below a block, parents first, and the others. -/
def below (h : H256) (q : BlockQueue) :
    List (H256 × H256 × Block) × List (H256 × H256 × Block) :=
  gather Prod.fst (q.unknown.map.length + 1) [h] q.unknown.map

/-- `noteReady_WITH_LOCK`. -/
def noteReady (good : H256) (q : BlockQueue) : BlockQueue :=
  release (q.below good).1 { q with
    unknown := q.unknown.removeRange (q.below good).1 (q.below good).2 }

/-- The loop of `retryAllUnknown`. -/
def retryLoop : Nat → BlockQueue → BlockQueue
  | 0, q => q
  | n + 1, q =>
      match q.unknown.map with
      | [] => q
      | e :: _ =>
          let removed := q.unknown.map.filter fun e' => e'.1 = e.1
          let rest := q.unknown.map.filter fun e' => e'.1 ≠ e.1
          retryLoop n (release removed { q with unknown := q.unknown.removeRange removed rest })

/-- `retryAllUnknown`. -/
def retryAllUnknown (q : BlockQueue) : BlockQueue := retryLoop q.unknown.map.length q

/-! ## Bad blocks -/

/-- `collectUnknownBad_WITH_BOTH_LOCKS`. -/
def collectUnknownBad (bad : H256) (q : BlockQueue) : BlockQueue :=
  let hashes := (q.below bad).1.map fun e => e.2.1
  { q with
    unknown := q.unknown.removeRange (q.below bad).1 (q.below bad).2
    unknownSet := hashes.foldl .erase q.unknownSet
    knownBad := hashes.foldl .insert q.knownBad }

/-- What `removeIf` returns, in one round of `updateBad`. -/
structure Tails where
  verified : Nat → VerifiedBlock
  unverified : Nat → UnverifiedBlock
  verifying : Nat → VerifiedBlock

/-- The hash of a removed block is noted, and the blocks below it are collected. -/
def condemn (h : H256) (q : BlockQueue) : BlockQueue :=
  { q with
    knownBad := q.knownBad.insert h
    readySet := q.readySet.erase h }.collectUnknownBad h

/-- A block of `verified` is to be removed. -/
def badVerified (q : BlockQueue) (b : VerifiedBlock) : Bool :=
  q.knownBad.contains b.info.parentHash || q.knownBad.contains b.info.hash

/-- A block of `unverified` is to be removed. -/
def badUnverified (q : BlockQueue) (b : UnverifiedBlock) : Bool :=
  q.knownBad.contains b.parentHash || q.knownBad.contains b.hash

/-- A block of `verifying` is to be removed.  If it is finished, `sha3Uncles` is not its
hash. -/
def badVerifying (q : BlockQueue) (b : VerifiedBlock) : Bool :=
  q.knownBad.contains b.info.parentHash || q.knownBad.contains b.info.sha3Uncles

/-- The removed blocks of one of the queues are condemned. -/
def condemnAll (hashes : List H256) (q : BlockQueue) : BlockQueue :=
  hashes.foldl (fun q h => q.condemn h) q

/-- The part of a round of `updateBad` for `verified`, and whether it finds a bad block. -/
def dropVerified (tail : Nat → VerifiedBlock) (q : BlockQueue) : BlockQueue × Bool :=
  let removed := q.verified.removeIf tail q.badVerified
  (condemnAll (removed.1.map (·.info.hash)) { q with verified := removed.2 }, !removed.1.isEmpty)

/-- The part for `unverified`. -/
def dropUnverified (tail : Nat → UnverifiedBlock) (q : BlockQueue) : BlockQueue × Bool :=
  let removed := q.unverified.removeIf tail q.badUnverified
  (condemnAll (removed.1.map (·.hash)) { q with unverified := removed.2 }, !removed.1.isEmpty)

/-- The part for `verifying`. -/
def dropVerifying (tail : Nat → VerifiedBlock) (q : BlockQueue) : BlockQueue × Bool :=
  let removed := q.verifying.removeIf tail q.badVerifying
  (condemnAll (removed.1.map (·.heldHash)) { q with verifying := removed.2 }, !removed.1.isEmpty)

/-- One round of `updateBad`, and `moreBad`. -/
def updateRound (tails : Tails) (q : BlockQueue) : BlockQueue × Bool :=
  let r₁ := q.dropVerified tails.verified
  let r₂ := r₁.1.dropUnverified tails.unverified
  let r₃ := r₂.1.dropVerifying tails.verifying
  (r₃.1, r₁.2 || r₂.2 || r₃.2)

/-- The blocks in the three queues. -/
def knownCount (q : BlockQueue) : Nat :=
  q.verified.queue.length + q.unverified.queue.length + q.verifying.queue.length

/-- The loop of `updateBad`.  A round that goes on has removed a block. -/
def updateLoop (tails : Nat → Tails) : Nat → BlockQueue → BlockQueue
  | 0, q => q
  | n + 1, q =>
      let (q, more) := q.updateRound (tails n)
      if more then updateLoop tails n q else q

/-- `updateBad_WITH_LOCK`. -/
def updateBad (tails : Nat → Tails) (bad : H256) (q : BlockQueue) : BlockQueue :=
  updateLoop tails (q.knownCount + 1) (q.collectUnknownBad bad)

/-! ## The operations -/

/-- What `import` is told by the chain and by the clock. -/
structure Env where
  isKnown : H256 → Bool
  /-- `verifyBlock` does not throw. -/
  verified : Bool
  utcTime : Nat
  tails : Nat → Tails

/-- Neither the queue nor the chain knows a parent. -/
def isUnknown (env : Env) (parent : H256) (q : BlockQueue) : Bool :=
  !q.readySet.contains parent && !q.drainingSet.contains parent && !env.isKnown parent

/-- The answer of `import`. -/
def importResult (env : Env) (b : Block) (isOurs : Bool) (q : BlockQueue) : ImportResult :=
  if q.readySet.contains b.info.hash || q.drainingSet.contains b.info.hash ||
      q.unknownSet.contains b.info.hash || q.knownBad.contains b.info.hash then .alreadyKnown
  else if !env.verified || b.bytes.isEmpty then .malformed
  else if env.isKnown b.info.hash then .alreadyInChain
  else if env.utcTime < b.info.timestamp && !isOurs then
    if q.isUnknown env b.info.parentHash then .futureTimeUnknown else .futureTimeKnown
  else if q.knownBad.contains b.info.parentHash then .badChain
  else if q.isUnknown env b.info.parentHash then .unknownParent
  else .success

/-- `import`. -/
def «import» (env : Env) (b : Block) (isOurs : Bool) (q : BlockQueue) : BlockQueue :=
  match q.importResult env b isOurs with
  | .futureTimeKnown | .futureTimeUnknown => { q with
      future := q.future.insert b.info.timestamp b.info.hash b
      difficulty := q.difficulty + difficultyOf b.info }
  | .badChain => { q with knownBad := q.knownBad.insert b.info.hash }.updateBad env.tails b.info.hash
  | .unknownParent => { q with
      unknown := q.unknown.insert b.info.parentHash b.info.hash b
      unknownSet := q.unknownSet.insert b.info.hash
      difficulty := q.difficulty + difficultyOf b.info }
  | .success =>
      { q with
        unverified := q.unverified.enqueue
          { hash := b.info.hash, parentHash := b.info.parentHash, blockData := b }
        readySet := q.readySet.insert b.info.hash
        difficulty := q.difficulty + difficultyOf b.info }.noteReady b.info.hash
  | _ => q

/-- `tick`, up to the imports, with the blocks to import. -/
def tick (utcTime : Nat) (q : BlockQueue) : List (H256 × Block) × BlockQueue :=
  let removed := q.future.map.filter fun e => e.1 ≤ utcTime
  let rest := q.future.map.filter fun e => ¬ e.1 ≤ utcTime
  (removed.map Prod.snd, { q with future := q.future.removeRange removed rest })

/-- `drain`, with the batch it hands out. -/
def drain (max : Nat) (q : BlockQueue) : List VerifiedBlock × BlockQueue :=
  if q.drainingSet.isEmpty then
    let out := q.verified.dequeueMultiple (min max q.verified.queue.length)
    (out.1, { q with
      verified := out.2
      drainingSet := (out.1.map (·.info.hash)).foldl .insert q.drainingSet
      drainingDifficulty := out.1.foldl (fun n b => n + difficultyOf b.info) 0
      readySet := (out.1.map (·.info.hash)).foldl .erase q.readySet })
  else ([], q)

/-- What may happen during `doneDrain`. -/
structure DoneEnv where
  /-- How many blocks the verifiers take before each call of `updateBad`. -/
  starts : Nat → Nat := fun _ => 0
  tails : Nat → Nat → Tails

/-- Verifiers take some blocks. -/
def startMany : Nat → BlockQueue → BlockQueue
  | 0, q => q
  | n + 1, q => startMany n (q.start.getD q)

/-- The loop of `doneDrain`. -/
def updateBads (env : DoneEnv) : Nat → List H256 → BlockQueue → BlockQueue
  | _, [], q => q
  | i, b :: bs, q => updateBads env (i + 1) bs ((startMany (env.starts i) q).updateBad (env.tails i) b)

/-- The first part of `doneDrain`: the drained blocks are forgotten, and the bad ones
noted. -/
def noteDone (bad : List H256) (q : BlockQueue) : BlockQueue :=
  { q with
    drainingSet := ∅
    difficulty := q.difficulty - q.drainingDifficulty
    drainingDifficulty := 0
    knownBad := bad.foldl .insert q.knownBad }

/-- `doneDrain`. -/
def doneDrain (env : DoneEnv) (bad : List H256) (q : BlockQueue) : BlockQueue :=
  updateBads env 0 bad (q.noteDone bad)

/-- The operations and the steps of the verifiers. -/
inductive Op where
  | import (env : Env) (b : Block) (isOurs : Bool)
  | tick (utcTime : Nat)
  | noteReady (good : H256)
  | retryAllUnknown
  | drain (max : Nat)
  | doneDrain (env : DoneEnv) (bad : List H256)
  | clear
  | start
  | finish (i : Nat) (good : Bool) (tail : Nat → VerifiedBlock)

/-- One step. -/
def step (q : BlockQueue) : Op → Option BlockQueue
  | .import env b isOurs => some (q.import env b isOurs)
  | .tick utcTime => some (q.tick utcTime).2
  | .noteReady good => some (q.noteReady good)
  | .retryAllUnknown => some q.retryAllUnknown
  | .drain max => some (q.drain max).2
  | .doneDrain env bad => some (q.doneDrain env bad)
  | .clear => some q.clear
  | .start => q.start
  | .finish i good tail => q.finish i good tail

/-- All runs of the queue. -/
def system : System BlockQueue Op where
  init q := q = {}
  step := step

/-! ## What is left behind -/

/-- A round of `updateBad` meets what `std::remove_if` leaves. -/
def roundLeaves (tails : Tails) (q : BlockQueue) : Bool :=
  let q₁ := (q.dropVerified tails.verified).1
  let q₂ := (q₁.dropUnverified tails.unverified).1
  q.verified.leaves tails.verified q.badVerified &&
    q₁.unverified.leaves tails.unverified q₁.badUnverified &&
    q₂.verifying.leaves tails.verifying q₂.badVerifying

/-- So do the rounds of its loop. -/
def loopLeaves (tails : Nat → Tails) : Nat → BlockQueue → Bool
  | 0, _ => true
  | n + 1, q => q.roundLeaves (tails n) &&
      (!(q.updateRound (tails n)).2 || loopLeaves tails n (q.updateRound (tails n)).1)

/-- So does a call of `updateBad`. -/
def badLeaves (tails : Nat → Tails) (bad : H256) (q : BlockQueue) : Bool :=
  loopLeaves tails (q.knownCount + 1) (q.collectUnknownBad bad)

/-- So do the calls in `doneDrain`. -/
def badsLeave (env : DoneEnv) : Nat → List H256 → BlockQueue → Bool
  | _, [], _ => true
  | i, b :: bs, q =>
      let q := startMany (env.starts i) q
      q.badLeaves (env.tails i) b && badsLeave env (i + 1) bs (q.updateBad (env.tails i) b)

/-- An operation meets what implementations of `std::remove_if` leave. -/
def leaves (q : BlockQueue) : Op → Bool
  | .import env b isOurs => q.importResult env b isOurs != .badChain ||
      { q with knownBad := q.knownBad.insert b.info.hash }.badLeaves env.tails b.info.hash
  | .doneDrain env bad => badsLeave env 0 bad (q.noteDone bad)
  | .finish i good tail => good || (q.working[i]?).all fun work =>
      q.verifying.leaves tail (·.info.sha3Uncles == work.hash)
  | _ => true

/-! ## Blocks to evaluate on -/

/-- A block with given hashes. -/
def sampleBlock (hash parentHash : H256) : Block :=
  { info := { BlockHeader.sample 0 0 with
      hash := hash
      parentHash := parentHash }
    bytes := [0] }

/-- Blocks with a given hash behind the new end. -/
def strayTails (h : H256) : Tails :=
  { verified := fun _ => ⟨(sampleBlock h h).info, [0]⟩
    unverified := fun _ => ⟨h, h, sampleBlock h h⟩
    verifying := fun _ => ⟨(sampleBlock h h).info, [0]⟩ }

/-- The import of a block by a chain that knows the blocks of a list. -/
def sampleImport (known : List H256) (hash parentHash : H256) : Op :=
  .import { isKnown := known.contains, verified := true, utcTime := 0, tails := fun _ => strayTails 0 }
    (sampleBlock hash parentHash) false

/-- A verifier takes the next block and is done with it. -/
def sampleVerify (good : Bool) : List Op :=
  [.start, .finish 0 good (strayTails 0).verifying]

end BlockQueue

end CppSwc
