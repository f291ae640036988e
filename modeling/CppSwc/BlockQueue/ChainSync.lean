import CppSwc.BlockQueue.Drained

/-!
# Blocks handed to the chain

`BlockChain::sync` drains a batch, imports its blocks one after the other, and hands the
bad ones back to `doneDrain`.  Other threads use the queue meanwhile, so every block is a
step of its own here.

A block whose import fails with `FutureTime` or `TransientError` is to be tried again: the
loop says `continue`.  But the loop around the `try` is `do … while (false)`, and so
`continue` goes on to the next block of the batch.  The queue forgets the block at
`doneDrain`, and a child of it finds no parent in the chain and is condemned.

Where no import fails in such a way, the queue hands out every block behind its parent,
and what is condemned descends from a block that was found invalid.  `Rests` is what the
queue keeps of this and `Sound` what holds in every state.
-/

namespace CppSwc

open Lib Std

/-! ## The loop of `sync` -/

/-- How `BlockChain::import` ends. -/
inductive ImportOutcome where
  | success
  | alreadyHaveBlock
  | unknownParent
  | futureTime
  | transientError
  | invalid
deriving DecidableEq

/-- How the enactment of a block ends.  The parent of an uncle may be beyond the head. -/
inductive Enactment where
  | done
  | badRoot
  | unknownParent
  | throws
deriving DecidableEq

/-- What `import` is told by the clock, the chain and the checks of the block. -/
structure ImportChecks where
  /-- The number of a known block is not above that of the head. -/
  isCurrent : H256 → Bool
  utcTime : Nat
  allowFutureBlocks : Bool
  /-- `verifyBlock` does not throw. -/
  verified : Bool
  enactment : Enactment

namespace ImportChecks

/-- `checkBlockTimestamp` and what follows it in `import`.  A bad root is turned into a
transient error. -/
def outcome (checks : ImportChecks) (b : VerifiedBlock) : ImportOutcome :=
  if checks.utcTime < b.info.timestamp && !checks.allowFutureBlocks then .futureTime
  else if !checks.verified then .invalid
  else match checks.enactment with
    | .done => .success
    | .badRoot => .transientError
    | .unknownParent => .unknownParent
    | .throws => .invalid

end ImportChecks

/-- The chain, the queue and the thread in `sync`, with what has happened so far. -/
structure ChainSync where
  queue : BlockQueue := {}
  /-- The blocks in the database. -/
  known : ExtTreeSet H256 := ∅
  /-- What is left of the batch, while a `sync` is under way. -/
  batch : Option (List VerifiedBlock) := none
  badBlocks : List H256 := []
  /-- All blocks that have been drained. -/
  drained : List H256 := []
  /-- Blocks whose own import found them invalid. -/
  invalid : List H256 := []
  /-- Blocks that have been handed to `doneDrain`. -/
  condemned : List H256 := []

namespace ChainSync

/-- How the import of a block ends. -/
def outcome (s : ChainSync) (checks : ImportChecks) (b : VerifiedBlock) : ImportOutcome :=
  if s.known.contains b.info.hash && checks.isCurrent b.info.hash then .alreadyHaveBlock
  else if !s.known.contains b.info.parentHash then .unknownParent
  else checks.outcome b

/-- The body of the loop. -/
def importNext (s : ChainSync) (checks : ImportChecks) (b : VerifiedBlock)
    (rest : List VerifiedBlock) : ChainSync :=
  match s.outcome checks b with
  | .success => { s with
      batch := some rest
      known := s.known.insert b.info.hash }
  | .alreadyHaveBlock | .futureTime | .transientError => { s with batch := some rest }
  | .unknownParent => { s with
      batch := some rest
      badBlocks := s.badBlocks ++ [b.info.hash] }
  | .invalid => { s with
      batch := some rest
      badBlocks := s.badBlocks ++ [b.info.hash]
      invalid := b.info.hash :: s.invalid }

/-- The queue asks the chain what it knows. -/
def ofChain (s : ChainSync) (env : BlockQueue.Env) : BlockQueue.Env :=
  { env with isKnown := fun h => s.known.contains h && env.isKnown h }

/-- The steps of `sync`, and those of the other users of the queue. -/
inductive Op where
  | queue (op : BlockQueue.Op)
  | drain (max : Nat)
  | importNext (checks : ImportChecks)
  | doneDrain (env : BlockQueue.DoneEnv)

/-- One step.  A hash stands for one header, and so for one parent. -/
def step (parentOf : H256 → H256) (s : ChainSync) : Op → Option ChainSync
  | .queue (.import env b isOurs) =>
      if b.info.parentHash = parentOf b.info.hash then
        some { s with queue := s.queue.import (s.ofChain env) b isOurs }
      else none
  | .queue (.drain _) | .queue (.doneDrain _ _) => none
  | .queue op => (s.queue.step op).map fun q => { s with queue := q }
  | .drain max =>
      match s.batch with
      | some _ => none
      | none => some { s with
          queue := (s.queue.drain max).2
          batch := some (s.queue.drain max).1
          drained := s.drained ++ (s.queue.drain max).1.map (·.info.hash) }
  | .importNext checks =>
      match s.batch with
      | some (b :: rest) => some (s.importNext checks b rest)
      | _ => none
  | .doneDrain env =>
      match s.batch with
      | some [] => some { s with
          queue := s.queue.doneDrain env s.badBlocks
          batch := none
          badBlocks := []
          condemned := s.condemned ++ s.badBlocks }
      | _ => none

/-- All runs from an empty queue, over any chain. -/
def system (parentOf : H256 → H256) : System ChainSync Op where
  init s := ∃ known, s = { known := known }
  step := step parentOf

end ChainSync

namespace BlockQueue

/-! ## Parents first -/

variable {parentOf : H256 → H256} {roots roots' : H256 → Prop} {q q' : BlockQueue} {h : H256}

/-- The hashes of `verified`. -/
def verifiedHashes (q : BlockQueue) : List H256 := q.verified.queue.map (·.info.hash)

/-- The hashes of `verifying` and `unverified`. -/
def waitingHashes (q : BlockQueue) : List H256 :=
  q.verifying.queue.map (·.heldHash) ++ q.unverified.queue.map (·.hash)

/-- A block is kept with the parent of its hash. -/
def Linked (parentOf : H256 → H256) (hash parentHash : H256) (b : Block) : Prop :=
  parentHash = parentOf hash ∧ b.info.parentHash = parentOf hash

/-- The queue holds blocks behind their parents, if these are not among the roots.  The
parent of a block that is not verified may have turned out to be bad. -/
structure Rests (parentOf : H256 → H256) (roots : H256 → Prop) (q : BlockQueue) : Prop where
  verified : ParentsFirst parentOf roots q.verifiedHashes
  waiting : ParentsFirst parentOf (fun h => roots h ∨ h ∈ q.verifiedHashes ∨ h ∈ q.knownBad)
    q.waitingHashes
  verifiedLinked : ∀ b ∈ q.verified.queue, b.info.parentHash = parentOf b.info.hash
  verifyingLinked : ∀ b ∈ q.verifying.queue, b.info.parentHash = parentOf b.heldHash
  unverifiedLinked : ∀ w ∈ q.unverified.queue, Linked parentOf w.hash w.parentHash w.blockData
  workingLinked : ∀ w ∈ q.working, Linked parentOf w.hash w.parentHash w.blockData
  unknownLinked : ∀ e ∈ q.unknown.map, Linked parentOf e.2.1 e.1 e.2.2

theorem rests_empty : Rests parentOf roots {} where
  verified := trivial
  waiting := trivial
  verifiedLinked := by simp
  verifyingLinked := by simp
  unverifiedLinked := by simp
  workingLinked := by simp
  unknownLinked := by simp

theorem Rests.mono (hroots : ∀ h, roots h → roots' h) (hq : q.Rests parentOf roots) :
    q.Rests parentOf roots' :=
  { hq with
    verified := hq.verified.mono hroots
    waiting := hq.waiting.mono fun h hh => hh.imp_left (hroots h) }

/-- A change to the rest of the queue, by which more hashes may become bad and fewer
blocks may wait for a parent. -/
theorem Rests.congr (hq : q.Rests parentOf roots) (hverified : q'.verified = q.verified)
    (hverifying : q'.verifying = q.verifying) (hunverified : q'.unverified = q.unverified)
    (hbad : ∀ h ∈ q.knownBad, h ∈ q'.knownBad) (hworking : ∀ w ∈ q'.working, w ∈ q.working)
    (hunknown : ∀ e ∈ q'.unknown.map, e ∈ q.unknown.map) : q'.Rests parentOf roots where
  verified := by
    rw [verifiedHashes, hverified]
    exact hq.verified
  waiting := by
    rw [verifiedHashes, waitingHashes, hverified, hverifying, hunverified]
    exact hq.waiting.mono fun h hh => hh.imp_right (.imp_right (hbad h))
  verifiedLinked := by
    rw [hverified]
    exact hq.verifiedLinked
  verifyingLinked := by
    rw [hverifying]
    exact hq.verifyingLinked
  unverifiedLinked := by
    rw [hunverified]
    exact hq.unverifiedLinked
  workingLinked := fun w hw => hq.workingLinked w (hworking w hw)
  unknownLinked := fun e he => hq.unknownLinked e (hunknown e he)

/-! ### Verifiers -/

theorem Rests.start (hq : q.Rests parentOf roots) (hstart : q.start = some q') :
    q'.Rests parentOf roots := by
  rw [BlockQueue.start] at hstart
  cases hqueue : q.unverified.queue with
  | nil =>
      rw [hqueue] at hstart
      cases hstart
  | cons w ws =>
      rw [hqueue] at hstart
      cases hstart
      have hunverified : q.unverified.dequeue.queue = ws := by
        rw [SizedBlockQueue.dequeue, hqueue]
      have hlinked := hq.unverifiedLinked
      rw [hqueue] at hlinked
      refine ⟨hq.verified, ?_, hq.verifiedLinked, ?_, ?_, ?_, hq.unknownLinked⟩
      · -- The block is held at the same place in the order.
        have hwaiting := hq.waiting
        rw [waitingHashes, hqueue] at hwaiting
        simp only [waitingHashes, hunverified, SizedBlockQueue.enqueue, List.map_append,
          List.map_cons, List.map_nil, List.append_assoc, List.cons_append, List.nil_append]
        exact hwaiting
      · intro b hb
        rcases List.mem_append.mp hb with hb | hb
        · exact hq.verifyingLinked b hb
        · cases List.mem_singleton.mp hb
          exact (hlinked w (.head _)).1
      · intro w' hw'
        rw [hunverified] at hw'
        exact hlinked w' (.tail _ hw')
      · intro w' hw'
        rcases List.mem_append.mp hw' with hw' | hw'
        · exact hq.workingLinked w' hw'
        · cases List.mem_singleton.mp hw'
          exact hlinked w (.head _)

theorem Rests.startMany (hq : q.Rests parentOf roots) (n : Nat) :
    (startMany n q).Rests parentOf roots := by
  induction n generalizing q with
  | zero => exact hq
  | succ n ih =>
      refine ih ?_
      cases hstart : q.start with
      | none => exact hq
      | some q' => exact hq.start hstart

/-- The block at the head of `verifying` follows its parent into `verified`, or is bad as
its parent is. -/
theorem Rests.accept {e b : VerifiedBlock} {es : List VerifiedBlock}
    (hq : q.Rests parentOf roots) (hqueue : q.verifying.queue = e :: es)
    (hhash : e.heldHash = b.info.hash) (hb : b.info.parentHash = parentOf b.info.hash) :
    (accept b { q with verifying := q.verifying.dequeue }).Rests parentOf roots := by
  have hdequeue : q.verifying.dequeue.queue = es := by rw [SizedBlockQueue.dequeue, hqueue]
  have hverifying := hq.verifyingLinked
  rw [hqueue] at hverifying
  have hwaiting := hq.waiting
  rw [waitingHashes, hqueue, List.map_cons, List.cons_append, hhash] at hwaiting
  rw [BlockQueue.accept]
  split
  · refine ⟨hq.verified, ?_, hq.verifiedLinked, ?_, hq.unverifiedLinked, hq.workingLinked,
      hq.unknownLinked⟩
    · rw [waitingHashes, hdequeue]
      refine hwaiting.tail ?_ ?_
      · rintro h rfl
        exact .inr (.inr (mem_insert_iff.mpr (.inl rfl)))
      · intro h hh
        exact hh.imp_right (.imp_right fun hbad => mem_insert_iff.mpr (.inr hbad))
    · intro b' hb'
      rw [hdequeue] at hb'
      exact hverifying b' (.tail _ hb')
  · rename_i hgood
    rw [ExtTreeSet.contains_iff_mem] at hgood
    have hmap : verifiedHashes { q with
        verifying := q.verifying.dequeue
        verified := q.verified.enqueue b } = q.verifiedHashes ++ [b.info.hash] := by
      rw [verifiedHashes, verifiedHashes, SizedBlockQueue.enqueue, List.map_append]
      rfl
    refine ⟨?_, ?_, ?_, ?_, hq.unverifiedLinked, hq.workingLinked, hq.unknownLinked⟩
    · rw [hmap, parentsFirst_append]
      refine ⟨hq.verified, ?_, trivial⟩
      have hparent := hwaiting.1
      rw [← hb] at hparent ⊢
      exact hparent.imp_right fun hh => hh.resolve_right hgood
    · rw [hmap, waitingHashes, hdequeue]
      refine hwaiting.tail ?_ ?_
      · rintro h rfl
        exact .inr (.inl (List.mem_append_right _ (.head _)))
      · intro h hh
        exact hh.imp_right (.imp_left (List.mem_append_left _))
    · intro b' hb'
      rcases List.mem_append.mp hb' with hb' | hb'
      · exact hq.verifiedLinked b' hb'
      · cases List.mem_singleton.mp hb'
        exact hb
    · intro b' hb'
      rw [hdequeue] at hb'
      exact hverifying b' (.tail _ hb')

theorem Rests.drainLoop (hq : q.Rests parentOf roots) (n : Nat) :
    (drainLoop n q).Rests parentOf roots := by
  induction n generalizing q with
  | zero => exact hq
  | succ n ih =>
      rw [BlockQueue.drainLoop]
      split
      · exact hq
      · rename_i b bs hqueue
        split
        · rename_i hfinished
          have hheld : b.heldHash = b.info.hash := if_pos hfinished
          refine ih (hq.accept hqueue hheld ?_)
          rw [← hheld]
          exact hq.verifyingLinked b (hqueue ▸ List.mem_cons_self)
        · exact hq

theorem Rests.succeed {w : UnverifiedBlock} (hq : q.Rests parentOf roots)
    (hw : Named w.hash w.blockData) (hlinked : Linked parentOf w.hash w.parentHash w.blockData)
    (hapart : q.unclesApart w.hash = true) : (q.succeed w).Rests parentOf roots := by
  have hres : (VerifiedBlock.ofWork w).heldHash = w.hash := by
    have hfinished : (VerifiedBlock.ofWork w).isFinished = true := by
      simp [VerifiedBlock.isFinished, VerifiedBlock.ofWork, hw.2]
    rw [VerifiedBlock.heldHash, if_pos hfinished, hw.1]
    rfl
  rw [BlockQueue.succeed]
  split
  · rename_i hnext
    cases hqueue : q.verifying.queue with
    | nil =>
        rw [hqueue] at hnext
        cases hnext
    | cons e es =>
        rw [hqueue, List.head?_cons, Option.any_some, beq_iff_eq] at hnext
        have hheld := heldHash_of_unclesApart hapart (hqueue ▸ List.mem_cons_self) hnext
        refine (hq.accept hqueue (hheld.2.trans hw.1) ?_).drainLoop _
        show w.blockData.info.parentHash = parentOf w.blockData.info.hash
        rw [← hw.1]
        exact hlinked.2
  · have hmap : (q.verifying.replace w.hash (.ofWork w)).queue.map (·.heldHash) =
        q.verifying.queue.map (·.heldHash) := by
      rw [SizedBlockQueue.replace, SizedBlockQueue.replaceIf]
      split
      · rfl
      · refine map_replaceFirst ?_
        intro e he hhash
        rw [hres, (heldHash_of_unclesApart hapart he (beq_iff_eq.mp hhash)).2]
    refine ⟨hq.verified, ?_, hq.verifiedLinked, ?_, hq.unverifiedLinked, hq.workingLinked,
      hq.unknownLinked⟩
    · rw [waitingHashes, hmap]
      exact hq.waiting
    · intro b hb
      rcases mem_replace hb with hb | rfl
      · exact hq.verifyingLinked b hb
      · rw [hres]
        exact hlinked.2

theorem Rests.fail {w : UnverifiedBlock} {tail : Nat → VerifiedBlock}
    (hq : q.Rests parentOf roots) (hapart : q.unclesApart w.hash = true) :
    (q.fail tail w).Rests parentOf roots := by
  refine Rests.drainLoop ?_ _
  refine ⟨hq.verified, ?_, hq.verifiedLinked, ?_, hq.unverifiedLinked, hq.workingLinked,
    hq.unknownLinked⟩
  · refine ParentsFirst.filter ?_ (hq.waiting.mono ?_)
    · intro b hb hhash
      rw [Bool.not_eq_false', beq_iff_eq] at hhash
      rw [(heldHash_of_unclesApart hapart hb hhash).2]
      exact .inr (.inr (mem_insert_iff.mpr (.inl rfl)))
    · intro h hh
      exact hh.imp_right (.imp_right fun hbad => mem_insert_iff.mpr (.inr hbad))
  · intro b hb
    exact hq.verifyingLinked b (List.mem_filter.mp hb).1

theorem Rests.finish {i : Nat} {good : Bool} {tail : Nat → VerifiedBlock}
    (hq : q.Rests parentOf roots) (hkept : q.Kept)
    (hapart : ∀ w, q.working[i]? = some w → q.unclesApart w.hash = true)
    (hfinish : q.finish i good tail = some q') : q'.Rests parentOf roots := by
  rw [BlockQueue.finish] at hfinish
  cases hw : q.working[i]? with
  | none =>
      rw [hw] at hfinish
      cases hfinish
  | some w =>
      rw [hw] at hfinish
      cases hfinish
      have hmem := List.mem_of_getElem? hw
      have hq' : Rests parentOf roots { q with working := q.working.eraseIdx i } :=
        hq.congr rfl rfl rfl (fun _ hh => hh)
          (fun w' hw' => (List.eraseIdx_sublist _ _).subset hw') fun _ he => he
      cases good with
      | true => exact hq'.succeed (hkept.workingNamed w hmem) (hq.workingLinked w hmem) (hapart w hw)
      | false => exact hq'.fail (hapart w hw)

/-! ### Importing and draining -/

theorem Rests.noteReady (hq : q.Rests parentOf roots) (good : H256)
    (hgood : roots good ∨ good ∈ q.verifiedHashes ∨ good ∈ q.waitingHashes) :
    (q.noteReady good).Rests parentOf roots := by
  have hgathered := gathered_below q good
  have htaken : ∀ e ∈ (q.below good).1, e ∈ q.unknown.map := fun e he =>
    hgathered.perm.mem_iff.mp (List.mem_append_left _ he)
  have hmap : (q.noteReady good).waitingHashes =
      q.waitingHashes ++ (q.below good).1.map fun e => e.2.1 := by
    simp only [waitingHashes, BlockQueue.noteReady, release, foldl_enqueue_queue, List.map_append,
      List.map_map, List.append_assoc]
    rfl
  refine ⟨hq.verified, ?_, hq.verifiedLinked, hq.verifyingLinked, ?_, hq.workingLinked, ?_⟩
  · rw [hmap, parentsFirst_append]
    refine ⟨hq.waiting, ?_⟩
    have hparent : ∀ e ∈ (q.below good).1, parentOf e.2.1 = e.1 :=
      fun e he => (hq.unknownLinked e (htaken e he)).1.symm
    refine (hgathered.parentsFirst hparent).mono ?_
    · intro h hh
      cases List.mem_singleton.mp hh
      rcases hgood with hroot | hverified | hwaiting
      · exact .inl (.inl hroot)
      · exact .inl (.inr (.inl hverified))
      · exact .inr hwaiting
  · intro w hw
    rw [BlockQueue.noteReady, release, foldl_enqueue_queue] at hw
    rcases List.mem_append.mp hw with hw | hw
    · exact hq.unverifiedLinked w hw
    · obtain ⟨e, he, rfl⟩ := List.mem_map.mp hw
      exact hq.unknownLinked e (htaken e he)
  · intro e he
    exact hq.unknownLinked e (hgathered.perm.mem_iff.mp (List.mem_append_right _ he))

/-- A new block goes to the end of `unverified`. -/
theorem Rests.enqueue {b : Block} {difficulty : U256} (hq : q.Rests parentOf roots)
    (hb : b.info.parentHash = parentOf b.info.hash)
    (hparent : roots b.info.parentHash ∨ b.info.parentHash ∈ q.verifiedHashes ∨
      b.info.parentHash ∈ q.waitingHashes) :
    Rests parentOf roots { q with
      unverified := q.unverified.enqueue
        { hash := b.info.hash, parentHash := b.info.parentHash, blockData := b }
      readySet := q.readySet.insert b.info.hash
      difficulty := difficulty } := by
  refine ⟨hq.verified, ?_, hq.verifiedLinked, hq.verifyingLinked, ?_, hq.workingLinked,
    hq.unknownLinked⟩
  · simp only [waitingHashes, SizedBlockQueue.enqueue, List.map_append, List.map_cons, List.map_nil,
      ← List.append_assoc]
    refine parentsFirst_append.mpr ⟨hq.waiting, ?_, trivial⟩
    rw [← hb]
    rcases hparent with hroot | hverified | hwaiting
    · exact .inl (.inl hroot)
    · exact .inl (.inr (.inl hverified))
    · exact .inr hwaiting
  · intro w hw
    rcases List.mem_append.mp hw with hw | hw
    · exact hq.unverifiedLinked w hw
    · cases List.mem_singleton.mp hw
      exact ⟨hb, hb⟩

/-- Collecting what is below bad blocks takes out only blocks that wait for a parent. -/
theorem Rests.collect (bad : List H256) (hq : q.Rests parentOf roots) :
    (q.collect bad).Rests parentOf roots := by
  refine hq.congr (collect_verified ..) (collect_verifying ..) (collect_unverified ..) ?_ ?_ ?_
  · intro h hh
    exact mem_collect_knownBad.mpr (.inr hh)
  · intro w hw
    rwa [collect_working] at hw
  · intro e he
    exact (gathered_collect q bad).perm.mem_iff.mp (List.mem_append_right _ he)

theorem Rests.import {env : Env} {b : Block} {isOurs : Bool} (hq : q.Rests parentOf roots)
    (hkept : q.Kept) (hb : b.info.parentHash = parentOf b.info.hash)
    (hdraining : ∀ h ∈ q.drainingSet, roots h) (hknown : ∀ h, env.isKnown h = true → roots h)
    (hharmless : q.importResult env b isOurs = .badChain →
      { q with knownBad := q.knownBad.insert b.info.hash }.harmless [b.info.hash] = true) :
    (q.import env b isOurs).Rests parentOf roots := by
  rw [BlockQueue.import]
  cases hresult : q.importResult env b isOurs with
  | futureTimeKnown | futureTimeUnknown =>
      exact hq.congr rfl rfl rfl (fun _ hh => hh) (fun _ hw => hw) fun _ he => he
  | badChain =>
      dsimp only
      rw [updateBad_of_spares (harmless_iff.mp (hharmless hresult)).1]
      have hnoted : Rests parentOf roots { q with knownBad := q.knownBad.insert b.info.hash } :=
        hq.congr rfl rfl rfl (fun _ hh => mem_insert_iff.mpr (.inr hh)) (fun _ hw => hw)
          fun _ he => he
      exact hnoted.collect [b.info.hash]
  | unknownParent =>
      refine ⟨hq.verified, hq.waiting, hq.verifiedLinked, hq.verifyingLinked, hq.unverifiedLinked,
        hq.workingLinked, ?_⟩
      intro e he
      rcases List.mem_cons.mp ((insertEntry_perm _ _ _).mem_iff.mp he) with rfl | he
      · exact ⟨hb, hb⟩
      · exact hq.unknownLinked e he
  | success =>
      refine (hq.enqueue hb ?_).noteReady _ (.inr (.inr ?_))
      · rcases History.importResult_cases hresult with (hready | hdrain) | hknown'
        · rw [hkept.ready, heldHashes, List.append_assoc, List.mem_append] at hready
          exact .inr hready
        · exact .inl (hdraining _ hdrain)
        · exact .inl (hknown _ hknown')
      · simp only [waitingHashes, SizedBlockQueue.enqueue, List.map_append, List.map_cons]
        exact List.mem_append_right _ (List.mem_append_right _ (.head _))
  | alreadyInChain | alreadyKnown | malformed | overbidGasPrice | zeroSignature => exact hq

/-- The batch goes to the chain in order, and what is left is behind it. -/
theorem Rests.drain (hq : q.Rests parentOf roots) (max : Nat) :
    ParentsFirst parentOf roots ((q.drain max).1.map (·.info.hash)) ∧
      (∀ b ∈ (q.drain max).1, b.info.parentHash = parentOf b.info.hash) ∧
      (q.drain max).2.Rests parentOf fun h =>
        roots h ∨ h ∈ (q.drain max).1.map (·.info.hash) := by
  rw [BlockQueue.drain]
  split
  · dsimp only [SizedBlockQueue.dequeueMultiple]
    generalize min max q.verified.queue.length = n
    have hsplit : q.verifiedHashes = (q.verified.queue.take n).map (·.info.hash) ++
        (q.verified.queue.drop n).map (·.info.hash) := by
      rw [← List.map_append, List.take_append_drop]
      rfl
    have hverified := hq.verified
    rw [hsplit, parentsFirst_append] at hverified
    refine ⟨hverified.1, ?_, hverified.2, ?_, ?_, hq.verifyingLinked, hq.unverifiedLinked,
      hq.workingLinked, hq.unknownLinked⟩
    · intro b hb
      exact hq.verifiedLinked b (List.mem_of_mem_take hb)
    · refine hq.waiting.mono ?_
      intro h hh
      rw [hsplit, List.mem_append] at hh
      show (roots h ∨ h ∈ (q.verified.queue.take n).map (·.info.hash)) ∨
        h ∈ (q.verified.queue.drop n).map (·.info.hash) ∨ h ∈ q.knownBad
      tauto
    · intro b hb
      exact hq.verifiedLinked b (List.mem_of_mem_drop hb)
  · exact ⟨trivial, by simp, hq.mono fun h hh => .inl hh⟩

theorem Rests.doneDrain {env : DoneEnv} {bad : List H256} (hq : q.Rests parentOf roots)
    (hharmless : bad = [] ∨ (q.noteDone bad).harmless bad = true) :
    (q.doneDrain env bad).Rests parentOf roots := by
  have hnoted : (q.noteDone bad).Rests parentOf roots := by
    refine hq.congr rfl rfl rfl ?_ (fun _ hw => hw) fun _ he => he
    intro h hh
    exact mem_foldl_insert.mpr (.inr hh)
  rcases hharmless with rfl | hharmless
  · exact hnoted
  · obtain ⟨n, hdone, -⟩ := updateBads_of_spares env 0 (harmless_iff.mp hharmless).1
    rw [BlockQueue.doneDrain, hdone]
    exact (hnoted.collect bad).startMany n

/-! ### Blocks under way -/

theorem accept_drainingSet (b : VerifiedBlock) (q : BlockQueue) :
    (accept b q).drainingSet = q.drainingSet := by
  rw [accept]
  split <;> rfl

theorem drainLoop_drainingSet (n : Nat) (q : BlockQueue) :
    (drainLoop n q).drainingSet = q.drainingSet := by
  induction n generalizing q with
  | zero => rfl
  | succ n ih =>
      rw [drainLoop]
      split
      · rfl
      · split
        · rw [ih, accept_drainingSet]
        · rfl

theorem finish_drainingSet {i : Nat} {good : Bool} {tail : Nat → VerifiedBlock}
    (hfinish : q.finish i good tail = some q') : q'.drainingSet = q.drainingSet := by
  rw [finish] at hfinish
  split at hfinish
  · cases hfinish
  · cases hfinish
    split
    · rw [succeed]
      split
      · rw [drainVerified, drainLoop_drainingSet, accept_drainingSet]
      · rfl
    · rw [fail, drainVerified, drainLoop_drainingSet]

theorem import_drainingSet {env : Env} {b : Block} {isOurs : Bool}
    (hharmless : q.importResult env b isOurs = .badChain →
      { q with knownBad := q.knownBad.insert b.info.hash }.harmless [b.info.hash] = true) :
    (q.import env b isOurs).drainingSet = q.drainingSet := by
  rw [BlockQueue.import]
  cases hresult : q.importResult env b isOurs with
  | badChain =>
      dsimp only
      rw [updateBad_of_spares (harmless_iff.mp (hharmless hresult)).1]
      rfl
  | _ => rfl

theorem start_drainingSet (hstart : q.start = some q') : q'.drainingSet = q.drainingSet := by
  rw [start] at hstart
  split at hstart
  · cases hstart
  · cases hstart
    rfl

theorem startMany_drainingSet (n : Nat) (q : BlockQueue) :
    (startMany n q).drainingSet = q.drainingSet := by
  induction n generalizing q with
  | zero => rfl
  | succ n ih =>
      rw [startMany, ih]
      cases hstart : q.start with
      | none => rfl
      | some q' => exact start_drainingSet hstart

theorem doneDrain_drainingSet {env : DoneEnv} {bad : List H256}
    (hharmless : bad = [] ∨ (q.noteDone bad).harmless bad = true) :
    (q.doneDrain env bad).drainingSet = ∅ := by
  rcases hharmless with rfl | hharmless
  · rfl
  · obtain ⟨n, hdone, -⟩ := updateBads_of_spares env 0 (harmless_iff.mp hharmless).1
    rw [doneDrain, hdone, startMany_drainingSet, collect_drainingSet]
    rfl

theorem mem_drain_drainingSet {max : Nat} (hh : h ∈ (q.drain max).2.drainingSet) :
    h ∈ q.drainingSet ∨ h ∈ (q.drain max).1.map (·.info.hash) := by
  rw [drain] at hh ⊢
  split at hh
  · rename_i hempty
    rw [if_pos hempty]
    exact (mem_foldl_insert.mp hh).symm
  · exact .inl hh

end BlockQueue

namespace ChainSync

open BlockQueue

variable {parentOf : H256 → H256} {s s' : ChainSync} {h : H256}

/-! ## What is condemned -/

/-- A block was found invalid, or descends from one that was. -/
def Tainted (parentOf : H256 → H256) (s : ChainSync) (h : H256) : Prop :=
  ∃ n, parentOf^[n] h ∈ s.invalid

theorem Tainted.child (hparent : s.Tainted parentOf (parentOf h)) : s.Tainted parentOf h := by
  obtain ⟨n, hn⟩ := hparent
  exact ⟨n + 1, hn⟩

/-- The blocks of the batch that are still to be imported. -/
def pending (s : ChainSync) : List H256 := (s.batch.getD []).map (·.info.hash)

/-- Only invalid blocks and their descendants are condemned, and every other block that
was drained is in the chain, or is still to be imported. -/
structure CondemnsNoOther (parentOf : H256 → H256) (s : ChainSync) : Prop where
  condemned : ∀ h ∈ s.condemned ++ s.badBlocks, s.Tainted parentOf h
  imported : ∀ h ∈ s.drained, h ∈ s.known ∨ h ∈ s.pending ∨ h ∈ s.queue.readySet ∨
    s.Tainted parentOf h

/-- The chain has the block, or has found out what is wrong with it. -/
def Settled (parentOf : H256 → H256) (s : ChainSync) (h : H256) : Prop :=
  h ∈ s.known ∨ s.Tainted parentOf h

/-- No import fails in passing, and the queue is told the truth: bad hashes are harmless
in it, verifiers fail at blocks that it still has, and blocks are noted as ready that are
in the chain. -/
def nothingPasses (s : ChainSync) : Op → Bool
  | .queue (.import env b isOurs) => s.queue.keepsBooks (.import (s.ofChain env) b isOurs)
  | .queue (.noteReady good) => s.known.contains good
  | .queue .retryAllUnknown => false
  | .queue op => s.queue.keepsBooks op
  | .drain _ => true
  | .importNext checks => (s.batch.getD []).head?.all fun b =>
      s.known.contains b.info.hash && checks.isCurrent b.info.hash ||
        !s.known.contains b.info.parentHash || checks.outcome b == .success ||
        checks.outcome b == .invalid
  | .doneDrain env => s.queue.keepsBooks (.doneDrain env s.badBlocks)

/-- What holds in every state. -/
structure Sound (parentOf : H256 → H256) (s : ChainSync) : Prop where
  kept : s.queue.Kept
  batch : ParentsFirst parentOf (s.Settled parentOf) s.pending
  batchLinked : ∀ b ∈ s.batch.getD [], b.info.parentHash = parentOf b.info.hash
  rests : s.queue.Rests parentOf fun h => s.Settled parentOf h ∨ h ∈ s.pending
  condemned : ∀ h ∈ s.condemned ++ s.badBlocks, s.Tainted parentOf h
  drained : ∀ h ∈ s.drained, s.Settled parentOf h ∨ h ∈ s.pending
  draining : ∀ h ∈ s.queue.drainingSet, h ∈ s.drained

theorem Sound.condemnsNoOther (hs : s.Sound parentOf) : s.CondemnsNoOther parentOf := by
  refine ⟨hs.condemned, ?_⟩
  intro h hh
  have hsettled := hs.drained h hh
  simp only [Settled] at hsettled
  tauto

theorem sound_init {known : ExtTreeSet H256} : Sound parentOf { known := known } where
  kept := kept_empty
  batch := trivial
  batchLinked := by simp
  rests := rests_empty
  condemned := by simp
  drained := by simp
  draining := fun h hh => absurd hh ExtTreeSet.not_mem_empty

/-- A step of the queue that hands out nothing. -/
theorem Sound.queue {q : BlockQueue} (hs : s.Sound parentOf) (hkept : q.Kept)
    (hrests : q.Rests parentOf fun h => s.Settled parentOf h ∨ h ∈ s.pending)
    (hdraining : ∀ h ∈ q.drainingSet, h ∈ s.queue.drainingSet) :
    Sound parentOf { s with queue := q } :=
  { hs with
    kept := hkept
    rests := hrests
    draining := fun h hh => hs.draining h (hdraining h hh) }

theorem Sound.queueOp {op : BlockQueue.Op} (hs : s.Sound parentOf)
    (hop : s.nothingPasses (.queue op) = true) (hstep : s.step parentOf (.queue op) = some s') :
    s'.Sound parentOf := by
  cases op with
  | «import» env b isOurs =>
      rw [step, Option.ite_none_right_eq_some] at hstep
      obtain ⟨hb, heq⟩ := hstep
      cases heq
      have hharmless : s.queue.importResult (s.ofChain env) b isOurs = .badChain →
          { s.queue with knownBad := s.queue.knownBad.insert b.info.hash }.harmless
            [b.info.hash] = true := by
        intro hresult
        simpa [nothingPasses, keepsBooks, hresult] using hop
      refine hs.queue (hs.kept.import hharmless) (hs.rests.import hs.kept hb ?_ ?_ hharmless) ?_
      · exact fun h hh => hs.drained h (hs.draining h hh)
      · intro h hh
        rw [ofChain, Bool.and_eq_true, ExtTreeSet.contains_iff_mem] at hh
        exact .inl (.inl hh.1)
      · rw [import_drainingSet hharmless]
        exact fun _ hh => hh
  | tick utcTime =>
      cases hstep
      have htick : s.queue.step (.tick utcTime) = some (s.queue.tick utcTime).2 := rfl
      have hkeeps : s.queue.keepsBooks (.tick utcTime) = true := hop
      exact hs.queue (hs.kept.step hkeeps htick)
        (hs.rests.congr rfl rfl rfl (fun _ hh => hh) (fun _ hw => hw) fun _ he => he) fun _ hh => hh
  | noteReady good =>
      cases hstep
      refine hs.queue (hs.kept.noteReady good) (hs.rests.noteReady good ?_) fun _ hh => hh
      exact .inl (.inl (.inl (ExtTreeSet.contains_iff_mem.mp hop)))
  | retryAllUnknown => cases hop
  | drain max => cases hstep
  | doneDrain env bad => cases hstep
  | clear =>
      cases hstep
      have hclear : s.queue.step .clear = some s.queue.clear := rfl
      have hkeeps : s.queue.keepsBooks .clear = true := hop
      refine hs.queue (hs.kept.step hkeeps hclear) ?_ ?_
      · exact { rests_empty with workingLinked := hs.rests.workingLinked }
      · exact fun h hh => absurd hh ExtTreeSet.not_mem_empty
  | start =>
      obtain ⟨q, hq, rfl⟩ := Option.map_eq_some_iff.mp hstep
      refine hs.queue (hs.kept.start hq) (hs.rests.start hq) ?_
      rw [start_drainingSet hq]
      exact fun _ hh => hh
  | finish i good tail =>
      obtain ⟨q, hq, rfl⟩ := Option.map_eq_some_iff.mp hstep
      have hok : s.queue.keepsBooks (.finish i good tail) = true := hop
      refine hs.queue (hs.kept.step hok hq) (hs.rests.finish hs.kept ?_ hq) ?_
      · intro w hw
        rw [keepsBooks, hw, Option.all_some, Bool.and_eq_true] at hok
        exact hok.1
      · rw [finish_drainingSet hq]
        exact fun _ hh => hh

theorem Sound.drain (hs : s.Sound parentOf) (hbatch : s.batch = none) (max : Nat) :
    Sound parentOf { s with
      queue := (s.queue.drain max).2
      batch := some (s.queue.drain max).1
      drained := s.drained ++ (s.queue.drain max).1.map (·.info.hash) } := by
  have hpending : s.pending = [] := by rw [pending, hbatch]; rfl
  obtain ⟨hfirst, hlinked, hrests⟩ := hs.rests.drain max
  have hsettled : ∀ h, s.Settled parentOf h ∨ h ∈ s.pending → s.Settled parentOf h := by
    rw [hpending]
    exact fun h hh => hh.resolve_right List.not_mem_nil
  refine ⟨hs.kept.drain max, hfirst.mono hsettled, hlinked, ?_, hs.condemned, ?_, ?_⟩
  · exact hrests.mono fun h hh => hh.imp_left (hsettled h)
  · intro h hh
    rcases List.mem_append.mp hh with hh | hh
    · exact .inl (hsettled h (hs.drained h hh))
    · exact .inr hh
  · intro h hh
    rcases mem_drain_drainingSet hh with hh | hh
    · exact List.mem_append_left _ (hs.draining h hh)
    · exact List.mem_append_right _ hh

/-- After a step of the loop the block is settled. -/
theorem Sound.advance {b : VerifiedBlock} {rest : List VerifiedBlock} (hs : s.Sound parentOf)
    (hbatch : s.batch = some (b :: rest)) (hbatch' : s'.batch = some rest)
    (hqueue : s'.queue = s.queue) (hdrained : s'.drained = s.drained)
    (hkeep : ∀ h, s.Settled parentOf h → s'.Settled parentOf h)
    (hb : s'.Settled parentOf b.info.hash)
    (hcondemned : ∀ h ∈ s'.condemned ++ s'.badBlocks, s'.Tainted parentOf h) :
    s'.Sound parentOf := by
  have hpending : s.pending = b.info.hash :: s'.pending := by
    rw [pending, pending, hbatch, hbatch']
    rfl
  have hfirst := hs.batch
  rw [hpending] at hfirst
  have hmove : ∀ h, s.Settled parentOf h ∨ h ∈ s.pending →
      s'.Settled parentOf h ∨ h ∈ s'.pending := by
    intro h hh
    rw [hpending, List.mem_cons] at hh
    rcases hh with hh | rfl | hh
    · exact .inl (hkeep h hh)
    · exact .inl hb
    · exact .inr hh
  refine ⟨hqueue ▸ hs.kept, hfirst.tail ?_ hkeep, ?_, ?_, hcondemned, ?_, ?_⟩
  · rintro h rfl
    exact hb
  · intro b' hb'
    rw [hbatch'] at hb'
    refine hs.batchLinked b' ?_
    rw [hbatch]
    exact .tail _ hb'
  · rw [hqueue]
    exact hs.rests.mono hmove
  · rw [hdrained]
    exact fun h hh => hmove h (hs.drained h hh)
  · rw [hqueue, hdrained]
    exact hs.draining

/-- The block is in the chain, or its parent is not, or the checks decide. -/
theorem outcome_cases (s : ChainSync) (checks : ImportChecks) (b : VerifiedBlock) :
    (b.info.hash ∈ s.known ∧ checks.isCurrent b.info.hash = true) ∧
        s.outcome checks b = .alreadyHaveBlock ∨
      ¬ (b.info.hash ∈ s.known ∧ checks.isCurrent b.info.hash = true) ∧
        (b.info.parentHash ∉ s.known ∧ s.outcome checks b = .unknownParent ∨
          b.info.parentHash ∈ s.known ∧ s.outcome checks b = checks.outcome b) := by
  rw [outcome]
  split
  · rename_i hknown
    rw [Bool.and_eq_true, ExtTreeSet.contains_iff_mem] at hknown
    exact .inl ⟨hknown, rfl⟩
  · rename_i hnew
    rw [Bool.and_eq_true, ExtTreeSet.contains_iff_mem] at hnew
    refine .inr ⟨hnew, ?_⟩
    split
    · rename_i hparent
      rw [Bool.not_eq_true', ← Bool.not_eq_true, ExtTreeSet.contains_iff_mem] at hparent
      exact .inl ⟨hparent, rfl⟩
    · rename_i hparent
      rw [Bool.not_eq_true, Bool.not_eq_false', ExtTreeSet.contains_iff_mem] at hparent
      exact .inr ⟨hparent, rfl⟩

theorem Sound.importNext {checks : ImportChecks} {b : VerifiedBlock} {rest : List VerifiedBlock}
    (hs : s.Sound parentOf) (hbatch : s.batch = some (b :: rest))
    (hop : s.nothingPasses (.importNext checks) = true) :
    (s.importNext checks b rest).Sound parentOf := by
  have hlinked : b.info.parentHash = parentOf b.info.hash :=
    hs.batchLinked b (by rw [hbatch]; exact .head _)
  have hparent : s.Settled parentOf (parentOf b.info.hash) := by
    have hfirst := hs.batch
    rw [pending, hbatch] at hfirst
    exact hfirst.1
  simp only [nothingPasses, hbatch, Option.getD_some, List.head?_cons, Option.all_some,
    Bool.or_eq_true, Bool.and_eq_true, Bool.not_eq_true', ← Bool.not_eq_true,
    ExtTreeSet.contains_iff_mem, beq_iff_eq] at hop
  -- A listed block is tainted.
  have hlisted : ∀ t : ChainSync, (∀ x ∈ s.invalid, x ∈ t.invalid) →
      t.condemned = s.condemned → t.badBlocks = s.badBlocks ++ [b.info.hash] →
      t.Tainted parentOf b.info.hash → ∀ h ∈ t.condemned ++ t.badBlocks, t.Tainted parentOf h := by
    intro t hsub hcondemned hbad htainted h hh
    rw [hcondemned, hbad, ← List.append_assoc, List.mem_append, List.mem_singleton] at hh
    rcases hh with hh | rfl
    · exact (hs.condemned h hh).imp fun n hn => hsub _ hn
    · exact htainted
  rw [ChainSync.importNext]
  rcases s.outcome_cases checks b with ⟨hknown, hout⟩ | ⟨hnew, ⟨hunknown, hout⟩ | ⟨hknown, hout⟩⟩
  · rw [hout]
    exact hs.advance hbatch rfl rfl rfl (fun h hh => hh) (.inl hknown.1) hs.condemned
  · -- The parent has been settled, and so it is tainted.
    have htainted : s.Tainted parentOf b.info.hash :=
      .child (hparent.resolve_left (hlinked ▸ hunknown))
    rw [hout]
    exact hs.advance hbatch rfl rfl rfl (fun h hh => hh) (.inr htainted)
      (hlisted _ (fun x hx => hx) rfl rfl htainted)
  · have hlasting : checks.outcome b = .success ∨ checks.outcome b = .invalid := by tauto
    rcases hlasting with hsuccess | hinvalid
    · rw [hout, hsuccess]
      refine hs.advance hbatch rfl rfl rfl ?_ (.inl (mem_insert_iff.mpr (.inl rfl))) hs.condemned
      intro h hh
      exact hh.imp_left fun hknown => mem_insert_iff.mpr (.inr hknown)
    · have htainted : Tainted parentOf { s with
          batch := some rest
          badBlocks := s.badBlocks ++ [b.info.hash]
          invalid := b.info.hash :: s.invalid } b.info.hash := ⟨0, .head _⟩
      rw [hout, hinvalid]
      refine hs.advance hbatch rfl rfl rfl ?_ (.inr htainted)
        (hlisted _ (fun x hx => .tail _ hx) rfl rfl htainted)
      intro h hh
      exact hh.imp_right fun hthis => hthis.imp fun n hn => .tail _ hn

theorem Sound.doneDrain {env : DoneEnv} (hs : s.Sound parentOf) (hbatch : s.batch = some [])
    (hop : s.nothingPasses (.doneDrain env) = true) :
    Sound parentOf { s with
      queue := s.queue.doneDrain env s.badBlocks
      batch := none
      badBlocks := []
      condemned := s.condemned ++ s.badBlocks } := by
  have hpending : s.pending = [] := by rw [pending, hbatch]; rfl
  have hrests := hs.rests
  have hdrained := hs.drained
  simp only [hpending, List.not_mem_nil, or_false] at hrests hdrained
  rw [nothingPasses, keepsBooks, Bool.or_eq_true, List.isEmpty_iff] at hop
  refine ⟨hs.kept.doneDrain hop, trivial, by simp, ?_, ?_, ?_, ?_⟩
  · exact (hrests.doneDrain hop).mono fun h hh => .inl hh
  · intro h hh
    rw [List.append_nil] at hh
    exact hs.condemned h hh
  · exact fun h hh => .inl (hdrained h hh)
  · rw [doneDrain_drainingSet hop]
    exact fun h hh => absurd hh ExtTreeSet.not_mem_empty

/-! ## Runs -/

theorem Sound.step {op : Op} (hs : s.Sound parentOf) (hop : s.nothingPasses op = true)
    (hstep : s.step parentOf op = some s') : s'.Sound parentOf := by
  cases op with
  | queue op => exact hs.queueOp hop hstep
  | drain max =>
      rw [ChainSync.step] at hstep
      split at hstep
      · cases hstep
      · rename_i hbatch
        cases hstep
        exact hs.drain hbatch max
  | importNext checks =>
      rw [ChainSync.step] at hstep
      split at hstep
      · rename_i b rest hbatch
        cases hstep
        exact hs.importNext hbatch hop
      · cases hstep
  | doneDrain env =>
      rw [ChainSync.step] at hstep
      split at hstep
      · rename_i hbatch
        cases hstep
        exact hs.doneDrain hbatch hop
      · cases hstep

/-- **In every run in which no import fails in passing, and the queue is told the truth,
only invalid blocks and their descendants are condemned, and every other block that was
drained is in the chain or is still to be imported.** -/
theorem condemns_no_other
    (h : (system parentOf).Reach (fun s op => s.nothingPasses op = true) s) :
    s.CondemnsNoOther parentOf := by
  have hs : s.Sound parentOf := by
    refine System.Reach.invariant (I := Sound parentOf) ?_ ?_ h
    · rintro s ⟨known, rfl⟩
      exact sound_init
    · intro s op s' _ hs hop hstep
      exact hs.step hop hstep
  exact hs.condemnsNoOther

/-- What the checks of a good block say. -/
def sampleChecks (enactment : Enactment) : ImportChecks where
  isCurrent := fun _ => true
  utcTime := 0
  allowFutureBlocks := false
  verified := true
  enactment := enactment

/-- Block 12 has the parent 11, and this one the parent 5, which is in the chain.  Both are
verified and drained. -/
def sampleRun : List Op :=
  [.queue (sampleImport [5] 11 5), .queue (sampleImport [5] 12 11)] ++
    (sampleVerify true ++ sampleVerify true).map .queue ++ [.drain 8]

/-- The parent of block 12 is 11, and that of 11 is 5. -/
def sampleParent (h : H256) : H256 := if h = 12 then 11 else 5

/-- An invalid block and its child are condemned. -/
theorem condemns_no_other_invalid :
    ∃ s, (system sampleParent).Reach (fun s op => s.nothingPasses op = true) s ∧
      s.condemned = [11, 12] ∧ s.CondemnsNoOther sampleParent := by
  have hstart : (system sampleParent).Reach (fun s op => s.nothingPasses op = true)
      { known := (∅ : ExtTreeSet H256).insert 5 } := .init ⟨_, rfl⟩
  obtain ⟨s, hreach, hs⟩ := hstart.exists_of_check
    (sampleRun ++ [.importNext (sampleChecks .throws), .importNext (sampleChecks .done),
      .doneDrain { tails := fun _ _ => strayTails 0 }])
    (p := fun s => s.condemned == [11, 12])
    (by decide +kernel) (by decide +kernel)
  exact ⟨s, hreach, beq_iff_eq.mp hs, condemns_no_other hreach⟩

/-- Block 11 meets a bad root.  It is not tried again, and its child is condemned. -/
theorem child_of_transient_condemned :
    ∃ s, (system sampleParent).Reach (fun _ _ => True) s ∧ ¬ s.CondemnsNoOther sampleParent := by
  have hstart : (system sampleParent).Reach (fun _ _ => True)
      { known := (∅ : ExtTreeSet H256).insert 5 } := .init ⟨_, rfl⟩
  obtain ⟨s, hreach, hs⟩ := hstart.exists_of_check
    (sampleRun ++ [.importNext (sampleChecks .badRoot), .importNext (sampleChecks .done),
      .doneDrain { tails := fun _ _ => strayTails 0 }])
    (p := fun s => s.condemned == [12] && s.invalid == [])
    (by decide +kernel) (by decide +kernel)
  rw [Bool.and_eq_true, beq_iff_eq, beq_iff_eq] at hs
  refine ⟨s, hreach, ?_⟩
  intro hclaim
  obtain ⟨n, hn⟩ := hclaim.condemned 12 (by rw [hs.1]; exact .head _)
  rw [hs.2] at hn
  exact absurd hn List.not_mem_nil

end ChainSync

end CppSwc
