import CppSwc.BlockQueue.Bookkeeping

/-!
# The order in which blocks are drained

If nothing is bad, the queue hands out blocks parents first.  The batches of `drain`,
then `verified`, `verifying` and `unverified` are one sequence.  A block enters at its
end, when its parent is in the chain or in the sequence already, or behind its parent
when that one is noted as ready.  From then on it keeps its place, in whatever order
the verifiers finish.

`noteReady` tells the queue that a block has come into the chain by another way, so
the parent of a block that waited for it is neither in the chain when the block is
imported nor drained before.  And the queue forgets a drained block at `doneDrain`.  If
the chain does not know it then, for it was turned down for the time being, it can be
imported and drained again.

`History` keeps what has been drained, and notes these two cases.
-/

namespace CppSwc

open Lib Std

namespace BlockQueue

/-- A queue with what has happened to it. -/
structure History where
  queue : BlockQueue := {}
  /-- The batches of `drain`, one after the other. -/
  drained : List VerifiedBlock := []
  /-- Blocks that were accepted when the chain knew the parent, with the parent. -/
  inChain : List (H256 × H256) := []
  /-- Blocks that waited for a parent when `noteReady` was called with it. -/
  noted : List (H256 × H256) := []
  /-- Blocks that were accepted although they had been drained before. -/
  again : List H256 := []

namespace History

/-- The hash of a drained block and that of its parent. -/
def pair (b : VerifiedBlock) : H256 × H256 := (b.info.hash, b.info.parentHash)

/-- The history after an operation, from the queue it leaves. -/
def record (s : History) (op : Op) (q : BlockQueue) : History :=
  match op with
  | .import env b isOurs =>
      let result := s.queue.importResult env b isOurs
      { s with
        queue := q
        inChain := if result = .success ∧ env.isKnown b.info.parentHash then
          (b.info.hash, b.info.parentHash) :: s.inChain else s.inChain
        again := if (result = .success ∨ result = .unknownParent) ∧
            b.info.hash ∈ s.drained.map (·.info.hash) then b.info.hash :: s.again else s.again }
  | .noteReady good => { s with
      queue := q
      noted := ((s.queue.unknown.map.filter fun e => e.1 = good).map fun e => (e.2.1, e.1)) ++
        s.noted }
  | .drain max => { s with queue := q, drained := s.drained ++ (s.queue.drain max).1 }
  | _ => { s with queue := q }

/-- One step. -/
def step (s : History) (op : Op) : Option History := (s.queue.step op).map (s.record op)

/-- All runs, with their histories. -/
def system : System History Op where
  init s := s = {}
  step := step

/-- Nothing is bad: no list of bad blocks, and verifiers succeed, with no collision
between the hash of a block and that of the uncles of another.  `retryAllUnknown` and
`clear` are not used. -/
def allGood (s : History) : Op → Bool
  | .doneDrain _ bad => bad.isEmpty
  | .finish i good _ => good && (s.queue.working[i]?).all fun w => s.queue.unclesApart w.hash
  | .clear | .retryAllUnknown => false
  | _ => true

/-- Every block comes behind its parent, unless the parent was in the chain, or has
been noted. -/
def Grounded (s : History) (l : List (H256 × H256)) : Prop :=
  ∀ l₁ p l₂, l = l₁ ++ p :: l₂ → p ∈ s.inChain ∨ p ∈ s.noted ∨ p.2 ∈ l₁.map Prod.fst

end History

/-- The hashes of the held blocks and those of their parents. -/
def heldPairs (q : BlockQueue) : List (H256 × H256) :=
  q.verified.queue.map (fun b => (b.info.hash, b.info.parentHash)) ++
    q.verifying.queue.map (fun b => (b.heldHash, b.info.parentHash)) ++
    q.unverified.queue.map fun w => (w.hash, w.parentHash)

theorem heldPairs_fst (q : BlockQueue) : q.heldPairs.map Prod.fst = q.heldHashes := by
  simp only [heldPairs, heldHashes, List.map_append, List.map_map]
  rfl

/-! ## Verifiers that succeed -/

variable {q q' : BlockQueue} {w : UnverifiedBlock}

/-- Blocks move on towards `verified`, and keep their places. -/
structure Passed (q q' : BlockQueue) : Prop where
  heldPairs : q'.heldPairs = q.heldPairs
  unknown : q'.unknown = q.unknown
  unverified : q'.unverified = q.unverified
  working : q'.working = q.working
  drainingSet : q'.drainingSet = q.drainingSet
  knownBad : q'.knownBad = q.knownBad

theorem Passed.refl (q : BlockQueue) : Passed q q := ⟨rfl, rfl, rfl, rfl, rfl, rfl⟩

theorem Passed.trans {q'' : BlockQueue} (h : Passed q q') (h' : Passed q' q'') : Passed q q'' :=
  ⟨h'.heldPairs.trans h.heldPairs, h'.unknown.trans h.unknown, h'.unverified.trans h.unverified,
    h'.working.trans h.working, h'.drainingSet.trans h.drainingSet, h'.knownBad.trans h.knownBad⟩

/-- The block at the head of `verifying` is verified. -/
theorem passed_accept {e b : VerifiedBlock} {es : List VerifiedBlock}
    (hgood : ∀ h, h ∉ q.knownBad) (hqueue : q.verifying.queue = e :: es)
    (hhash : e.heldHash = b.info.hash) (hparent : e.info.parentHash = b.info.parentHash) :
    Passed q (accept b { q with verifying := q.verifying.dequeue }) ∧
      (accept b { q with verifying := q.verifying.dequeue }).verifying.queue = es := by
  have hdequeue : q.verifying.dequeue.queue = es := by rw [SizedBlockQueue.dequeue, hqueue]
  rw [accept, if_neg (by rw [ExtTreeSet.contains_iff_mem]; exact hgood _)]
  refine ⟨⟨?_, rfl, rfl, rfl, rfl, rfl⟩, hdequeue⟩
  simp only [heldPairs, hdequeue, hqueue, SizedBlockQueue.enqueue, List.map_append, List.map_cons,
    List.map_nil, hhash, hparent, List.append_assoc, List.cons_append, List.nil_append]

/-- `drainVerified` moves finished blocks on. -/
theorem passed_drainLoop (n : Nat) (hgood : ∀ h, h ∉ q.knownBad) :
    Passed q (drainLoop n q) ∧ ∀ e ∈ q.verifying.queue, e.isFinished = false →
      e ∈ (drainLoop n q).verifying.queue := by
  induction n generalizing q with
  | zero => exact ⟨.refl q, fun e he _ => he⟩
  | succ n ih =>
      rw [drainLoop]
      split
      · exact ⟨.refl q, fun e he _ => he⟩
      · rename_i b bs hqueue
        split
        · rename_i hfinished
          obtain ⟨hpassed, hrest⟩ := passed_accept hgood hqueue (b := b) (if_pos hfinished) rfl
          obtain ⟨hpassed', hkept⟩ := ih (q := accept b { q with verifying := q.verifying.dequeue })
            (by rw [hpassed.knownBad]; exact hgood)
          refine ⟨hpassed.trans hpassed', ?_⟩
          intro e he hunfinished
          refine hkept e ?_ hunfinished
          rw [hrest]
          rw [hqueue] at he
          rcases List.mem_cons.mp he with rfl | he
          · rw [hfinished] at hunfinished
            cases hunfinished
          · exact he
        · exact ⟨.refl q, fun e he _ => he⟩

theorem mem_replaceFirst {α : Type} [HasBlockData α] {p : α → Bool} {b x : α} {l : List α}
    (hx : x ∈ l) (hp : p x = false) : x ∈ SizedBlockQueue.replaceFirst p b l := by
  induction l with
  | nil => cases hx
  | cons y l ih =>
      rw [SizedBlockQueue.replaceFirst]
      split
      · rename_i hy
        rcases List.mem_cons.mp hx with rfl | hx
        · rw [hp] at hy
          cases hy
        · exact .tail _ hx
      · rcases List.mem_cons.mp hx with rfl | hx
        · exact .head _
        · exact .tail _ (ih hx)

/-- A verifier that succeeds leaves its block in its place. -/
theorem passed_succeed (hq : q.Kept) (hgood : ∀ h, h ∉ q.knownBad) (hw : Named w.hash w.blockData)
    (hlinked : w.parentHash = w.blockData.info.parentHash)
    (hplace : VerifiedBlock.placeOf w ∈ q.verifying.queue)
    (hapart : q.unclesApart w.hash = true) :
    Passed q (q.succeed w) ∧ ∀ e ∈ q.verifying.queue, e.isFinished = false →
      e.info.sha3Uncles ≠ w.hash → e ∈ (q.succeed w).verifying.queue := by
  have hfinished : (VerifiedBlock.ofWork w).isFinished = true := by
    simp [VerifiedBlock.isFinished, VerifiedBlock.ofWork, hw.2]
  have hres : (VerifiedBlock.ofWork w).heldHash = w.hash := by
    rw [VerifiedBlock.heldHash, if_pos hfinished, hw.1]
    rfl
  have hnodup : (q.verifying.queue.map (·.heldHash)).Nodup :=
    (List.nodup_append.mp (List.nodup_append.mp (List.nodup_append.mp hq.once).1).1).2.1
  -- The place with the hash is the place of the block.
  have hplaceOf : ∀ e ∈ q.verifying.queue, e.info.sha3Uncles = w.hash → e = .placeOf w := by
    intro e he hhash
    refine List.inj_on_of_nodup_map hnodup he hplace ?_
    rw [(heldHash_of_unclesApart hapart he hhash).2]
    rfl
  rw [succeed]
  split
  · rename_i hnext
    cases hqueue : q.verifying.queue with
    | nil =>
        rw [hqueue] at hnext
        cases hnext
    | cons e es =>
        rw [hqueue, List.head?_cons, Option.any_some, beq_iff_eq] at hnext
        have he : e = .placeOf w := hplaceOf e (hqueue ▸ List.mem_cons_self) hnext
        subst he
        obtain ⟨hpassed, hrest⟩ := passed_accept hgood hqueue (b := .ofWork w) hw.1 hlinked
        obtain ⟨hpassed', hkept⟩ := passed_drainLoop
          (q := accept (.ofWork w) { q with verifying := q.verifying.dequeue }) _
          (by rw [hpassed.knownBad]; exact hgood)
        refine ⟨hpassed.trans hpassed', ?_⟩
        intro e he hunfinished hne
        refine hkept e ?_ hunfinished
        rw [hrest]
        rcases List.mem_cons.mp he with rfl | he
        · exact absurd rfl hne
        · exact he
  · have hqueue : ((q.verifying.replace w.hash (.ofWork w)).queue.map fun b =>
        (b.heldHash, b.info.parentHash)) =
        q.verifying.queue.map fun b => (b.heldHash, b.info.parentHash) := by
      rw [SizedBlockQueue.replace, SizedBlockQueue.replaceIf]
      split
      · rfl
      · refine map_replaceFirst ?_
        intro e he hhash
        rw [hplaceOf e he (beq_iff_eq.mp hhash), hres]
        exact congrArg _ hlinked
    refine ⟨⟨?_, rfl, rfl, rfl, rfl, rfl⟩, ?_⟩
    · rw [heldPairs, heldPairs, hqueue]
    · intro e he hunfinished hne
      show e ∈ (q.verifying.replace w.hash (.ofWork w)).queue
      rw [SizedBlockQueue.replace, SizedBlockQueue.replaceIf]
      split
      · exact he
      · exact mem_replaceFirst he (beq_eq_false_iff_ne.mpr hne)

namespace History

variable {s s' : History}

/-! ## The sequence -/

/-- Everything that has been drained or is held, in order. -/
def sequence (s : History) : List (H256 × H256) := s.drained.map pair ++ s.queue.heldPairs

theorem Grounded.append {l new : List (H256 × H256)} (h : s.Grounded l)
    (hnew : ∀ l₁ p l₂, new = l₁ ++ p :: l₂ →
      p ∈ s.inChain ∨ p ∈ s.noted ∨ p.2 ∈ l.map Prod.fst ∨ p.2 ∈ l₁.map Prod.fst) :
    s.Grounded (l ++ new) := by
  intro l₁ p l₂ heq
  rcases List.append_eq_append_iff.mp heq with ⟨l', rfl, htail⟩ | ⟨l', rfl, htail⟩
  · rw [List.map_append, List.mem_append]
    exact hnew l' p l₂ htail
  · cases l' with
    | nil =>
        rcases hnew [] p l₂ htail.symm with hp | hp | hp | hp
        · exact .inl hp
        · exact .inr (.inl hp)
        · rw [List.append_nil] at hp
          exact .inr (.inr hp)
        · cases hp
    | cons p' l' =>
        obtain ⟨rfl, -⟩ := List.cons.inj htail
        exact h l₁ p l' rfl

/-- What holds along every run in which nothing is bad. -/
structure Orderly (s : History) : Prop where
  kept : s.queue.Kept
  good : ∀ h, h ∉ s.queue.knownBad
  draining : ∀ h ∈ s.queue.drainingSet, h ∈ s.drained.map (·.info.hash)
  unknownLinked : ∀ e ∈ s.queue.unknown.map, e.1 = e.2.2.info.parentHash
  unverifiedLinked : ∀ w ∈ s.queue.unverified.queue, w.parentHash = w.blockData.info.parentHash
  workingLinked : ∀ w ∈ s.queue.working, w.parentHash = w.blockData.info.parentHash
  places : ∀ w ∈ s.queue.working, VerifiedBlock.placeOf w ∈ s.queue.verifying.queue
  workingOnce : (s.queue.working.map (·.hash)).Nodup
  grounded : s.Grounded s.sequence
  once : ∀ h, 2 ≤ (s.sequence.map Prod.fst ++ s.queue.unknown.hashes).count h → h ∈ s.again

theorem orderly_empty : Orderly {} := by
  refine ⟨kept_empty, ?_, ?_, ?_, ?_, ?_, ?_, List.nodup_nil, ?_, ?_⟩
  · exact fun h => ExtTreeSet.not_mem_empty
  · exact fun h hh => absurd hh ExtTreeSet.not_mem_empty
  · exact fun e he => absurd he List.not_mem_nil
  · exact fun w hw => absurd hw List.not_mem_nil
  · exact fun w hw => absurd hw List.not_mem_nil
  · exact fun w hw => absurd hw List.not_mem_nil
  · intro l₁ p l₂ heq
    exact absurd heq.symm (by simp [sequence, heldPairs])
  · intro h hcount
    exact absurd hcount (by simp [sequence, heldPairs, SizedBlockMap.hashes])

/-- A hash in the queue's sets is in the sequence. -/
theorem Orderly.mem_sequence (hs : s.Orderly) {h : H256}
    (hh : h ∈ s.queue.readySet ∨ h ∈ s.queue.drainingSet) : h ∈ s.sequence.map Prod.fst := by
  rw [sequence, List.map_append, heldPairs_fst, List.mem_append]
  rcases hh with hh | hh
  · exact .inr ((hs.kept.ready h).mp hh)
  · refine .inl ?_
    rw [List.map_map]
    exact hs.draining h hh

/-- The verifiers' steps leave everything in its place. -/
theorem Orderly.passed {q : BlockQueue} (hs : s.Orderly) (hq : q.Kept)
    (hpairs : q.heldPairs = s.queue.heldPairs) (hunknown : q.unknown = s.queue.unknown)
    (hdraining : q.drainingSet = s.queue.drainingSet) (hbad : q.knownBad = s.queue.knownBad)
    (hunverified : ∀ w ∈ q.unverified.queue, w.parentHash = w.blockData.info.parentHash)
    (hworking : ∀ w ∈ q.working, w.parentHash = w.blockData.info.parentHash)
    (hplaces : ∀ w ∈ q.working, VerifiedBlock.placeOf w ∈ q.verifying.queue)
    (honce : (q.working.map (·.hash)).Nodup) : Orderly { s with queue := q } := by
  refine ⟨hq, ?_, ?_, ?_, hunverified, hworking, hplaces, honce, ?_, ?_⟩
  · rw [hbad]
    exact hs.good
  · rw [hdraining]
    exact hs.draining
  · rw [hunknown]
    exact hs.unknownLinked
  · show Grounded s (s.drained.map pair ++ q.heldPairs)
    rw [hpairs]
    exact hs.grounded
  · show ∀ h, 2 ≤ ((s.drained.map pair ++ q.heldPairs).map Prod.fst ++ q.unknown.hashes).count h →
      h ∈ s.again
    rw [hpairs, hunknown]
    exact hs.once

theorem Orderly.start {q : BlockQueue} (hs : s.Orderly) (hstart : s.queue.start = some q) :
    Orderly { s with queue := q } := by
  have hq := hs.kept.start hstart
  rw [BlockQueue.start] at hstart
  cases hqueue : s.queue.unverified.queue with
  | nil =>
      rw [hqueue] at hstart
      cases hstart
  | cons w ws =>
      rw [hqueue] at hstart
      cases hstart
      have hunverified : s.queue.unverified.dequeue.queue = ws := by
        rw [SizedBlockQueue.dequeue, hqueue]
      have hlinked := hs.unverifiedLinked
      rw [hqueue] at hlinked
      refine hs.passed hq ?_ rfl rfl rfl ?_ ?_ ?_ ?_
      · simp only [heldPairs, hunverified, SizedBlockQueue.enqueue, hqueue, List.map_append,
          List.map_cons, List.map_nil, List.append_assoc, List.cons_append, List.nil_append]
        rfl
      · intro w' hw'
        rw [hunverified] at hw'
        exact hlinked w' (.tail _ hw')
      · intro w' hw'
        rcases List.mem_append.mp hw' with hw' | hw'
        · exact hs.workingLinked w' hw'
        · cases List.mem_singleton.mp hw'
          exact hlinked w (.head _)
      · intro w' hw'
        rcases List.mem_append.mp hw' with hw' | hw'
        · exact List.mem_append_left _ (hs.places w' hw')
        · cases List.mem_singleton.mp hw'
          exact List.mem_append_right _ (.head _)
      · -- A block that waits is held once, so it is not at a verifier.
        rw [List.map_append, List.nodup_append]
        refine ⟨hs.workingOnce, List.nodup_singleton _, ?_⟩
        intro h hh h' hh' heq
        obtain ⟨w', hw', rfl⟩ := List.mem_map.mp hh
        have hnodup := (List.nodup_append.mp hs.kept.once).1
        rw [heldHashes] at hnodup
        refine (List.nodup_append.mp hnodup).2.2 w'.hash ?_ w.hash ?_ ?_
        · exact List.mem_append_right _ (List.mem_map.mpr ⟨_, hs.places w' hw', rfl⟩)
        · rw [hqueue]
          exact .head _
        · rw [heq]
          exact List.mem_singleton.mp hh'

theorem Orderly.finish {q : BlockQueue} {i : Nat} {tail : Nat → VerifiedBlock} (hs : s.Orderly)
    (hapart : ∀ w, s.queue.working[i]? = some w → s.queue.unclesApart w.hash = true)
    (hfinish : s.queue.finish i true tail = some q) : Orderly { s with queue := q } := by
  have hq := hs.kept.finish (fun w hw => ⟨hapart w hw, .inl rfl⟩) hfinish
  rw [BlockQueue.finish] at hfinish
  cases hw : s.queue.working[i]? with
  | none =>
      rw [hw] at hfinish
      cases hfinish
  | some w =>
      rw [hw] at hfinish
      cases hfinish
      have hmem := List.mem_of_getElem? hw
      have hkept : Kept { s.queue with working := s.queue.working.eraseIdx i } :=
        hs.kept.congr rfl rfl rfl rfl rfl rfl hs.kept.unverifiedNamed fun w' hw' =>
          hs.kept.workingNamed w' ((List.eraseIdx_sublist _ _).subset hw')
      obtain ⟨hpassed, hplaces⟩ := passed_succeed hkept hs.good (hs.kept.workingNamed w hmem)
        (hs.workingLinked w hmem) (hs.places w hmem) (hapart w hw)
      have hsub : ∀ w' ∈ s.queue.working.eraseIdx i, w' ∈ s.queue.working := fun w' hw' =>
        (List.eraseIdx_sublist _ _).subset hw'
      -- The other verifiers are at other blocks.
      have hother : ∀ w' ∈ s.queue.working.eraseIdx i, w'.hash ≠ w.hash := by
        have hperm : (s.queue.working).Perm (w :: s.queue.working.eraseIdx i) := by
          obtain ⟨hi, heq⟩ := List.getElem?_eq_some_iff.mp hw
          rw [← heq]
          exact (List.getElem_cons_eraseIdx_perm hi).symm
        have hnodup := (hperm.map (·.hash)).nodup_iff.mp hs.workingOnce
        intro w' hw' heq
        exact (List.nodup_cons.mp hnodup).1 (List.mem_map.mpr ⟨w', hw', heq⟩)
      refine hs.passed hq hpassed.heldPairs hpassed.unknown hpassed.drainingSet hpassed.knownBad
        ?_ ?_ ?_ ?_
      · rw [if_pos rfl, hpassed.unverified]
        exact hs.unverifiedLinked
      · rw [if_pos rfl, hpassed.working]
        exact fun w' hw' => hs.workingLinked w' (hsub w' hw')
      · rw [if_pos rfl, hpassed.working]
        intro w' hw'
        exact hplaces _ (hs.places w' (hsub w' hw')) rfl (hother w' hw')
      · rw [if_pos rfl, hpassed.working]
        exact ((List.eraseIdx_sublist _ _).map _).nodup hs.workingOnce

/-! ## Blocks that become ready -/

theorem heldPairs_noteReady (q : BlockQueue) (good : H256) :
    (q.noteReady good).heldPairs =
      q.heldPairs ++ (q.below good).1.map fun e => (e.2.1, e.1) := by
  simp only [heldPairs, noteReady, release, foldl_enqueue_queue, List.map_append, List.map_map,
    List.append_assoc]
  rfl

/-- The blocks below a ready one follow it in the sequence. -/
theorem Orderly.noteReady (hs : s.Orderly) (good : H256)
    (hgood : ∀ e ∈ s.queue.unknown.map, e.1 = good →
      (e.2.1, e.1) ∈ s.noted ∨ e.1 ∈ s.sequence.map Prod.fst) :
    Orderly { s with queue := s.queue.noteReady good } := by
  have hgathered := gathered_below s.queue good
  have hkept := hs.kept.noteReady good
  have htaken : ∀ e ∈ (s.queue.below good).1, e ∈ s.queue.unknown.map := fun e he =>
    hgathered.perm.mem_iff.mp (List.mem_append_left _ he)
  refine ⟨hkept, hs.good, hs.draining, ?_, ?_, hs.workingLinked, hs.places, hs.workingOnce, ?_, ?_⟩
  · intro e he
    exact hs.unknownLinked e (hgathered.perm.mem_iff.mp (List.mem_append_right _ he))
  · intro w hw
    rw [BlockQueue.noteReady, release, foldl_enqueue_queue] at hw
    rcases List.mem_append.mp hw with hw | hw
    · exact hs.unverifiedLinked w hw
    · obtain ⟨e, he, rfl⟩ := List.mem_map.mp hw
      exact hs.unknownLinked e (htaken e he)
  · show Grounded s (s.drained.map pair ++ (s.queue.noteReady good).heldPairs)
    rw [heldPairs_noteReady, ← List.append_assoc]
    refine hs.grounded.append ?_
    intro l₁ p l₂ heq
    obtain ⟨m₁, m₂, hsplit, rfl, hmap⟩ := List.map_eq_append_iff.mp heq
    obtain ⟨e, m₃, rfl, rfl, -⟩ := List.map_eq_cons_iff.mp hmap
    have he : e ∈ (s.queue.below good).1 := by
      rw [hsplit]
      exact List.mem_append_right _ (.head _)
    rcases hgathered.grounded m₁ e m₃ hsplit with hroot | hparent
    · rcases hgood e (htaken e he) (List.mem_singleton.mp hroot) with hnoted | hsequence
      · exact .inr (.inl hnoted)
      · exact .inr (.inr (.inl hsequence))
    · refine .inr (.inr (.inr ?_))
      rw [List.map_map]
      exact hparent
  · -- The blocks are the same, in other places.
    have hperm : ((s.drained.map pair ++ (s.queue.noteReady good).heldPairs).map Prod.fst ++
        (s.queue.noteReady good).unknown.hashes).Perm
        (s.sequence.map Prod.fst ++ s.queue.unknown.hashes) := by
      rw [heldPairs_noteReady, ← List.append_assoc, List.map_append, List.map_map, List.append_assoc]
      refine List.Perm.append_left _ ?_
      show (((s.queue.below good).1.map fun e => e.2.1) ++
        (s.queue.below good).2.map fun e => e.2.1).Perm s.queue.unknown.hashes
      rw [← List.map_append]
      exact hgathered.perm.map _
    intro h hcount
    exact hs.once h (hperm.count_eq h ▸ hcount)

/-- A hash that comes in is there once, or has been drained. -/
theorem count_of_accepted {l l' again : List H256} {x h : H256} {drained : Prop} [Decidable drained]
    (hperm : l'.Perm (x :: l)) (hold : x ∈ l → drained) (honce : ∀ h, 2 ≤ l.count h → h ∈ again)
    (hcount : 2 ≤ l'.count h) : h ∈ if drained then x :: again else again := by
  rw [hperm.count_eq h, List.count_cons] at hcount
  by_cases hx : x = h
  · subst hx
    rw [beq_self_eq_true, if_pos rfl] at hcount
    rw [if_pos (hold (List.count_pos_iff.mp (by omega)))]
    exact .head _
  · rw [beq_eq_false_iff_ne.mpr hx, if_neg Bool.false_ne_true, Nat.add_zero] at hcount
    split
    · exact .tail _ (honce h hcount)
    · exact honce h hcount

/-- A block that is new to the queue has been drained if it is in the sequence. -/
theorem Orderly.drained_of_mem (hs : s.Orderly) {x : H256} (hready : x ∉ s.queue.readySet)
    (hunknown : x ∉ s.queue.unknownSet)
    (hx : x ∈ s.sequence.map Prod.fst ++ s.queue.unknown.hashes) :
    x ∈ s.drained.map (·.info.hash) := by
  rw [hs.kept.ready] at hready
  rw [hs.kept.unknown] at hunknown
  rw [sequence, List.map_append, heldPairs_fst, List.map_map, List.mem_append, List.mem_append] at hx
  rcases hx with (hx | hx) | hx
  · exact hx
  · exact absurd hx hready
  · exact absurd hx hunknown

/-- What `import` answers when it takes a block in. -/
theorem importResult_cases {env : Env} {b : Block} {isOurs : Bool} {q : BlockQueue}
    (h : q.importResult env b isOurs = .success) :
    (b.info.parentHash ∈ q.readySet ∨ b.info.parentHash ∈ q.drainingSet) ∨
      env.isKnown b.info.parentHash = true := by
  rw [importResult] at h
  split at h
  · cases h
  · split at h
    · cases h
    · split at h
      · cases h
      · split at h
        · split at h <;> cases h
        · split at h
          · cases h
          · split at h
            · cases h
            · rename_i hknown
              simp only [isUnknown, Bool.and_eq_true, Bool.not_eq_true', not_and,
                ← Bool.not_eq_true, ExtTreeSet.contains_iff_mem, not_not] at hknown
              tauto

theorem importResult_ne_badChain {env : Env} {b : Block} {isOurs : Bool} {q : BlockQueue}
    (hgood : ∀ h, h ∉ q.knownBad) : q.importResult env b isOurs ≠ .badChain := by
  have hcontains : q.knownBad.contains b.info.parentHash = false := by
    rw [← Bool.not_eq_true, ExtTreeSet.contains_iff_mem]
    exact hgood _
  rw [importResult]
  split
  · simp
  · split
    · simp
    · split
      · simp
      · split
        · split <;> simp
        · rw [hcontains, if_neg Bool.false_ne_true]
          split <;> simp

/-- The history with a block that waits for its parent. -/
theorem Orderly.wait {b : Block} {difficulty : U256} (hs : s.Orderly)
    (hready : b.info.hash ∉ s.queue.readySet) (hdraining : b.info.hash ∉ s.queue.drainingSet)
    (hunknown : b.info.hash ∉ s.queue.unknownSet) (hbytes : b.bytes ≠ []) :
    Orderly { s with
      queue := { s.queue with
        unknown := s.queue.unknown.insert b.info.parentHash b.info.hash b
        unknownSet := s.queue.unknownSet.insert b.info.hash
        difficulty := difficulty }
      again := if b.info.hash ∈ s.drained.map (·.info.hash) then b.info.hash :: s.again
        else s.again } := by
  have hentries : (s.queue.unknown.insert b.info.parentHash b.info.hash b).map.Perm
      ((b.info.parentHash, b.info.hash, b) :: s.queue.unknown.map) := insertEntry_perm _ _ _
  refine ⟨hs.kept.wait hready hdraining hunknown (hs.good _) hbytes, hs.good, hs.draining, ?_,
    hs.unverifiedLinked, hs.workingLinked, hs.places, hs.workingOnce, hs.grounded, ?_⟩
  · intro e he
    rcases List.mem_cons.mp (hentries.mem_iff.mp he) with rfl | he
    · rfl
    · exact hs.unknownLinked e he
  · intro h hcount
    exact count_of_accepted (((hentries.map fun e => e.2.1).append_left _).trans List.perm_middle)
      (hs.drained_of_mem hready hunknown) hs.once hcount

/-- The history with a block that is ready. -/
theorem Orderly.enqueue {env : Env} {b : Block} {difficulty : U256} (hs : s.Orderly)
    (hready : b.info.hash ∉ s.queue.readySet) (hdraining : b.info.hash ∉ s.queue.drainingSet)
    (hunknown : b.info.hash ∉ s.queue.unknownSet) (hbytes : b.bytes ≠ [])
    (hparent : (b.info.parentHash ∈ s.queue.readySet ∨ b.info.parentHash ∈ s.queue.drainingSet) ∨
      env.isKnown b.info.parentHash = true) :
    Orderly { s with
      queue := { s.queue with
        unverified := s.queue.unverified.enqueue
          { hash := b.info.hash, parentHash := b.info.parentHash, blockData := b }
        readySet := s.queue.readySet.insert b.info.hash
        difficulty := difficulty }
      inChain := if env.isKnown b.info.parentHash = true then
        (b.info.hash, b.info.parentHash) :: s.inChain else s.inChain
      again := if b.info.hash ∈ s.drained.map (·.info.hash) then b.info.hash :: s.again
        else s.again } := by
  have hsequence : sequence { s with
      queue := { s.queue with
        unverified := s.queue.unverified.enqueue
          { hash := b.info.hash, parentHash := b.info.parentHash, blockData := b }
        readySet := s.queue.readySet.insert b.info.hash
        difficulty := difficulty }
      inChain := if env.isKnown b.info.parentHash = true then
        (b.info.hash, b.info.parentHash) :: s.inChain else s.inChain
      again := if b.info.hash ∈ s.drained.map (·.info.hash) then b.info.hash :: s.again
        else s.again } = s.sequence ++ [(b.info.hash, b.info.parentHash)] := by
    simp only [sequence, heldPairs, SizedBlockQueue.enqueue, List.map_append, List.map_cons,
      List.map_nil, List.append_assoc]
  refine ⟨hs.kept.enqueue hready hdraining hunknown (hs.good _) hbytes, hs.good, hs.draining,
    hs.unknownLinked, ?_, hs.workingLinked, hs.places, hs.workingOnce, ?_, ?_⟩
  · intro w hw
    rcases List.mem_append.mp hw with hw | hw
    · exact hs.unverifiedLinked w hw
    · cases List.mem_singleton.mp hw
      rfl
  · rw [hsequence]
    refine Grounded.append ?_ ?_
    · intro l₁ p l₂ heq
      refine (hs.grounded l₁ p l₂ heq).imp_left fun hp => ?_
      dsimp only
      split
      · exact .tail _ hp
      · exact hp
    · intro l₁ p l₂ heq
      cases l₁ with
      | cons p' l₁ => simp at heq
      | nil =>
          cases heq
          rcases hparent with hparent | hknown
          · exact .inr (.inr (.inl (hs.mem_sequence hparent)))
          · refine .inl ?_
            dsimp only
            rw [if_pos hknown]
            exact .head _
  · intro h hcount
    refine count_of_accepted ?_ (hs.drained_of_mem hready hunknown) hs.once hcount
    rw [hsequence, List.map_append, List.append_assoc]
    exact List.perm_middle

theorem Orderly.import {env : Env} {b : Block} {isOurs : Bool} (hs : s.Orderly) :
    (s.record (.import env b isOurs) (s.queue.import env b isOurs)).Orderly := by
  have hsame : ∀ q : BlockQueue, q.Kept → q.heldPairs = s.queue.heldPairs →
      q.unknown = s.queue.unknown → q.drainingSet = s.queue.drainingSet →
      q.knownBad = s.queue.knownBad → q.unverified = s.queue.unverified →
      q.working = s.queue.working → q.verifying = s.queue.verifying →
      Orderly { s with queue := q } := by
    intro q hq hpairs hunknown hdraining hbad hunverified hworking hverifying
    refine hs.passed hq hpairs hunknown hdraining hbad ?_ ?_ ?_ ?_
    · rw [hunverified]
      exact hs.unverifiedLinked
    · rw [hworking]
      exact hs.workingLinked
    · rw [hworking, hverifying]
      exact hs.places
    · rw [hworking]
      exact hs.workingOnce
  have hfresh := fresh_of_importResult s.queue env b isOurs
  have hkept : (s.queue.import env b isOurs).Kept := hs.kept.import fun hresult =>
    absurd hresult (importResult_ne_badChain hs.good)
  simp only [record]
  rw [BlockQueue.import] at hkept ⊢
  cases hresult : s.queue.importResult env b isOurs with
  | futureTimeKnown | futureTimeUnknown =>
      simp only [hresult, reduceCtorEq, false_and, or_self, if_false] at hkept ⊢
      exact hsame _ hkept rfl rfl rfl rfl rfl rfl rfl
  | badChain => exact absurd hresult (importResult_ne_badChain hs.good)
  | unknownParent =>
      rw [hresult] at hfresh
      obtain ⟨hready, hdraining, hunknown, -, hbytes⟩ :=
        hfresh (by simp) (by simp)
      simp only [reduceCtorEq, false_and, or_true, true_and, if_false]
      exact hs.wait hready hdraining hunknown hbytes
  | success =>
      rw [hresult] at hfresh
      obtain ⟨hready, hdraining, hunknown, -, hbytes⟩ :=
        hfresh (by simp) (by simp)
      simp only [true_or, true_and]
      refine (hs.enqueue hready hdraining hunknown hbytes (importResult_cases hresult)).noteReady
        b.info.hash ?_
      intro e _ hkey
      refine .inr ?_
      rw [hkey, sequence, List.map_append, heldPairs_fst, List.mem_append]
      refine .inr (List.mem_append_right _ ?_)
      exact List.mem_map.mpr ⟨_, List.mem_append_right _ (.head _), rfl⟩
  | alreadyInChain | alreadyKnown | malformed | overbidGasPrice | zeroSignature =>
      simp only [reduceCtorEq, false_and, or_self, if_false]
      exact hs

theorem Orderly.drain (hs : s.Orderly) (max : Nat) :
    Orderly { s with
      queue := (s.queue.drain max).2
      drained := s.drained ++ (s.queue.drain max).1 } := by
  have hkept := hs.kept.drain max
  rw [BlockQueue.drain] at hkept ⊢
  split
  · rename_i hempty
    rw [if_pos hempty] at hkept
    dsimp only at hkept ⊢
    generalize min max s.queue.verified.queue.length = n at hkept
    -- The batch moves from the front of the held blocks to the end of the drained ones.
    have hsequence : (s.drained ++ s.queue.verified.queue.take n).map pair ++
        ((s.queue.verified.queue.drop n).map (fun b => (b.info.hash, b.info.parentHash)) ++
          s.queue.verifying.queue.map (fun b => (b.heldHash, b.info.parentHash)) ++
          s.queue.unverified.queue.map fun w => (w.hash, w.parentHash)) = s.sequence := by
      rw [sequence, heldPairs]
      nth_rw 3 [← List.take_append_drop n s.queue.verified.queue]
      simp only [List.map_append, List.append_assoc]
      rfl
    refine ⟨hkept, hs.good, ?_, hs.unknownLinked, hs.unverifiedLinked, hs.workingLinked, hs.places,
      hs.workingOnce, ?_, ?_⟩
    · intro h hh
      have hh : h ∈ ((s.queue.verified.queue.take n).map (·.info.hash)).foldl .insert
          s.queue.drainingSet := hh
      rw [mem_foldl_insert, ExtTreeSet.isEmpty_iff.mp hempty] at hh
      rw [List.map_append]
      exact List.mem_append_right _ (hh.resolve_right ExtTreeSet.not_mem_empty)
    · intro l₁ p l₂ heq
      exact hs.grounded l₁ p l₂ (hsequence.symm.trans heq)
    · intro h hcount
      exact hs.once h (hsequence ▸ hcount)
  · rw [List.append_nil]
    exact hs

/-! ## Runs -/

theorem Orderly.step {op : Op} (hs : s.Orderly) (hop : s.allGood op = true)
    (hstep : s.step op = some s') : s'.Orderly := by
  obtain ⟨q, hq, rfl⟩ := Option.map_eq_some_iff.mp hstep
  cases op with
  | «import» env b isOurs =>
      cases hq
      exact hs.import
  | tick utcTime =>
      cases hq
      exact hs.passed (hs.kept.congr rfl rfl rfl rfl rfl rfl hs.kept.unverifiedNamed
        hs.kept.workingNamed) rfl rfl rfl rfl hs.unverifiedLinked hs.workingLinked hs.places
        hs.workingOnce
  | noteReady good =>
      cases hq
      have hs' : Orderly { s with
          noted := ((s.queue.unknown.map.filter fun e => e.1 = good).map fun e => (e.2.1, e.1)) ++
            s.noted } := by
        refine ⟨hs.kept, hs.good, hs.draining, hs.unknownLinked, hs.unverifiedLinked,
          hs.workingLinked, hs.places, hs.workingOnce, ?_, hs.once⟩
        intro l₁ p l₂ heq
        refine (hs.grounded l₁ p l₂ heq).imp_right fun hp => hp.imp_left fun hp => ?_
        exact List.mem_append_right _ hp
      refine hs'.noteReady good ?_
      intro e he hkey
      refine .inl (List.mem_append_left _ (List.mem_map.mpr ⟨e, ?_, rfl⟩))
      exact List.mem_filter.mpr ⟨he, decide_eq_true hkey⟩
  | retryAllUnknown => cases hop
  | drain max =>
      cases hq
      exact hs.drain max
  | doneDrain env bad =>
      cases hq
      cases List.isEmpty_iff.mp hop
      have hkept : (s.queue.doneDrain env []).Kept := hs.kept.doneDrain (.inl rfl)
      exact ⟨hkept, hs.good, fun h hh => absurd hh ExtTreeSet.not_mem_empty, hs.unknownLinked,
        hs.unverifiedLinked, hs.workingLinked, hs.places, hs.workingOnce, hs.grounded, hs.once⟩
  | clear => cases hop
  | start => exact hs.start hq
  | finish i good tail =>
      rw [allGood, Bool.and_eq_true] at hop
      obtain ⟨rfl, hapart⟩ := hop
      refine hs.finish (fun w hw => ?_) hq
      rw [hw, Option.all_some] at hapart
      exact hapart

/-- **Along every run in which nothing is bad, the parent of a drained block was in the
chain when the block was accepted, or was noted as ready while the block waited for it,
or has been drained before; and a block that is drained twice was accepted again, by a
chain that did not know it, after it had been drained.** -/
theorem drained_parents_first (h : system.Reach (fun s op => s.allGood op = true) s) :
    (∀ l₁ b l₂, s.drained = l₁ ++ b :: l₂ → pair b ∈ s.inChain ∨ pair b ∈ s.noted ∨
      b.info.parentHash ∈ l₁.map (·.info.hash)) ∧
    ∀ h, 2 ≤ (s.drained.map (·.info.hash)).count h → h ∈ s.again := by
  have hs : s.Orderly := by
    refine System.Reach.invariant (I := Orderly) ?_ ?_ h
    · rintro s rfl
      exact orderly_empty
    · intro s op s' _ hs hop hstep
      exact hs.step hop hstep
  constructor
  · intro l₁ b l₂ hsplit
    have hgrounded := hs.grounded (l₁.map pair) (pair b) (l₂.map pair ++ s.queue.heldPairs) (by
      rw [sequence, hsplit, List.map_append, List.map_cons, List.append_assoc, List.cons_append])
    rwa [List.map_map] at hgrounded
  · intro h hcount
    refine hs.once h ?_
    rw [sequence, List.map_append, List.map_map, List.append_assoc, List.count_append]
    exact Nat.le_add_right_of_le hcount

/-- Three blocks come in backwards and are verified in another order. -/
theorem drained_parents_first_three :
    ∃ s, system.Reach (fun s op => s.allGood op = true) s ∧
      s.drained.map pair = [(11, 5), (12, 11), (13, 12)] ∧
      ∀ l₁ b l₂, s.drained = l₁ ++ b :: l₂ → pair b ∈ s.inChain ∨ pair b ∈ s.noted ∨
        b.info.parentHash ∈ l₁.map (·.info.hash) := by
  have hstart : system.Reach (fun s op => s.allGood op = true) {} := .init rfl
  obtain ⟨s, hreach, hs⟩ := hstart.exists_of_check
    [sampleImport [5] 13 12, sampleImport [5] 12 11, sampleImport [5] 11 5, .start, .start, .start,
      .finish 2 true (strayTails 0).verifying, .finish 1 true (strayTails 0).verifying,
      .finish 0 true (strayTails 0).verifying, .drain 1,
      .doneDrain { tails := fun _ _ => strayTails 0 } [], .drain 8]
    (p := fun s => s.drained.map pair == [(11, 5), (12, 11), (13, 12)])
    (by decide +kernel) (by decide +kernel)
  exact ⟨s, hreach, beq_iff_eq.mp hs, (drained_parents_first hreach).1⟩

/-- A block waits for its parent until `noteReady` is called with it.  The parent was not
in the chain when the block was imported, and is not drained.  And a drained block that
the chain has not taken in is imported and drained again. -/
theorem noted_parent_is_not_drained :
    (∃ s, system.Reach (fun s op => s.allGood op = true) s ∧
      ¬ ∀ l₁ b l₂, s.drained = l₁ ++ b :: l₂ → pair b ∈ s.inChain ∨
        b.info.parentHash ∈ l₁.map (·.info.hash)) ∧
    ∃ s, system.Reach (fun s op => s.allGood op = true) s ∧
      ¬ (s.drained.map (·.info.hash)).Nodup := by
  have hstart : system.Reach (fun s op => s.allGood op = true) {} := .init rfl
  constructor
  · obtain ⟨s, hreach, hs⟩ := hstart.exists_of_check
      ([sampleImport [5] 2 1, .noteReady 1] ++ sampleVerify true ++ [.drain 8])
      (p := fun s => s.drained.map pair == [(2, 1)] && s.inChain == [])
      (by decide +kernel) (by decide +kernel)
    rw [Bool.and_eq_true, beq_iff_eq, beq_iff_eq] at hs
    refine ⟨s, hreach, ?_⟩
    intro hclaim
    obtain ⟨b, hdrained, hb⟩ := List.map_eq_singleton_iff.mp hs.1
    rcases hclaim [] b [] hdrained with hmem | hmem
    · rw [hs.2] at hmem
      exact absurd hmem List.not_mem_nil
    · exact absurd hmem List.not_mem_nil
  · obtain ⟨s, hreach, hs⟩ := hstart.exists_of_check
      ([sampleImport [5] 1 5] ++ sampleVerify true ++
        [.drain 8, .doneDrain { tails := fun _ _ => strayTails 0 } [], sampleImport [5] 1 5] ++
        sampleVerify true ++ [.drain 8])
      (p := fun s => s.drained.map (·.info.hash) == [1, 1])
      (by decide +kernel) (by decide +kernel)
    refine ⟨s, hreach, ?_⟩
    rw [beq_iff_eq.mp hs]
    decide

end History

end BlockQueue

end CppSwc
