import CppSwc.BlockQueue.Condemned

/-!
# The books of the block queue

Four sets of hashes say where each block is.  `readySet` is meant to be the hashes held
in the three queues, each once, `unknownSet` those of `unknown`, and the four sets are
meant to have nothing in common.  `Located` is the part of this that every operation
keeps, whatever happens.

Bad blocks break the rest.  `updateBad` removes blocks and notes other hashes, see
`Condemned`.  And a verifier may fail on a block that `clear` has thrown out and that
has been imported again since: its hash is struck off `readySet` while the new copy
waits.  Everywhere else the books are kept.
-/

namespace CppSwc

open Lib Std

namespace BlockQueue

variable {q q' : BlockQueue} {bad : List H256} {h x : H256}

/-- The hashes of the blocks in the three queues. -/
def heldHashes (q : BlockQueue) : List H256 :=
  q.verified.queue.map (·.info.hash) ++ q.verifying.queue.map (·.heldHash) ++
    q.unverified.queue.map (·.hash)

/-- The sets say where the blocks are, and have nothing in common. -/
structure Exact (q : BlockQueue) : Prop where
  heldOnce : q.heldHashes.Nodup
  ready : ∀ h, h ∈ q.readySet ↔ h ∈ q.heldHashes
  unknown : ∀ h, h ∈ q.unknownSet ↔ h ∈ q.unknown.hashes
  readyApart : ∀ h ∈ q.readySet, h ∉ q.drainingSet ∧ h ∉ q.unknownSet ∧ h ∉ q.knownBad
  drainingApart : ∀ h ∈ q.drainingSet, h ∉ q.unknownSet ∧ h ∉ q.knownBad
  unknownApart : ∀ h ∈ q.unknownSet, h ∉ q.knownBad

/-- The hash of a block is kept beside it, and it has block data. -/
def Named (hash : H256) (b : Block) : Prop := hash = b.info.hash ∧ b.bytes ≠ []

/-- Where the blocks are, bad hashes apart. -/
structure Located (q : BlockQueue) : Prop where
  once : (q.heldHashes ++ q.unknown.hashes).Nodup
  ready : ∀ h, h ∈ q.readySet ↔ h ∈ q.heldHashes
  unknown : ∀ h, h ∈ q.unknownSet ↔ h ∈ q.unknown.hashes
  draining : ∀ h ∈ q.drainingSet, h ∉ q.heldHashes ++ q.unknown.hashes
  named : ∀ e ∈ q.unknown.map, Named e.2.1 e.2.2
  unverifiedNamed : ∀ w ∈ q.unverified.queue, Named w.hash w.blockData
  workingNamed : ∀ w ∈ q.working, Named w.hash w.blockData

/-- The books are kept. -/
structure Kept (q : BlockQueue) : Prop extends Located q where
  bad : ∀ h ∈ q.knownBad, h ∉ q.heldHashes ++ q.unknown.hashes ∧ h ∉ q.drainingSet

theorem Kept.exact (h : q.Kept) : q.Exact := by
  have hnodup := List.nodup_append.mp h.once
  refine ⟨hnodup.1, h.ready, h.unknown, ?_, ?_, ?_⟩
  · intro hash hready
    rw [h.ready] at hready
    refine ⟨fun hdraining => h.draining hash hdraining (List.mem_append_left _ hready), ?_,
      fun hbad => (h.bad hash hbad).1 (List.mem_append_left _ hready)⟩
    rw [h.unknown]
    exact fun hunknown => hnodup.2.2 hash hready hash hunknown rfl
  · intro hash hdraining
    rw [h.unknown]
    exact ⟨fun hunknown => h.draining hash hdraining (List.mem_append_right _ hunknown),
      fun hbad => (h.bad hash hbad).2 hdraining⟩
  · intro hash hunknown hbad
    rw [h.unknown] at hunknown
    exact (h.bad hash hbad).1 (List.mem_append_right _ hunknown)

theorem kept_empty : Kept {} := by
  refine ⟨⟨List.nodup_nil, ?_, ?_, ?_, ?_, ?_, ?_⟩, ?_⟩
  · intro h
    simp [heldHashes]
  · intro h
    simp [SizedBlockMap.hashes]
  · exact fun h hh => absurd hh ExtTreeSet.not_mem_empty
  · exact fun e he => absurd he List.not_mem_nil
  · exact fun w hw => absurd hw List.not_mem_nil
  · exact fun w hw => absurd hw List.not_mem_nil
  · exact fun h hh => absurd hh ExtTreeSet.not_mem_empty

/-- The books do not depend on the order in which blocks are held. -/
theorem Kept.congr (hq : q.Kept) (hheld : q'.heldHashes = q.heldHashes)
    (hready : q'.readySet = q.readySet) (hunknownSet : q'.unknownSet = q.unknownSet)
    (hunknown : q'.unknown = q.unknown) (hdraining : q'.drainingSet = q.drainingSet)
    (hbad : q'.knownBad = q.knownBad)
    (hunverified : ∀ w ∈ q'.unverified.queue, Named w.hash w.blockData)
    (hworking : ∀ w ∈ q'.working, Named w.hash w.blockData) : q'.Kept := by
  refine ⟨⟨?_, ?_, ?_, ?_, ?_, hunverified, hworking⟩, ?_⟩
  · rw [hheld, hunknown]
    exact hq.once
  · rw [hheld, hready]
    exact hq.ready
  · rw [hunknown, hunknownSet]
    exact hq.unknown
  · rw [hheld, hunknown, hdraining]
    exact hq.draining
  · rw [hunknown]
    exact hq.named
  · rw [hheld, hunknown, hbad, hdraining]
    exact hq.bad

/-- A held block turns out to be bad. -/
theorem Kept.struck (hq : q.Kept) (hheld : q.heldHashes.Perm (x :: q'.heldHashes))
    (hready : q'.readySet = q.readySet.erase x) (hunknownSet : q'.unknownSet = q.unknownSet)
    (hunknown : q'.unknown = q.unknown) (hdraining : q'.drainingSet = q.drainingSet)
    (hbad : q'.knownBad = q.knownBad.insert x) (hunverified : q'.unverified = q.unverified)
    (hworking : q'.working = q.working) : q'.Kept := by
  have hperm : (q.heldHashes ++ q.unknown.hashes).Perm
      (x :: (q'.heldHashes ++ q.unknown.hashes)) := hheld.append_right _
  obtain ⟨hfresh, honce⟩ := List.nodup_cons.mp (hperm.nodup_iff.mp hq.once)
  have hsub : ∀ h, h ∈ q'.heldHashes ++ q.unknown.hashes → h ∈ q.heldHashes ++ q.unknown.hashes :=
    fun h hh => hperm.mem_iff.mpr (.tail _ hh)
  refine ⟨⟨?_, ?_, ?_, ?_, ?_, ?_, ?_⟩, ?_⟩
  · rw [hunknown]
    exact honce
  · intro h
    rw [hready, mem_erase_iff, hq.ready, hheld.mem_iff, List.mem_cons]
    constructor
    · rintro ⟨hne, rfl | hh⟩
      · exact absurd rfl hne
      · exact hh
    · intro hh
      refine ⟨?_, .inr hh⟩
      rintro rfl
      exact hfresh (List.mem_append_left _ hh)
  · rw [hunknown, hunknownSet]
    exact hq.unknown
  · intro h hh
    rw [hunknown]
    exact fun hmem => hq.draining h (hdraining ▸ hh) (hsub h hmem)
  · rw [hunknown]
    exact hq.named
  · rw [hunverified]
    exact hq.unverifiedNamed
  · rw [hworking]
    exact hq.workingNamed
  · intro h hh
    rw [hbad, mem_insert_iff] at hh
    rw [hunknown, hdraining]
    rcases hh with rfl | hh
    · exact ⟨hfresh, fun hdrain => hq.draining _ hdrain (hperm.mem_iff.mpr (.head _))⟩
    · exact ⟨fun hmem => (hq.bad h hh).1 (hsub h hmem), (hq.bad h hh).2⟩

/-! ## Verifiers -/

/-- A block that a verifier takes is held as before. -/
theorem Kept.start (hq : q.Kept) (hstart : q.start = some q') : q'.Kept := by
  rw [BlockQueue.start] at hstart
  cases hqueue : q.unverified.queue with
  | nil =>
      rw [hqueue] at hstart
      cases hstart
  | cons w ws =>
      rw [hqueue] at hstart
      cases hstart
      have hunverified : q.unverified.dequeue.queue = ws := by
        rw [SizedBlockQueue.dequeue, hqueue]
      have hnamed := hq.unverifiedNamed
      rw [hqueue] at hnamed
      refine hq.congr ?_ rfl rfl rfl rfl rfl ?_ ?_
      · simp only [heldHashes, hunverified, SizedBlockQueue.enqueue, hqueue, List.map_append,
          List.map_cons, List.map_nil, List.append_assoc, List.cons_append, List.nil_append]
        rfl
      · intro w' hw'
        rw [hunverified] at hw'
        exact hnamed w' (.tail _ hw')
      · intro w' hw'
        rcases List.mem_append.mp hw' with hw' | hw'
        · exact hq.workingNamed w' hw'
        · cases List.mem_singleton.mp hw'
          exact hnamed w (.head _)

theorem Kept.startMany (hq : q.Kept) (n : Nat) : (startMany n q).Kept := by
  induction n generalizing q with
  | zero => exact hq
  | succ n ih =>
      refine ih ?_
      cases hstart : q.start with
      | none => exact hq
      | some q' => exact hq.start hstart

/-- The block at the head of `verifying` is verified, in the end, or struck off. -/
theorem Kept.accept {e b : VerifiedBlock} {es : List VerifiedBlock} (hq : q.Kept)
    (hqueue : q.verifying.queue = e :: es) (hhash : e.heldHash = b.info.hash) :
    (accept b { q with verifying := q.verifying.dequeue }).Kept := by
  have hdequeue : q.verifying.dequeue.queue = es := by rw [SizedBlockQueue.dequeue, hqueue]
  rw [BlockQueue.accept]
  split
  · refine hq.struck (x := b.info.hash) ?_ rfl rfl rfl rfl rfl rfl rfl
    simp only [heldHashes, hdequeue, hqueue, List.map_cons, hhash, List.append_assoc,
      List.cons_append]
    exact List.perm_middle
  · refine hq.congr ?_ rfl rfl rfl rfl rfl hq.unverifiedNamed hq.workingNamed
    simp only [heldHashes, hdequeue, hqueue, SizedBlockQueue.enqueue, List.map_append, List.map_cons,
      List.map_nil, hhash, List.append_assoc, List.cons_append, List.nil_append]

theorem Kept.drainLoop (hq : q.Kept) (n : Nat) : (drainLoop n q).Kept := by
  induction n generalizing q with
  | zero => exact hq
  | succ n ih =>
      rw [BlockQueue.drainLoop]
      split
      · exact hq
      · rename_i b bs hqueue
        split
        · rename_i hfinished
          exact ih (hq.accept hqueue (if_pos hfinished))
        · exact hq

theorem Kept.drainVerified (hq : q.Kept) : q.drainVerified.Kept := hq.drainLoop _

/-- No finished block has the hash in the field `sha3Uncles`. -/
def unclesApart (hash : H256) (q : BlockQueue) : Bool :=
  q.verifying.queue.all fun b => !b.isFinished || b.info.sha3Uncles != hash

/-- Where the hash is found in `verifying`, it is that of a block being verified. -/
theorem heldHash_of_unclesApart (hapart : q.unclesApart x = true) {b : VerifiedBlock}
    (hb : b ∈ q.verifying.queue) (hhash : b.info.sha3Uncles = x) :
    b.isFinished = false ∧ b.heldHash = x := by
  have hthis := List.all_eq_true.mp hapart b hb
  rw [hhash, bne_self_eq_false, Bool.or_false, Bool.not_eq_true'] at hthis
  refine ⟨hthis, ?_⟩
  rw [VerifiedBlock.heldHash, if_neg (by rw [hthis]; exact Bool.false_ne_true), hhash]

theorem map_replaceFirst {α β : Type} [HasBlockData α] {p : α → Bool} {f : α → β} {b : α}
    {l : List α} (h : ∀ x ∈ l, p x = true → f x = f b) :
    (SizedBlockQueue.replaceFirst p b l).map f = l.map f := by
  induction l with
  | nil => rfl
  | cons x l ih =>
      rw [SizedBlockQueue.replaceFirst]
      split
      · rename_i hp
        rw [List.map_cons, List.map_cons, h x (.head _) hp]
      · rw [List.map_cons, List.map_cons, ih fun y hy => h y (.tail _ hy)]

theorem mem_replaceFirst_of {α : Type} {p : α → Bool} {b x : α} {l : List α}
    (hx : x ∈ SizedBlockQueue.replaceFirst p b l) : x ∈ l ∨ x = b := by
  induction l with
  | nil => cases hx
  | cons y l ih =>
      rw [SizedBlockQueue.replaceFirst] at hx
      split at hx
      · exact (List.mem_cons.mp hx).symm.imp_left (.tail _)
      · rcases List.mem_cons.mp hx with rfl | hx
        · exact .inl (.head _)
        · exact (ih hx).imp_left (.tail _)

theorem mem_replace {s : SizedBlockQueue VerifiedBlock} {b x : VerifiedBlock}
    (hx : x ∈ (s.replace h b).queue) : x ∈ s.queue ∨ x = b := by
  rw [SizedBlockQueue.replace, SizedBlockQueue.replaceIf] at hx
  split at hx
  · exact .inl hx
  · exact mem_replaceFirst_of hx

/-- A verifier that succeeds keeps the books. -/
theorem Kept.succeed {w : UnverifiedBlock} (hq : q.Kept) (hw : Named w.hash w.blockData)
    (hapart : q.unclesApart w.hash = true) : (q.succeed w).Kept := by
  have hfinished : (VerifiedBlock.ofWork w).isFinished = true := by
    simp [VerifiedBlock.isFinished, VerifiedBlock.ofWork, hw.2]
  have hres : (VerifiedBlock.ofWork w).heldHash = w.hash := by
    rw [VerifiedBlock.heldHash, if_pos hfinished, hw.1]
    rfl
  rw [BlockQueue.succeed]
  split
  · rename_i hnext
    cases hqueue : q.verifying.queue with
    | nil =>
        rw [hqueue] at hnext
        cases hnext
    | cons e es =>
        rw [hqueue, List.head?_cons, Option.any_some, beq_iff_eq] at hnext
        have hheld := heldHash_of_unclesApart hapart (hqueue ▸ List.mem_cons_self) hnext
        exact (hq.accept hqueue (hheld.2.trans hw.1)).drainVerified
  · refine hq.congr ?_ rfl rfl rfl rfl rfl hq.unverifiedNamed hq.workingNamed
    rw [heldHashes, heldHashes, SizedBlockQueue.replace, SizedBlockQueue.replaceIf]
    split
    · rfl
    · dsimp only
      rw [map_replaceFirst]
      intro b hb hhash
      rw [hres, (heldHash_of_unclesApart hapart hb (beq_iff_eq.mp hhash)).2]

/-- The block is being verified, or it is nowhere. -/
def isAt (hash : H256) (q : BlockQueue) : Bool :=
  q.verifying.queue.any (fun b => !b.isFinished && b.info.sha3Uncles == hash) ||
    !q.readySet.contains hash && !q.drainingSet.contains hash && !q.unknownSet.contains hash

/-- If only one image is met by `p`, filtering takes out one element. -/
theorem map_perm_filter_not {α β : Type} {p : α → Bool} {f : α → β} {e : α} {l : List α}
    (hnodup : (l.map f).Nodup) (he : e ∈ l) (hp : p e = true)
    (h : ∀ b ∈ l, p b = true → f b = f e) :
    (l.map f).Perm (f e :: (l.filter (!p ·)).map f) := by
  induction l with
  | nil => cases he
  | cons b l ih =>
      rw [List.map_cons, List.nodup_cons] at hnodup
      cases hb : p b with
      | true =>
          have hall : l.filter (!p ·) = l := by
            rw [List.filter_eq_self]
            intro b' hb'
            rw [Bool.not_eq_true', ← Bool.not_eq_true]
            intro hp'
            refine hnodup.1 ?_
            rw [h b (.head _) hb, ← h b' (.tail _ hb') hp']
            exact List.mem_map_of_mem hb'
          rw [List.filter_cons_of_neg (by simp [hb]), hall, List.map_cons, h b (.head _) hb]
      | false =>
          have he' : e ∈ l := by
            rcases List.mem_cons.mp he with rfl | he
            · rw [hp] at hb
              cases hb
            · exact he
          rw [List.filter_cons_of_pos (by simp [hb]), List.map_cons, List.map_cons]
          exact ((ih hnodup.2 he' fun b hb => h b (.tail _ hb)).cons _).trans (.swap _ _ _)

/-- A verifier that fails keeps the books if its block is still there, or has not come
back. -/
theorem Kept.fail {w : UnverifiedBlock} {tail : Nat → VerifiedBlock} (hq : q.Kept)
    (hapart : q.unclesApart w.hash = true) (hat : q.isAt w.hash = true) : (q.fail tail w).Kept := by
  refine Kept.drainVerified ?_
  have hqueue : (q.verifying.remove tail w.hash).queue =
      q.verifying.queue.filter (!·.info.sha3Uncles == w.hash) := rfl
  rw [isAt, Bool.or_eq_true, List.any_eq_true] at hat
  rcases hat with ⟨e, he, hunfinished⟩ | hnowhere
  · rw [Bool.and_eq_true, beq_iff_eq] at hunfinished
    have hheld := (heldHash_of_unclesApart hapart he hunfinished.2).2
    refine hq.struck (x := w.hash) ?_ rfl rfl rfl rfl rfl rfl rfl
    have hnodup : (q.verifying.queue.map (·.heldHash)).Nodup :=
      (List.nodup_append.mp (List.nodup_append.mp (List.nodup_append.mp hq.once).1).1).2.1
    have hperm := map_perm_filter_not (p := (·.info.sha3Uncles == w.hash)) hnodup he
      (beq_iff_eq.mpr hunfinished.2) (by
        intro b hb hhash
        rw [hheld, (heldHash_of_unclesApart hapart hb (beq_iff_eq.mp hhash)).2])
    rw [heldHashes, heldHashes, hqueue]
    rw [hheld] at hperm
    refine ((hperm.append_left _).append_right _).trans ?_
    rw [List.append_assoc, List.append_assoc]
    exact List.perm_middle
  · simp only [Bool.and_eq_true, Bool.not_eq_true', ← Bool.not_eq_true,
      ExtTreeSet.contains_iff_mem] at hnowhere
    obtain ⟨⟨hready, hdraining⟩, hunknown⟩ := hnowhere
    rw [hq.ready] at hready
    rw [hq.unknown] at hunknown
    -- No place is held for the block, so none is given up.
    have hsame : q.verifying.queue.filter (!·.info.sha3Uncles == w.hash) = q.verifying.queue := by
      rw [List.filter_eq_self]
      intro b hb
      rw [Bool.not_eq_true', beq_eq_false_iff_ne]
      intro hhash
      refine hready (List.mem_append_left _ (List.mem_append_right _ ?_))
      rw [← (heldHash_of_unclesApart hapart hb hhash).2]
      exact List.mem_map_of_mem hb
    have hheld : heldHashes { q with
        readySet := q.readySet.erase w.hash
        knownBad := q.knownBad.insert w.hash
        verifying := q.verifying.remove tail w.hash } = q.heldHashes := by
      rw [heldHashes, heldHashes, hqueue, hsame]
    refine ⟨⟨?_, ?_, hq.unknown, ?_, hq.named, hq.unverifiedNamed, hq.workingNamed⟩, ?_⟩
    · rw [hheld]
      exact hq.once
    · intro h
      rw [hheld, mem_erase_iff, hq.ready]
      refine ⟨fun hh => hh.2, fun hh => ⟨?_, hh⟩⟩
      rintro rfl
      exact hready hh
    · rw [hheld]
      exact hq.draining
    · intro h hh
      rw [hheld]
      rw [mem_insert_iff] at hh
      rcases hh with rfl | hh
      · refine ⟨fun hmem => ?_, hdraining⟩
        rcases List.mem_append.mp hmem with hmem | hmem
        · exact hready hmem
        · exact hunknown hmem
      · exact hq.bad h hh

theorem Kept.finish {i : Nat} {good : Bool} {tail : Nat → VerifiedBlock} (hq : q.Kept)
    (hok : ∀ w, q.working[i]? = some w →
      q.unclesApart w.hash = true ∧ (good = true ∨ q.isAt w.hash = true))
    (hfinish : q.finish i good tail = some q') : q'.Kept := by
  rw [BlockQueue.finish] at hfinish
  cases hw : q.working[i]? with
  | none =>
      rw [hw] at hfinish
      cases hfinish
  | some w =>
      rw [hw] at hfinish
      cases hfinish
      obtain ⟨hapart, hgood⟩ := hok w hw
      have hnamed := hq.workingNamed w (List.mem_of_getElem? hw)
      have hq' : Kept { q with working := q.working.eraseIdx i } :=
        hq.congr rfl rfl rfl rfl rfl rfl hq.unverifiedNamed fun w' hw' =>
          hq.workingNamed w' ((List.eraseIdx_sublist _ _).subset hw')
      cases good with
      | true => exact hq'.succeed hnamed hapart
      | false => exact hq'.fail hapart (hgood.resolve_left Bool.false_ne_true)

/-! ## Blocks with unknown parents -/

theorem foldl_enqueue_queue (entries : List (H256 × H256 × Block))
    (s : SizedBlockQueue UnverifiedBlock) :
    (entries.foldl (fun s e => s.enqueue (unverifiedOf e)) s).queue =
      s.queue ++ entries.map unverifiedOf := by
  induction entries generalizing s with
  | nil => simp
  | cons e entries ih =>
      rw [List.foldl_cons, ih, SizedBlockQueue.enqueue, List.map_cons, List.append_assoc]
      rfl

/-- Blocks that become ready are held instead of waiting. -/
theorem Kept.release {taken rest : List (H256 × H256 × Block)} (hq : q.Kept)
    (hperm : (taken ++ rest).Perm q.unknown.map) :
    (release taken { q with unknown := q.unknown.removeRange taken rest }).Kept := by
  have hheld : (BlockQueue.release taken { q with
      unknown := q.unknown.removeRange taken rest }).heldHashes =
      q.heldHashes ++ taken.map fun e => e.2.1 := by
    simp only [heldHashes, BlockQueue.release, foldl_enqueue_queue, List.map_append, List.map_map,
      List.append_assoc]
    rfl
  have hunknown : q.unknown.hashes.Perm
      ((taken.map fun e => e.2.1) ++ rest.map fun e => e.2.1) := by
    rw [← List.map_append]
    exact (hperm.map _).symm
  have hall : (q.heldHashes ++ q.unknown.hashes).Perm
      ((q.heldHashes ++ taken.map fun e => e.2.1) ++ rest.map fun e => e.2.1) := by
    rw [List.append_assoc]
    exact hunknown.append_left _
  have honce := hall.nodup_iff.mp hq.once
  refine ⟨⟨?_, ?_, ?_, ?_, ?_, ?_, hq.workingNamed⟩, ?_⟩
  · rw [hheld]
    exact honce
  · intro h
    rw [hheld, BlockQueue.release, mem_foldl_insert, hq.ready, List.mem_append, or_comm]
  · intro h
    rw [BlockQueue.release, mem_foldl_erase, hq.unknown, hunknown.mem_iff, List.mem_append]
    constructor
    · rintro ⟨hnot, hh | hh⟩
      · exact absurd hh hnot
      · exact hh
    · intro hh
      refine ⟨fun htaken => ?_, .inr hh⟩
      exact (List.nodup_append.mp honce).2.2 h (List.mem_append_right _ htaken) h hh rfl
  · intro h hh
    rw [hheld]
    exact fun hmem => hq.draining h hh (hall.mem_iff.mpr hmem)
  · intro e he
    exact hq.named e (hperm.mem_iff.mp (List.mem_append_right _ he))
  · intro w hw
    rw [BlockQueue.release, foldl_enqueue_queue] at hw
    rcases List.mem_append.mp hw with hw | hw
    · exact hq.unverifiedNamed w hw
    · obtain ⟨e, he, rfl⟩ := List.mem_map.mp hw
      exact hq.named e (hperm.mem_iff.mp (List.mem_append_left _ he))
  · intro h hh
    rw [hheld]
    exact ⟨fun hmem => (hq.bad h hh).1 (hall.mem_iff.mpr hmem), (hq.bad h hh).2⟩

theorem Kept.noteReady (hq : q.Kept) (good : H256) : (q.noteReady good).Kept :=
  hq.release (gathered_below q good).perm

theorem Kept.retryLoop (hq : q.Kept) (n : Nat) : (retryLoop n q).Kept := by
  induction n generalizing q with
  | zero => exact hq
  | succ n ih =>
      rw [BlockQueue.retryLoop]
      split
      · exact hq
      · rename_i first _ _
        refine ih (hq.release ?_)
        have hsplit := List.filter_append_perm
          (fun e : H256 × H256 × Block => decide (e.1 = first.1)) q.unknown.map
        simpa only [decide_not] using hsplit

/-! ## Bad blocks -/

theorem mem_collect_unknownSet : h ∈ (q.collect bad).unknownSet ↔
    h ∉ (q.collected bad).map (fun e => e.2.1) ∧ h ∈ q.unknownSet := by
  induction bad generalizing q with
  | nil => simp [collect, collected]
  | cons b bad ih =>
      have hcollect := ih (q := q.collectUnknownBad b)
      rw [show (q.collectUnknownBad b).unknownSet =
        ((q.below b).1.map fun e => e.2.1).foldl .erase q.unknownSet from rfl,
        mem_foldl_erase] at hcollect
      rw [collected, List.map_append, List.mem_append]
      exact hcollect.trans (by tauto)

@[simp] theorem collect_readySet : (q.collect bad).readySet = q.readySet := by
  induction bad generalizing q with
  | nil => rfl
  | cons b bad ih => exact ih

@[simp] theorem collect_drainingSet : (q.collect bad).drainingSet = q.drainingSet := by
  induction bad generalizing q with
  | nil => rfl
  | cons b bad ih => exact ih

@[simp] theorem collect_working : (q.collect bad).working = q.working := by
  induction bad generalizing q with
  | nil => rfl
  | cons b bad ih => exact ih

/-- Where listed hashes are harmless, the books are kept once everything below them is
collected. -/
theorem Located.collect (hq : q.Located) (hharmless : q.harmless bad = true)
    (hbad : ∀ h ∈ q.knownBad, h ∈ bad ∨ h ∉ q.heldHashes ++ q.unknown.hashes)
    (hdraining : ∀ h ∈ q.drainingSet, h ∉ q.knownBad) : (q.collect bad).Kept := by
  obtain ⟨hspares, hheldFree, hrestFree⟩ := harmless_iff.mp hharmless
  have hgathered := gathered_collect q bad
  have hheld : (q.collect bad).heldHashes = q.heldHashes := by
    simp only [heldHashes, collect_verified, collect_verifying, collect_unverified]
  have hunknown : q.unknown.hashes.Perm (((q.collected bad).map fun e => e.2.1) ++
      (q.collect bad).unknown.hashes) := by
    rw [SizedBlockMap.hashes, SizedBlockMap.hashes, ← List.map_append]
    exact (hgathered.perm.map _).symm
  have hunknownOnce := hunknown.nodup_iff.mp (List.nodup_append.mp hq.once).2.1
  have hsub : (q.heldHashes ++ (q.collect bad).unknown.hashes).Sublist
      (q.heldHashes ++ ((q.collected bad).map (fun e => e.2.1) ++
        (q.collect bad).unknown.hashes)) :=
    (List.sublist_append_right _ _).append_left _
  have hmem : ∀ h, h ∈ q.heldHashes ++ (q.collect bad).unknown.hashes →
      h ∈ q.heldHashes ++ q.unknown.hashes := fun h hh =>
    (hunknown.append_left _).mem_iff.mpr (hsub.subset hh)
  refine ⟨⟨?_, ?_, ?_, ?_, ?_, ?_, ?_⟩, ?_⟩
  · rw [hheld]
    exact hsub.nodup ((hunknown.append_left _).nodup_iff.mp hq.once)
  · rw [hheld, collect_readySet]
    exact hq.ready
  · intro h
    rw [mem_collect_unknownSet, hq.unknown, hunknown.mem_iff, List.mem_append]
    constructor
    · rintro ⟨hnot, hh | hh⟩
      · exact absurd hh hnot
      · exact hh
    · intro hh
      exact ⟨fun htaken => (List.nodup_append.mp hunknownOnce).2.2 h htaken h hh rfl, .inr hh⟩
  · intro h hh
    rw [hheld]
    rw [collect_drainingSet] at hh
    exact fun hin => hq.draining h hh (hmem h hin)
  · intro e he
    exact hq.named e (hgathered.perm.mem_iff.mp (List.mem_append_right _ he))
  · rw [collect_unverified]
    exact hq.unverifiedNamed
  · rw [collect_working]
    exact hq.workingNamed
  · intro h hh
    rw [spares_iff, collect_verified, collect_unverified] at hspares
    rw [hheld, collect_drainingSet]
    constructor
    · intro hin
      rcases List.mem_append.mp hin with hin | hin
      · -- A held hash would be bad in one of the three queues.
        rcases List.mem_append.mp hin with hin' | hin'
        · rcases List.mem_append.mp hin' with hin' | hin'
          · obtain ⟨b, hb, rfl⟩ := List.mem_map.mp hin'
            exact (hspares.1 b hb).2 hh
          · obtain ⟨b, hb, rfl⟩ := List.mem_map.mp hin'
            have hfree := hheldFree b hb
            rw [condemned, List.mem_append, not_or] at hfree
            rw [mem_collect_knownBad] at hh
            rcases hh with hh | hh
            · exact hfree.2 hh
            · rcases hbad _ hh with hlisted | hnot
              · exact hfree.1 hlisted
              · exact hnot (List.mem_append_left _ hin)
        · obtain ⟨b, hb, rfl⟩ := List.mem_map.mp hin'
          exact (hspares.2.1 b hb).2 hh
      · obtain ⟨e, he, rfl⟩ := List.mem_map.mp hin
        have hfree := hrestFree e he
        rw [condemned, List.mem_append, not_or] at hfree
        rw [mem_collect_knownBad] at hh
        rcases hh with hh | hh
        · exact hfree.2 hh
        · rcases hbad _ hh with hlisted | hnot
          · exact hfree.1 hlisted
          · exact hnot (hmem _ (List.mem_append_right _ hin))
    · intro hdrain
      rw [mem_collect_knownBad] at hh
      rcases hh with hh | hh
      · refine hq.draining h hdrain (List.mem_append_right _ ?_)
        exact hunknown.mem_iff.mpr (List.mem_append_left _ hh)
      · exact hdraining h hdrain hh

theorem Kept.doneDrain {env : DoneEnv} (hq : q.Kept)
    (hharmless : bad = [] ∨ (q.noteDone bad).harmless bad = true) : (q.doneDrain env bad).Kept := by
  rcases hharmless with rfl | hharmless
  · refine ⟨⟨hq.once, hq.ready, hq.unknown, ?_, hq.named, hq.unverifiedNamed, hq.workingNamed⟩, ?_⟩
    · exact fun h hh => absurd hh ExtTreeSet.not_mem_empty
    · exact fun h hh => ⟨(hq.bad h hh).1, ExtTreeSet.not_mem_empty⟩
  · obtain ⟨n, hdone, -⟩ := updateBads_of_spares env 0 (harmless_iff.mp hharmless).1
    rw [BlockQueue.doneDrain, hdone]
    have hlocated : (q.noteDone bad).Located := ⟨hq.once, hq.ready, hq.unknown,
      fun h hh => absurd hh ExtTreeSet.not_mem_empty, hq.named, hq.unverifiedNamed,
      hq.workingNamed⟩
    refine Kept.startMany (hlocated.collect hharmless ?_ ?_) n
    · intro h hh
      rw [noteDone, mem_foldl_insert] at hh
      exact hh.imp_right fun hh => (hq.bad h hh).1
    · exact fun h hh => absurd hh ExtTreeSet.not_mem_empty

/-! ## Importing and draining -/

/-- A block that is imported is new, and is a block. -/
theorem fresh_of_importResult (q : BlockQueue) (env : Env) (b : Block) (isOurs : Bool)
    (h₁ : q.importResult env b isOurs ≠ .alreadyKnown)
    (h₂ : q.importResult env b isOurs ≠ .malformed) :
    b.info.hash ∉ q.readySet ∧ b.info.hash ∉ q.drainingSet ∧ b.info.hash ∉ q.unknownSet ∧
      b.info.hash ∉ q.knownBad ∧ b.bytes ≠ [] := by
  rw [importResult] at h₁ h₂
  split at h₁
  · exact absurd rfl h₁
  · rename_i hnew
    rw [if_neg hnew] at h₂
    simp only [Bool.or_eq_true, not_or, ExtTreeSet.contains_iff_mem] at hnew
    obtain ⟨⟨⟨hready, hdraining⟩, hunknown⟩, hbad⟩ := hnew
    refine ⟨hready, hdraining, hunknown, hbad, ?_⟩
    rintro hempty
    rw [hempty, List.isEmpty_nil, Bool.or_true, if_pos rfl] at h₂
    exact h₂ rfl

/-- A new block is held. -/
theorem Kept.enqueue {b : Block} {difficulty : U256} (hq : q.Kept) (hready : b.info.hash ∉ q.readySet)
    (hdraining : b.info.hash ∉ q.drainingSet) (hunknown : b.info.hash ∉ q.unknownSet)
    (hbad : b.info.hash ∉ q.knownBad) (hbytes : b.bytes ≠ []) :
    Kept { q with
      unverified := q.unverified.enqueue
        { hash := b.info.hash, parentHash := b.info.parentHash, blockData := b }
      readySet := q.readySet.insert b.info.hash
      difficulty := difficulty } := by
  rw [hq.ready] at hready
  rw [hq.unknown] at hunknown
  have hheld : heldHashes { q with
      unverified := q.unverified.enqueue
        { hash := b.info.hash, parentHash := b.info.parentHash, blockData := b }
      readySet := q.readySet.insert b.info.hash
      difficulty := difficulty } = q.heldHashes ++ [b.info.hash] := by
    simp only [heldHashes, SizedBlockQueue.enqueue, List.map_append, List.map_cons, List.map_nil,
      List.append_assoc]
  have hperm : ((q.heldHashes ++ [b.info.hash]) ++ q.unknown.hashes).Perm
      (b.info.hash :: (q.heldHashes ++ q.unknown.hashes)) := by
    rw [List.append_assoc]
    exact List.perm_middle
  have hnew : b.info.hash ∉ q.heldHashes ++ q.unknown.hashes := by
    rw [List.mem_append, not_or]
    exact ⟨hready, hunknown⟩
  refine ⟨⟨?_, ?_, hq.unknown, ?_, hq.named, ?_, hq.workingNamed⟩, ?_⟩
  · rw [hheld]
    exact hperm.nodup_iff.mpr (List.nodup_cons.mpr ⟨hnew, hq.once⟩)
  · intro h
    rw [hheld, mem_insert_iff, hq.ready, List.mem_append, List.mem_singleton, or_comm, eq_comm]
  · intro h hh
    rw [hheld, hperm.mem_iff, List.mem_cons, not_or]
    refine ⟨?_, hq.draining h hh⟩
    rintro rfl
    exact hdraining hh
  · intro w hw
    rcases List.mem_append.mp hw with hw | hw
    · exact hq.unverifiedNamed w hw
    · cases List.mem_singleton.mp hw
      exact ⟨rfl, hbytes⟩
  · intro h hh
    rw [hheld, hperm.mem_iff, List.mem_cons, not_or]
    refine ⟨⟨?_, (hq.bad h hh).1⟩, (hq.bad h hh).2⟩
    rintro rfl
    exact hbad hh

/-- A new block waits for its parent. -/
theorem Kept.wait {b : Block} {difficulty : U256} (hq : q.Kept) (hready : b.info.hash ∉ q.readySet)
    (hdraining : b.info.hash ∉ q.drainingSet) (hunknown : b.info.hash ∉ q.unknownSet)
    (hbad : b.info.hash ∉ q.knownBad) (hbytes : b.bytes ≠ []) :
    Kept { q with
      unknown := q.unknown.insert b.info.parentHash b.info.hash b
      unknownSet := q.unknownSet.insert b.info.hash
      difficulty := difficulty } := by
  rw [hq.ready] at hready
  rw [hq.unknown] at hunknown
  have hentries : (q.unknown.insert b.info.parentHash b.info.hash b).map.Perm
      ((b.info.parentHash, b.info.hash, b) :: q.unknown.map) := insertEntry_perm _ _ _
  have hperm : (q.heldHashes ++ (q.unknown.insert b.info.parentHash b.info.hash b).hashes).Perm
      (b.info.hash :: (q.heldHashes ++ q.unknown.hashes)) :=
    ((hentries.map fun e => e.2.1).append_left _).trans List.perm_middle
  have hnew : b.info.hash ∉ q.heldHashes ++ q.unknown.hashes := by
    rw [List.mem_append, not_or]
    exact ⟨hready, hunknown⟩
  refine ⟨⟨?_, hq.ready, ?_, ?_, ?_, hq.unverifiedNamed, hq.workingNamed⟩, ?_⟩
  · exact hperm.nodup_iff.mpr (List.nodup_cons.mpr ⟨hnew, hq.once⟩)
  · intro h
    show h ∈ q.unknownSet.insert b.info.hash ↔
      h ∈ (q.unknown.insert b.info.parentHash b.info.hash b).map.map fun e => e.2.1
    rw [mem_insert_iff, hq.unknown, (hentries.map _).mem_iff, List.map_cons, List.mem_cons, eq_comm]
    rfl
  · intro h hh hmem
    rcases List.mem_cons.mp (hperm.mem_iff.mp hmem) with rfl | hmem
    · exact hdraining hh
    · exact hq.draining h hh hmem
  · intro e he
    rcases List.mem_cons.mp (hentries.mem_iff.mp he) with rfl | he
    · exact ⟨rfl, hbytes⟩
    · exact hq.named e he
  · intro h hh
    refine ⟨fun hmem => ?_, (hq.bad h hh).2⟩
    rcases List.mem_cons.mp (hperm.mem_iff.mp hmem) with rfl | hmem
    · exact hbad hh
    · exact (hq.bad h hh).1 hmem

theorem Kept.import {env : Env} {b : Block} {isOurs : Bool} (hq : q.Kept)
    (hharmless : q.importResult env b isOurs = .badChain →
      { q with knownBad := q.knownBad.insert b.info.hash }.harmless [b.info.hash] = true) :
    (q.import env b isOurs).Kept := by
  rw [BlockQueue.import]
  have hfresh := fresh_of_importResult q env b isOurs
  cases hresult : q.importResult env b isOurs with
  | futureTimeKnown | futureTimeUnknown =>
      exact hq.congr rfl rfl rfl rfl rfl rfl hq.unverifiedNamed hq.workingNamed
  | badChain =>
      rw [hresult] at hfresh
      obtain ⟨hready, hdraining, hunknown, -, -⟩ := hfresh nofun nofun
      have hharmless := hharmless hresult
      dsimp only
      rw [updateBad_of_spares (harmless_iff.mp hharmless).1]
      have hlocated : Located { q with knownBad := q.knownBad.insert b.info.hash } :=
        ⟨hq.once, hq.ready, hq.unknown, hq.draining, hq.named, hq.unverifiedNamed, hq.workingNamed⟩
      refine hlocated.collect hharmless ?_ ?_
      · intro h hh
        rcases mem_insert_iff.mp hh with rfl | hh
        · exact .inl (List.mem_singleton.mpr rfl)
        · exact .inr (hq.bad h hh).1
      · intro h hh hbad
        rcases mem_insert_iff.mp hbad with rfl | hbad
        · exact hdraining hh
        · exact (hq.bad h hbad).2 hh
  | unknownParent =>
      rw [hresult] at hfresh
      obtain ⟨hready, hdraining, hunknown, hbad, hbytes⟩ := hfresh nofun nofun
      exact hq.wait hready hdraining hunknown hbad hbytes
  | success =>
      rw [hresult] at hfresh
      obtain ⟨hready, hdraining, hunknown, hbad, hbytes⟩ := hfresh nofun nofun
      exact (hq.enqueue hready hdraining hunknown hbad hbytes).noteReady b.info.hash
  | alreadyInChain | alreadyKnown | malformed | overbidGasPrice | zeroSignature => exact hq

theorem Kept.drain (hq : q.Kept) (max : Nat) : (q.drain max).2.Kept := by
  rw [BlockQueue.drain]
  split
  · rename_i hempty
    generalize min max q.verified.queue.length = n
    have hsplit : q.heldHashes = (q.verified.queue.take n).map (·.info.hash) ++
        ((q.verified.queue.drop n).map (·.info.hash) ++ q.verifying.queue.map (·.heldHash) ++
          q.unverified.queue.map (·.hash)) := by
      rw [heldHashes]
      nth_rw 1 [← List.take_append_drop n q.verified.queue]
      simp only [List.map_append, List.append_assoc]
    have honce := hq.once
    rw [hsplit, List.append_assoc] at honce
    obtain ⟨-, hrest, happart⟩ := List.nodup_append.mp honce
    have hsub : ∀ h, h ∈ ((q.verified.queue.drop n).map (·.info.hash) ++
        q.verifying.queue.map (·.heldHash) ++ q.unverified.queue.map (·.hash)) ++
        q.unknown.hashes → h ∈ q.heldHashes ++ q.unknown.hashes := by
      intro h hh
      rw [hsplit, List.append_assoc]
      exact List.mem_append_right _ hh
    have hdraining : ∀ h, h ∈ ((q.verified.queue.take n).map (·.info.hash)).foldl .insert
        q.drainingSet ↔ h ∈ (q.verified.queue.take n).map (·.info.hash) := by
      intro h
      rw [mem_foldl_insert, ExtTreeSet.isEmpty_iff.mp hempty]
      exact or_iff_left ExtTreeSet.not_mem_empty
    refine ⟨⟨hrest, ?_, hq.unknown, ?_, hq.named, hq.unverifiedNamed, hq.workingNamed⟩, ?_⟩
    · intro h
      show h ∈ ((q.verified.queue.take n).map (·.info.hash)).foldl .erase q.readySet ↔ _
      rw [mem_foldl_erase, hq.ready, hsplit, List.mem_append]
      constructor
      · rintro ⟨hnot, hh | hh⟩
        · exact absurd hh hnot
        · exact hh
      · intro hh
        exact ⟨fun hout => happart h hout h (List.mem_append_left _ hh) rfl, .inr hh⟩
    · intro h hh hmem
      exact happart h ((hdraining h).mp hh) h hmem rfl
    · intro h hh
      refine ⟨fun hmem => (hq.bad h hh).1 (hsub h hmem), fun hdrain => ?_⟩
      refine (hq.bad h hh).1 (List.mem_append_left _ ?_)
      rw [hsplit]
      exact List.mem_append_left _ ((hdraining h).mp hdrain)
  · exact hq

/-! ## Runs -/

/-- Where the books may be upset: bad hashes have to be harmless, and a verifier that
fails has to be at its block still. -/
def keepsBooks (q : BlockQueue) : Op → Bool
  | .import env b isOurs => q.importResult env b isOurs != .badChain ||
      { q with knownBad := q.knownBad.insert b.info.hash }.harmless [b.info.hash]
  | .doneDrain _ bad => bad.isEmpty || (q.noteDone bad).harmless bad
  | .finish i good _ => (q.working[i]?).all fun w =>
      q.unclesApart w.hash && (good || q.isAt w.hash)
  | _ => true

theorem Kept.step {op : Op} (hq : q.Kept) (hop : q.keepsBooks op = true)
    (hstep : step q op = some q') : q'.Kept := by
  cases op with
  | «import» env b isOurs =>
      cases hstep
      refine hq.import fun hresult => ?_
      simpa [keepsBooks, hresult] using hop
  | tick utcTime =>
      cases hstep
      exact hq.congr rfl rfl rfl rfl rfl rfl hq.unverifiedNamed hq.workingNamed
  | noteReady good =>
      cases hstep
      exact hq.noteReady good
  | retryAllUnknown =>
      cases hstep
      exact hq.retryLoop _
  | drain max =>
      cases hstep
      exact hq.drain max
  | doneDrain env bad =>
      cases hstep
      rw [keepsBooks, Bool.or_eq_true, List.isEmpty_iff] at hop
      exact hq.doneDrain hop
  | clear =>
      cases hstep
      exact ⟨⟨kept_empty.once, kept_empty.ready, kept_empty.unknown, kept_empty.draining,
        kept_empty.named, kept_empty.unverifiedNamed, hq.workingNamed⟩,
        fun h _ => ⟨List.not_mem_nil, ExtTreeSet.not_mem_empty⟩⟩
  | start => exact hq.start hstep
  | finish i good tail =>
      refine hq.finish (fun w hw => ?_) hstep
      rw [keepsBooks, hw, Option.all_some, Bool.and_eq_true, Bool.or_eq_true] at hop
      exact hop

/-- **Along every run in which bad hashes are harmless and verifiers fail only at blocks
that have not been thrown out and imported again, the sets say exactly where the blocks
are, and have nothing in common.** -/
theorem books_are_exact (h : system.Reach (fun q op => q.keepsBooks op = true) q) : q.Exact := by
  have hkept : q.Kept := by
    refine System.Reach.invariant (I := Kept) ?_ ?_ h
    · rintro q rfl
      exact kept_empty
    · intro q op q' _ hq hop hstep
      exact hq.step hop hstep
  exact hkept.exact

/-- Three blocks come in backwards, one of them fails, and another is drained. -/
theorem books_are_exact_three :
    ∃ q, system.Reach (fun q op => q.keepsBooks op = true) q ∧ q.drainingSet.contains 1 = true ∧
      q.knownBad.contains 2 = true ∧ q.unknownSet.contains 8 = true ∧ q.Exact := by
  have hstart : system.Reach (fun q op => q.keepsBooks op = true) {} := .init rfl
  obtain ⟨q, hreach, hq⟩ := hstart.exists_of_check
    ([sampleImport [5] 8 7, sampleImport [5] 2 1, sampleImport [5] 1 5] ++ sampleVerify true ++
      sampleVerify false ++ [.drain 2])
    (p := fun q => q.drainingSet.contains 1 && q.knownBad.contains 2 && q.unknownSet.contains 8)
    (by decide +kernel) (by decide +kernel)
  rw [Bool.and_eq_true, Bool.and_eq_true] at hq
  exact ⟨q, hreach, hq.1.1, hq.1.2, hq.2, books_are_exact hreach⟩

/-- A block is drained and listed while its child and a third block are verified and
ready.  The child leaves the queue, but `readySet` still has its hash. -/
theorem removed_child_stays_ready :
    ∃ q, system.Reach (fun q op => q.leaves op = true) q ∧ ¬ q.Exact := by
  have hstart : system.Reach (fun q op => q.leaves op = true) {} := .init rfl
  obtain ⟨q, hreach, hq⟩ := hstart.exists_of_check
    (childImports ++ [.doneDrain { tails := fun _ => childTails } [1]])
    (p := fun q => q.readySet.contains 2 && q.heldHashes == [])
    (by decide +kernel) (by decide +kernel)
  rw [Bool.and_eq_true, beq_iff_eq, ExtTreeSet.contains_iff_mem] at hq
  refine ⟨q, hreach, ?_⟩
  intro hexact
  have hmem := (hexact.ready 2).mp hq.1
  rw [hq.2] at hmem
  exact absurd hmem List.not_mem_nil

end BlockQueue

end CppSwc
