import Mathlib.Algebra.BigOperators.Group.Finset.Basic
import Mathlib.Data.BitVec
import CppSwc.BlockQueue.Bookkeeping

/-!
# The difficulty of the queued blocks

`m_difficulty` is meant to be the sum of the difficulties of the blocks that are queued:
those of the future, those with unknown parents, the ready ones and the ones being
drained.  It grows at three exits of `import`, and it shrinks in `doneDrain` by the
difficulty of what was drained.

A block that leaves otherwise stays counted: one that a verifier fails on, one that is
found bad with its parent, and one of the future that `tick` takes out, which is counted
once more when it is imported again.  A block of the future that comes in twice is
counted twice, too, for `import` does not look there.  Along the runs without these the
sum is right.
-/

namespace CppSwc

open Lib Std

namespace BlockQueue

variable {q q' : BlockQueue} {diff : H256 → U256} {bad : List H256}

/-! ## What is counted -/

/-- The hashes of the queued blocks. -/
def queuedHashes (q : BlockQueue) : Finset H256 :=
  q.future.hashes.toFinset ∪ q.unknown.hashes.toFinset ∪ finset q.readySet ∪ finset q.drainingSet

theorem mem_queuedHashes {h : H256} : h ∈ q.queuedHashes ↔
    h ∈ q.future.hashes ∨ h ∈ q.unknown.hashes ∨ h ∈ q.readySet ∨ h ∈ q.drainingSet := by
  simp only [queuedHashes, Finset.mem_union, List.mem_toFinset, mem_finset, or_assoc]

/-- The header of the block with a hash has the difficulty of that hash. -/
def Weighs (diff : H256 → U256) (info : BlockHeader) : Prop := difficultyOf info = diff info.hash

/-- All blocks the queue holds have the difficulty of their hash. -/
structure Weighed (diff : H256 → U256) (q : BlockQueue) : Prop where
  verified : ∀ b ∈ q.verified.queue, Weighs diff b.info
  verifying : ∀ b ∈ q.verifying.queue, b.isFinished = true → Weighs diff b.info
  unverified : ∀ w ∈ q.unverified.queue, Weighs diff w.blockData.info
  working : ∀ w ∈ q.working, Weighs diff w.blockData.info
  unknown : ∀ e ∈ q.unknown.map, Weighs diff e.2.2.info

/-- The sum is right, and the blocks waiting for their time are nowhere else. -/
structure Tallied (diff : H256 → U256) (q : BlockQueue) : Prop where
  kept : q.Kept
  weighed : q.Weighed diff
  futureApart : ∀ h ∈ q.future.hashes, h ∉ q.unknown.hashes ∧ h ∉ q.readySet ∧ h ∉ q.drainingSet
  difficulty : q.difficulty = ∑ h ∈ q.queuedHashes, diff h
  drainingDifficulty : q.drainingDifficulty = ∑ h ∈ finset q.drainingSet, diff h

theorem tallied_empty : Tallied diff {} := by
  have hnone : finset (∅ : ExtTreeSet H256) = ∅ := by
    ext h
    simp
  refine ⟨kept_empty, ⟨?_, ?_, ?_, ?_, ?_⟩, ?_, ?_, ?_⟩
  · exact fun b hb => absurd hb List.not_mem_nil
  · exact fun b hb => absurd hb List.not_mem_nil
  · exact fun w hw => absurd hw List.not_mem_nil
  · exact fun w hw => absurd hw List.not_mem_nil
  · exact fun e he => absurd he List.not_mem_nil
  · exact fun h hh => absurd hh List.not_mem_nil
  · simp [queuedHashes, SizedBlockMap.hashes, hnone]
  · simp [hnone]

/-- The sets, the waiting blocks and the sums are as before. -/
structure Unmoved (q q' : BlockQueue) : Prop where
  readySet : q'.readySet = q.readySet
  drainingSet : q'.drainingSet = q.drainingSet
  unknown : q'.unknown = q.unknown
  future : q'.future = q.future
  difficulty : q'.difficulty = q.difficulty
  drainingDifficulty : q'.drainingDifficulty = q.drainingDifficulty

theorem Unmoved.refl (q : BlockQueue) : Unmoved q q := ⟨rfl, rfl, rfl, rfl, rfl, rfl⟩

theorem Unmoved.trans {q'' : BlockQueue} (h : Unmoved q q') (h' : Unmoved q' q'') : Unmoved q q'' :=
  ⟨h'.readySet.trans h.readySet, h'.drainingSet.trans h.drainingSet, h'.unknown.trans h.unknown,
    h'.future.trans h.future, h'.difficulty.trans h.difficulty,
    h'.drainingDifficulty.trans h.drainingDifficulty⟩

theorem Tallied.unmoved (h : q.Tallied diff) (hsame : Unmoved q q') (hkept : q'.Kept)
    (hweighed : q'.Weighed diff) : q'.Tallied diff := by
  obtain ⟨hready, hdraining, hunknown, hfuture, hdifficulty, hdrained⟩ := hsame
  refine ⟨hkept, hweighed, ?_, ?_, ?_⟩
  · rw [hready, hdraining, hunknown, hfuture]
    exact h.futureApart
  · rw [hdifficulty, h.difficulty, queuedHashes, queuedHashes, hready, hdraining, hunknown, hfuture]
  · rw [hdrained, hdraining]
    exact h.drainingDifficulty

/-! ## Verifiers -/

theorem Weighed.start (h : q.Weighed diff) (hstart : q.start = some q') :
    q'.Weighed diff ∧ Unmoved q q' := by
  rw [BlockQueue.start] at hstart
  split at hstart
  · cases hstart
  · rename_i work rest hqueue
    cases hstart
    have hwork : Weighs diff work.blockData.info :=
      h.unverified work (hqueue ▸ List.mem_cons_self)
    refine ⟨⟨h.verified, ?_, ?_, ?_, h.unknown⟩, ⟨rfl, rfl, rfl, rfl, rfl, rfl⟩⟩
    · intro b hb hfinished
      rcases List.mem_append.mp hb with hb | hb
      · exact h.verifying b hb hfinished
      · rw [List.mem_singleton.mp hb] at hfinished
        cases hfinished
    · intro w hw
      simp only [SizedBlockQueue.dequeue, hqueue] at hw
      exact h.unverified w (hqueue ▸ List.mem_cons_of_mem _ hw)
    · intro w hw
      rcases List.mem_append.mp hw with hw | hw
      · exact h.working w hw
      · exact List.mem_singleton.mp hw ▸ hwork

theorem Weighed.startMany (h : q.Weighed diff) (n : Nat) :
    (startMany n q).Weighed diff ∧ Unmoved q (startMany n q) := by
  induction n generalizing q with
  | zero => exact ⟨h, .refl q⟩
  | succ n ih =>
      rw [BlockQueue.startMany]
      cases hstart : q.start with
      | none => exact ih h
      | some q' =>
          obtain ⟨hweighed, hsame⟩ := h.start hstart
          obtain ⟨hweighed', hsame'⟩ := ih hweighed
          exact ⟨hweighed', hsame.trans hsame'⟩

/-- The finished blocks at the head of `verifying` have parents that are not bad. -/
def passes (knownBad : ExtTreeSet H256) (verifying : List VerifiedBlock) : Bool :=
  (verifying.takeWhile (·.isFinished)).all fun b => !knownBad.contains b.info.parentHash

/-- The block at the head of `verifying` is verified, as a block with a good parent. -/
theorem Weighed.accept {e b : VerifiedBlock} {es : List VerifiedBlock} (h : q.Weighed diff)
    (hqueue : q.verifying.queue = e :: es) (hb : Weighs diff b.info)
    (hgood : q.knownBad.contains b.info.parentHash = false) :
    let q' := accept b { q with verifying := q.verifying.dequeue }
    q'.Weighed diff ∧ Unmoved q q' ∧ q'.verifying.queue = es ∧ q'.knownBad = q.knownBad := by
  intro q'
  have hdequeue : q.verifying.dequeue.queue = es := by rw [SizedBlockQueue.dequeue, hqueue]
  have haccept : q' = { q with
      verifying := q.verifying.dequeue
      verified := q.verified.enqueue b } := by
    simp only [q', BlockQueue.accept, hgood, Bool.false_eq_true, if_false]
  rw [haccept]
  refine ⟨⟨?_, ?_, h.unverified, h.working, h.unknown⟩, ⟨rfl, rfl, rfl, rfl, rfl, rfl⟩, hdequeue,
    rfl⟩
  · intro b' hb'
    rcases List.mem_append.mp hb' with hb' | hb'
    · exact h.verified b' hb'
    · exact List.mem_singleton.mp hb' ▸ hb
  · intro b' hb'
    rw [hdequeue] at hb'
    exact h.verifying b' (hqueue ▸ List.mem_cons_of_mem _ hb')

/-- Finished blocks that pass are verified, and nothing else changes. -/
theorem Weighed.drainLoop (n : Nat) (h : q.Weighed diff)
    (hpasses : passes q.knownBad q.verifying.queue = true) :
    (drainLoop n q).Weighed diff ∧ Unmoved q (drainLoop n q) := by
  induction n generalizing q with
  | zero => exact ⟨h, .refl q⟩
  | succ n ih =>
      rw [BlockQueue.drainLoop]
      split
      · exact ⟨h, .refl q⟩
      · rename_i b bs hqueue
        split
        · rename_i hfinished
          rw [hqueue, passes, List.takeWhile_cons, hfinished, if_pos rfl, List.all_cons,
            Bool.and_eq_true, Bool.not_eq_true'] at hpasses
          have hb : Weighs diff b.info :=
            h.verifying b (hqueue ▸ List.mem_cons_self) hfinished
          obtain ⟨hweighed, hsame, hrest, hbad⟩ := h.accept hqueue hb hpasses.1
          obtain ⟨hweighed', hsame'⟩ := ih hweighed (by
            rw [hrest, hbad]
            exact hpasses.2)
          exact ⟨hweighed', hsame.trans hsame'⟩
        · exact ⟨h, .refl q⟩

/-- Whether the work of a verifier strikes off no block: it is not that of a ready block
that failed, and what moves on passes. -/
def strikesNone (good : Bool) (w : UnverifiedBlock) (q : BlockQueue) : Bool :=
  if good then
    !q.verifying.queue.head?.any (·.info.sha3Uncles == w.hash) ||
      !q.knownBad.contains w.blockData.info.parentHash && passes q.knownBad q.verifying.queue.tail
  else
    !q.readySet.contains w.hash &&
      passes (q.knownBad.insert w.hash)
        (q.verifying.queue.filter fun b => !b.info.sha3Uncles == w.hash)

theorem Weighed.succeed {w : UnverifiedBlock} (h : q.Weighed diff)
    (hw : Weighs diff w.blockData.info) (hnone : q.strikesNone true w = true) :
    (q.succeed w).Weighed diff ∧ Unmoved q (q.succeed w) := by
  simp only [strikesNone, if_true, Bool.or_eq_true, Bool.not_eq_true', Bool.and_eq_true] at hnone
  rw [BlockQueue.succeed]
  split
  · rename_i hhead
    obtain ⟨hgood, hpasses⟩ := hnone.resolve_left (by simp [hhead])
    cases hqueue : q.verifying.queue with
    | nil =>
        rw [hqueue] at hhead
        cases hhead
    | cons e es =>
        obtain ⟨hweighed, hsame, hrest, hbad⟩ :=
          h.accept hqueue (b := .ofWork w) hw hgood
        obtain ⟨hweighed', hsame'⟩ := hweighed.drainLoop _ (by
          rw [hrest, hbad]
          rw [hqueue] at hpasses
          exact hpasses)
        exact ⟨hweighed', hsame.trans hsame'⟩
  · refine ⟨⟨h.verified, ?_, h.unverified, h.working, h.unknown⟩, ⟨rfl, rfl, rfl, rfl, rfl, rfl⟩⟩
    intro b hb hfinished
    rcases mem_replace hb with hb | rfl
    · exact h.verifying b hb hfinished
    · exact hw

theorem Weighed.fail {w : UnverifiedBlock} {tail : Nat → VerifiedBlock} (h : q.Weighed diff)
    (hnone : q.strikesNone false w = true) :
    (q.fail tail w).Weighed diff ∧ Unmoved q (q.fail tail w) := by
  simp only [strikesNone, Bool.false_eq_true, if_false, Bool.and_eq_true, Bool.not_eq_true']
    at hnone
  have herase : q.readySet.erase w.hash = q.readySet := by
    ext h
    rw [mem_erase_iff]
    refine ⟨fun hh => hh.2, fun hh => ⟨?_, hh⟩⟩
    rintro rfl
    rw [← ExtTreeSet.contains_iff_mem, hnone.1] at hh
    cases hh
  have hweighed : Weighed diff { q with
      readySet := q.readySet.erase w.hash
      knownBad := q.knownBad.insert w.hash
      verifying := q.verifying.remove tail w.hash } := by
    refine ⟨h.verified, ?_, h.unverified, h.working, h.unknown⟩
    intro b hb hfinished
    exact h.verifying b (List.mem_filter.mp hb).1 hfinished
  obtain ⟨hweighed', hsame⟩ := hweighed.drainLoop
    (q.verifying.remove tail w.hash).queue.length hnone.2
  refine ⟨hweighed', ?_⟩
  have hstruck : Unmoved q { q with
      readySet := q.readySet.erase w.hash
      knownBad := q.knownBad.insert w.hash
      verifying := q.verifying.remove tail w.hash } := ⟨herase, rfl, rfl, rfl, rfl, rfl⟩
  exact hstruck.trans hsame

theorem Weighed.finish {i : Nat} {good : Bool} {tail : Nat → VerifiedBlock} (h : q.Weighed diff)
    (hnone : (q.working[i]?).all (fun w => q.strikesNone good w) = true)
    (hfinish : q.finish i good tail = some q') : q'.Weighed diff ∧ Unmoved q q' := by
  rw [BlockQueue.finish] at hfinish
  cases hw : q.working[i]? with
  | none =>
      rw [hw] at hfinish
      cases hfinish
  | some w =>
      rw [hw, Option.all_some] at hnone
      rw [hw] at hfinish
      cases hfinish
      have hwork : Weighs diff w.blockData.info := h.working w (List.mem_of_getElem? hw)
      have hrest : Weighed diff { q with working := q.working.eraseIdx i } :=
        ⟨h.verified, h.verifying, h.unverified,
          fun w' hw' => h.working w' ((List.eraseIdx_sublist _ _).subset hw'), h.unknown⟩
      have hleft : Unmoved q { q with working := q.working.eraseIdx i } :=
        ⟨rfl, rfl, rfl, rfl, rfl, rfl⟩
      cases good with
      | true =>
          obtain ⟨hweighed, hsame⟩ := hrest.succeed hwork hnone
          exact ⟨hweighed, hleft.trans hsame⟩
      | false =>
          obtain ⟨hweighed, hsame⟩ := hrest.fail hnone
          exact ⟨hweighed, hleft.trans hsame⟩

/-! ## Bad blocks -/

/-- No block waits for one of the listed hashes, and `updateBad` spares the three
queues. -/
def untouched (bad : List H256) (q : BlockQueue) : Bool :=
  (q.unknown.map.all fun e => !bad.contains e.1) && q.spares

theorem collectUnknownBad_of_none {b : H256} (h : ∀ e ∈ q.unknown.map, e.1 ≠ b) :
    q.collectUnknownBad b = q := by
  have htaken : q.unknown.map.filter (fun e => e.1 = b) = [] := by
    rw [List.filter_eq_nil_iff]
    intro e he
    simpa using h e he
  have hrest : q.unknown.map.filter (fun e => e.1 ≠ b) = q.unknown.map := by
    rw [List.filter_eq_self]
    intro e he
    simpa using h e he
  have hbelow : q.below b = ([], q.unknown.map) := by
    rw [below, gather, htaken, hrest]
    cases q.unknown.map.length <;> rfl
  have hsize : q.unknown.size - 0 = q.unknown.size := by bv_omega
  simp only [collectUnknownBad, hbelow, List.map_nil, List.foldl_nil, SizedBlockMap.removeRange,
    hsize]

theorem collect_of_untouched (h : q.untouched bad = true) : q.collect bad = q := by
  rw [untouched, Bool.and_eq_true, List.all_eq_true] at h
  have hnone : ∀ e ∈ q.unknown.map, e.1 ∉ bad := by
    intro e he
    simpa using h.1 e he
  clear h
  induction bad with
  | nil => rfl
  | cons b bad ih =>
      have hb : ∀ e ∈ q.unknown.map, e.1 ≠ b := by
        rintro e he rfl
        exact hnone e he (.head _)
      rw [collect, List.foldl_cons, collectUnknownBad_of_none hb]
      exact ih fun e he hmem => hnone e he (.tail _ hmem)

theorem spares_of_untouched (h : q.untouched bad = true) : (q.collect bad).spares = true := by
  rw [collect_of_untouched h]
  rw [untouched, Bool.and_eq_true] at h
  exact h.2

/-- An untouched queue stays as it is. -/
theorem updateBad_of_untouched {tails : Nat → Tails} {b : H256} (h : q.untouched [b] = true) :
    q.updateBad tails b = q := by
  have hsame : q.collectUnknownBad b = q := collect_of_untouched h
  have hspares := spares_of_untouched h
  rw [collect_of_untouched h] at hspares
  rw [updateBad_of_spares (by rw [hsame]; exact hspares), hsame]

/-! ## Blocks with unknown parents -/

/-- Blocks that become ready stay queued. -/
theorem queuedHashes_release {taken rest : List (H256 × H256 × Block)}
    (hperm : (taken ++ rest).Perm q.unknown.map) :
    (release taken { q with unknown := q.unknown.removeRange taken rest }).queuedHashes =
      q.queuedHashes := by
  have hunknown : ∀ h, h ∈ q.unknown.hashes ↔
      h ∈ taken.map (fun e => e.2.1) ∨ h ∈ rest.map fun e => e.2.1 := by
    intro h
    rw [← List.mem_append, ← List.map_append]
    exact ((hperm.map _).mem_iff).symm
  ext h
  rw [mem_queuedHashes, mem_queuedHashes, release, mem_foldl_insert, hunknown]
  show h ∈ q.future.hashes ∨ h ∈ rest.map (fun e => e.2.1) ∨ _ ∨ h ∈ q.drainingSet ↔ _
  tauto

theorem Tallied.release {taken rest : List (H256 × H256 × Block)} (h : q.Tallied diff)
    (hperm : (taken ++ rest).Perm q.unknown.map) :
    (release taken { q with unknown := q.unknown.removeRange taken rest }).Tallied diff := by
  have hmem : ∀ e ∈ taken, e ∈ q.unknown.map :=
    fun e he => hperm.mem_iff.mp (List.mem_append_left _ he)
  have hrest : ∀ e ∈ rest, e ∈ q.unknown.map :=
    fun e he => hperm.mem_iff.mp (List.mem_append_right _ he)
  refine ⟨h.kept.release hperm, ⟨h.weighed.verified, h.weighed.verifying, ?_, h.weighed.working,
    fun e he => h.weighed.unknown e (hrest e he)⟩, ?_, ?_, h.drainingDifficulty⟩
  · intro w hw
    rw [BlockQueue.release, foldl_enqueue_queue] at hw
    rcases List.mem_append.mp hw with hw | hw
    · exact h.weighed.unverified w hw
    · obtain ⟨e, he, rfl⟩ := List.mem_map.mp hw
      exact h.weighed.unknown e (hmem e he)
  · intro x hx
    obtain ⟨hunknown, hready, hdraining⟩ := h.futureApart x hx
    have hout : ∀ {l : List (H256 × H256 × Block)}, (∀ e ∈ l, e ∈ q.unknown.map) →
        x ∉ l.map fun e => e.2.1 := by
      intro l hl hin
      obtain ⟨e, he, rfl⟩ := List.mem_map.mp hin
      exact hunknown (List.mem_map_of_mem (hl e he))
    refine ⟨hout hrest, ?_, hdraining⟩
    rw [BlockQueue.release, mem_foldl_insert, not_or]
    exact ⟨hout hmem, hready⟩
  · rw [queuedHashes_release hperm]
    exact h.difficulty

theorem Tallied.noteReady (h : q.Tallied diff) (good : H256) : (q.noteReady good).Tallied diff :=
  h.release (gathered_below q good).perm

theorem Tallied.retryLoop (h : q.Tallied diff) (n : Nat) : (retryLoop n q).Tallied diff := by
  induction n generalizing q with
  | zero => exact h
  | succ n ih =>
      rw [BlockQueue.retryLoop]
      split
      · exact h
      · rename_i first _ _
        refine ih (h.release ?_)
        have hsplit := List.filter_append_perm
          (fun e : H256 × H256 × Block => decide (e.1 = first.1)) q.unknown.map
        simpa only [decide_not] using hsplit

/-! ## Importing -/

/-- A block that is queued for the first time. -/
theorem Tallied.sum_insert {b : Block} (h : q.Tallied diff) (hb : Weighs diff b.info)
    (hfuture : b.info.hash ∉ q.future.hashes) (hunknown : b.info.hash ∉ q.unknown.hashes)
    (hready : b.info.hash ∉ q.readySet) (hdraining : b.info.hash ∉ q.drainingSet)
    (hqueued : ∀ x, x ∈ q'.queuedHashes ↔ x = b.info.hash ∨ x ∈ q.queuedHashes) :
    q.difficulty + difficultyOf b.info = ∑ x ∈ q'.queuedHashes, diff x := by
  have hinsert : q'.queuedHashes = insert b.info.hash q.queuedHashes := by
    ext x
    rw [hqueued, Finset.mem_insert]
  have hnew : b.info.hash ∉ q.queuedHashes := by
    rw [mem_queuedHashes]
    tauto
  rw [hinsert, Finset.sum_insert hnew, h.difficulty, hb, BitVec.add_comm]

theorem mem_hashes_insert {κ : Type} [LE κ] [DecidableLE κ] {m : SizedBlockMap κ} {k : κ}
    {hash x : H256} {b : Block} : x ∈ (m.insert k hash b).hashes ↔ x = hash ∨ x ∈ m.hashes := by
  have hentries : (m.insert k hash b).map.Perm ((k, hash, b) :: m.map) := insertEntry_perm _ _ _
  rw [SizedBlockMap.hashes, (hentries.map _).mem_iff, List.map_cons, List.mem_cons]
  rfl

/-- A block waits for its time. -/
theorem Tallied.delay {b : Block} (h : q.Tallied diff) (hb : Weighs diff b.info)
    (hfuture : b.info.hash ∉ q.future.hashes) (hunknown : b.info.hash ∉ q.unknown.hashes)
    (hready : b.info.hash ∉ q.readySet) (hdraining : b.info.hash ∉ q.drainingSet) :
    Tallied diff { q with
      future := q.future.insert b.info.timestamp b.info.hash b
      difficulty := q.difficulty + difficultyOf b.info } := by
  refine ⟨h.kept.congr rfl rfl rfl rfl rfl rfl h.kept.unverifiedNamed h.kept.workingNamed,
    ⟨h.weighed.verified, h.weighed.verifying, h.weighed.unverified, h.weighed.working,
      h.weighed.unknown⟩, ?_, ?_, h.drainingDifficulty⟩
  · intro x hx
    rcases mem_hashes_insert.mp hx with rfl | hx
    · exact ⟨hunknown, hready, hdraining⟩
    · exact h.futureApart x hx
  · refine h.sum_insert hb hfuture hunknown hready hdraining ?_
    intro x
    rw [mem_queuedHashes, mem_queuedHashes, mem_hashes_insert, or_assoc]

/-- A block waits for its parent. -/
theorem Tallied.wait {b : Block} (h : q.Tallied diff) (hb : Weighs diff b.info)
    (hfuture : b.info.hash ∉ q.future.hashes) (hunknown : b.info.hash ∉ q.unknown.hashes)
    (hready : b.info.hash ∉ q.readySet) (hdraining : b.info.hash ∉ q.drainingSet)
    (hbad : b.info.hash ∉ q.knownBad) (hbytes : b.bytes ≠ []) :
    Tallied diff { q with
      unknown := q.unknown.insert b.info.parentHash b.info.hash b
      unknownSet := q.unknownSet.insert b.info.hash
      difficulty := q.difficulty + difficultyOf b.info } := by
  have hunknownSet : b.info.hash ∉ q.unknownSet := by
    rw [h.kept.unknown]
    exact hunknown
  have hentries : (q.unknown.insert b.info.parentHash b.info.hash b).map.Perm
      ((b.info.parentHash, b.info.hash, b) :: q.unknown.map) := insertEntry_perm _ _ _
  refine ⟨h.kept.wait hready hdraining hunknownSet hbad hbytes,
    ⟨h.weighed.verified, h.weighed.verifying, h.weighed.unverified, h.weighed.working, ?_⟩, ?_, ?_,
    h.drainingDifficulty⟩
  · intro e he
    rcases List.mem_cons.mp (hentries.mem_iff.mp he) with rfl | he
    · exact hb
    · exact h.weighed.unknown e he
  · intro x hx
    obtain ⟨hxunknown, hxready, hxdraining⟩ := h.futureApart x hx
    refine ⟨?_, hxready, hxdraining⟩
    rw [mem_hashes_insert, not_or]
    refine ⟨?_, hxunknown⟩
    rintro rfl
    exact hfuture hx
  · refine h.sum_insert hb hfuture hunknown hready hdraining ?_
    intro x
    rw [mem_queuedHashes, mem_queuedHashes, mem_hashes_insert]
    tauto

/-- A block is ready. -/
theorem Tallied.enqueue {b : Block} (h : q.Tallied diff) (hb : Weighs diff b.info)
    (hfuture : b.info.hash ∉ q.future.hashes) (hunknown : b.info.hash ∉ q.unknown.hashes)
    (hready : b.info.hash ∉ q.readySet) (hdraining : b.info.hash ∉ q.drainingSet)
    (hbad : b.info.hash ∉ q.knownBad) (hbytes : b.bytes ≠ []) :
    Tallied diff { q with
      unverified := q.unverified.enqueue
        { hash := b.info.hash, parentHash := b.info.parentHash, blockData := b }
      readySet := q.readySet.insert b.info.hash
      difficulty := q.difficulty + difficultyOf b.info } := by
  have hunknownSet : b.info.hash ∉ q.unknownSet := by
    rw [h.kept.unknown]
    exact hunknown
  refine ⟨h.kept.enqueue hready hdraining hunknownSet hbad hbytes,
    ⟨h.weighed.verified, h.weighed.verifying, ?_, h.weighed.working, h.weighed.unknown⟩, ?_, ?_,
    h.drainingDifficulty⟩
  · intro w hw
    rcases List.mem_append.mp hw with hw | hw
    · exact h.weighed.unverified w hw
    · rw [List.mem_singleton.mp hw]
      exact hb
  · intro x hx
    obtain ⟨hxunknown, hxready, hxdraining⟩ := h.futureApart x hx
    refine ⟨hxunknown, ?_, hxdraining⟩
    rw [mem_insert_iff, not_or]
    refine ⟨?_, hxready⟩
    rintro rfl
    exact hfuture hx
  · refine h.sum_insert hb hfuture hunknown hready hdraining ?_
    intro x
    rw [mem_queuedHashes, mem_queuedHashes, mem_insert_iff, eq_comm (a := b.info.hash)]
    tauto

/-- The results of `import` with which the block is queued. -/
def queues : ImportResult → Bool
  | .futureTimeKnown => true
  | .futureTimeUnknown => true
  | .unknownParent => true
  | .success => true
  | _ => false

/-- Whether an import counts right: what it queues is not waiting for its time already,
and what it finds bad touches no other block. -/
def talliesImport (env : Env) (b : Block) (isOurs : Bool) (q : BlockQueue) : Bool :=
  (!queues (q.importResult env b isOurs) || !q.future.hashes.contains b.info.hash) &&
    (q.importResult env b isOurs != .badChain ||
      { q with knownBad := q.knownBad.insert b.info.hash }.untouched [b.info.hash])

/-- What an import that counts right queues is a block the queue does not have. -/
theorem Tallied.new {env : Env} {b : Block} {isOurs : Bool} (h : q.Tallied diff)
    (hop : q.talliesImport env b isOurs = true)
    (hqueues : queues (q.importResult env b isOurs) = true) :
    b.info.hash ∉ q.future.hashes ∧ b.info.hash ∉ q.unknown.hashes ∧ b.info.hash ∉ q.readySet ∧
      b.info.hash ∉ q.drainingSet ∧ b.info.hash ∉ q.knownBad ∧ b.bytes ≠ [] := by
  have hne : ∀ r, queues r = false → q.importResult env b isOurs ≠ r := by
    rintro r hr rfl
    rw [hqueues] at hr
    cases hr
  obtain ⟨hready, hdraining, hunknown, hbad, hbytes⟩ :=
    fresh_of_importResult q env b isOurs (hne _ rfl) (hne _ rfl)
  rw [h.kept.unknown] at hunknown
  rw [talliesImport, hqueues, Bool.and_eq_true, Bool.not_true, Bool.false_or,
    Bool.not_eq_true', List.contains_eq_mem, decide_eq_false_iff_not] at hop
  exact ⟨hop.1, hunknown, hready, hdraining, hbad, hbytes⟩

theorem Tallied.import {env : Env} {b : Block} {isOurs : Bool} (h : q.Tallied diff)
    (hb : Weighs diff b.info) (hkept : (q.import env b isOurs).Kept)
    (hop : q.talliesImport env b isOurs = true) : (q.import env b isOurs).Tallied diff := by
  have hnew := h.new hop
  rw [BlockQueue.import] at hkept ⊢
  cases hresult : q.importResult env b isOurs with
  | futureTimeKnown | futureTimeUnknown =>
      rw [hresult] at hnew
      obtain ⟨hfuture, hunknown, hready, hdraining, -, -⟩ := hnew rfl
      exact h.delay hb hfuture hunknown hready hdraining
  | badChain =>
      rw [hresult] at hkept
      dsimp only at hkept ⊢
      rw [talliesImport, hresult, Bool.and_eq_true, bne_self_eq_false, Bool.false_or] at hop
      rw [updateBad_of_untouched hop.2] at hkept ⊢
      exact h.unmoved ⟨rfl, rfl, rfl, rfl, rfl, rfl⟩ hkept
        ⟨h.weighed.verified, h.weighed.verifying, h.weighed.unverified, h.weighed.working,
          h.weighed.unknown⟩
  | unknownParent =>
      rw [hresult] at hnew
      obtain ⟨hfuture, hunknown, hready, hdraining, hbad, hbytes⟩ := hnew rfl
      exact h.wait hb hfuture hunknown hready hdraining hbad hbytes
  | success =>
      rw [hresult] at hnew
      obtain ⟨hfuture, hunknown, hready, hdraining, hbad, hbytes⟩ := hnew rfl
      exact (h.enqueue hb hfuture hunknown hready hdraining hbad hbytes).noteReady b.info.hash
  | alreadyInChain | alreadyKnown | malformed | overbidGasPrice | zeroSignature => exact h

/-! ## Draining -/

/-- A sum over blocks with different hashes. -/
theorem foldl_difficulty {l : List VerifiedBlock} (hweighs : ∀ b ∈ l, Weighs diff b.info)
    (honce : (l.map (·.info.hash)).Nodup) :
    l.foldl (fun n b => n + difficultyOf b.info) 0 =
      ∑ h ∈ (l.map (·.info.hash)).toFinset, diff h := by
  have hsum : ∀ (l : List VerifiedBlock) (n : U256), (∀ b ∈ l, Weighs diff b.info) →
      l.foldl (fun n b => n + difficultyOf b.info) n =
        n + ((l.map (·.info.hash)).map diff).sum := by
    intro l
    induction l with
    | nil => simp
    | cons b l ih =>
        intro n hweighs
        rw [List.foldl_cons, ih _ fun b' hb' => hweighs b' (.tail _ hb'), hweighs b (.head _),
          List.map_cons, List.map_cons, List.sum_cons, add_assoc]
  rw [hsum l 0 hweighs, zero_add, List.sum_toFinset _ honce]

theorem Tallied.drain (h : q.Tallied diff) (max : Nat) : (q.drain max).2.Tallied diff := by
  have hkept := h.kept.drain max
  rw [BlockQueue.drain] at hkept ⊢
  split
  · rename_i hempty
    rw [if_pos hempty] at hkept
    generalize min max q.verified.queue.length = n at hkept ⊢
    have hnone : q.drainingSet = ∅ := ExtTreeSet.isEmpty_iff.mp hempty
    have htaken : ∀ b ∈ (q.verified.dequeueMultiple n).1, b ∈ q.verified.queue :=
      fun b hb => List.mem_of_mem_take hb
    have hready : ∀ x ∈ (q.verified.dequeueMultiple n).1.map (·.info.hash), x ∈ q.readySet := by
      intro x hx
      obtain ⟨b, hb, rfl⟩ := List.mem_map.mp hx
      rw [h.kept.ready]
      exact List.mem_append_left _ (List.mem_append_left _ (List.mem_map_of_mem (htaken b hb)))
    have hdraining : ∀ x, x ∈ ((q.verified.dequeueMultiple n).1.map (·.info.hash)).foldl .insert
        q.drainingSet ↔ x ∈ (q.verified.dequeueMultiple n).1.map (·.info.hash) := by
      intro x
      rw [mem_foldl_insert, hnone]
      exact or_iff_left ExtTreeSet.not_mem_empty
    refine ⟨hkept, ⟨?_, h.weighed.verifying, h.weighed.unverified, h.weighed.working,
      h.weighed.unknown⟩, ?_, ?_, ?_⟩
    · exact fun b hb => h.weighed.verified b (List.mem_of_mem_drop hb)
    · intro x hx
      obtain ⟨hunknown, hnotReady, -⟩ := h.futureApart x hx
      refine ⟨hunknown, ?_, ?_⟩
      · exact fun hmem => hnotReady (mem_foldl_erase.mp hmem).2
      · exact fun hmem => hnotReady (hready x ((hdraining x).mp hmem))
    · refine h.difficulty.trans (Finset.sum_congr ?_ fun _ _ => rfl)
      ext x
      rw [mem_queuedHashes, mem_queuedHashes, mem_foldl_erase, hdraining, hnone]
      have hx := hready x
      have hout : x ∉ (∅ : ExtTreeSet H256) := ExtTreeSet.not_mem_empty
      tauto
    · have honce : ((q.verified.dequeueMultiple n).1.map (·.info.hash)).Nodup := by
        have hall := (List.nodup_append.mp (List.nodup_append.mp
          (List.nodup_append.mp h.kept.once).1).1).1
        exact hall.sublist ((List.take_sublist n _).map _)
      have hsum := foldl_difficulty (fun b hb => h.weighed.verified b (htaken b hb)) honce
      refine hsum.trans (Finset.sum_congr ?_ fun _ _ => rfl)
      ext x
      rw [List.mem_toFinset, mem_finset, hdraining]
  · exact h

/-! ## Done draining -/

/-- What was drained is not counted any more. -/
theorem Tallied.noteDone (h : q.Tallied diff) (bad : List H256) :
    (q.noteDone bad).difficulty = ∑ x ∈ (q.noteDone bad).queuedHashes, diff x := by
  have hqueued : ∀ x, x ∈ (q.noteDone bad).queuedHashes ↔
      x ∈ q.future.hashes ∨ x ∈ q.unknown.hashes ∨ x ∈ q.readySet := by
    intro x
    have hout : x ∉ (∅ : ExtTreeSet H256) := ExtTreeSet.not_mem_empty
    rw [mem_queuedHashes]
    show _ ∨ _ ∨ _ ∨ x ∈ (∅ : ExtTreeSet H256) ↔ _
    tauto
  have hapart : Disjoint (q.noteDone bad).queuedHashes (finset q.drainingSet) := by
    rw [Finset.disjoint_left]
    intro x hx hdraining
    rw [mem_finset] at hdraining
    have hfree := h.kept.draining x hdraining
    rw [List.mem_append, not_or, ← h.kept.ready] at hfree
    rcases (hqueued x).mp hx with hfuture | hunknown | hready
    · exact (h.futureApart x hfuture).2.2 hdraining
    · exact hfree.2 hunknown
    · exact hfree.1 hready
  have hall : q.queuedHashes = (q.noteDone bad).queuedHashes ∪ finset q.drainingSet := by
    ext x
    rw [Finset.mem_union, hqueued, mem_queuedHashes, mem_finset]
    tauto
  show q.difficulty - q.drainingDifficulty = _
  rw [h.difficulty, h.drainingDifficulty, hall, Finset.sum_union hapart]
  exact add_sub_cancel_right _ _

theorem Tallied.doneDrain {env : DoneEnv} (h : q.Tallied diff) (hkept : (q.doneDrain env bad).Kept)
    (hop : (bad.isEmpty || (q.noteDone bad).untouched bad) = true) :
    (q.doneDrain env bad).Tallied diff := by
  have hnone : finset (∅ : ExtTreeSet H256) = ∅ := by
    ext x
    simp
  have hnoted : (q.noteDone bad).Weighed diff := ⟨h.weighed.verified, h.weighed.verifying,
    h.weighed.unverified, h.weighed.working, h.weighed.unknown⟩
  have hdone : (q.doneDrain env bad).Weighed diff ∧
      Unmoved (q.noteDone bad) (q.doneDrain env bad) := by
    rw [Bool.or_eq_true, List.isEmpty_iff] at hop
    rcases hop with rfl | huntouched
    · exact ⟨hnoted, .refl _⟩
    · obtain ⟨n, hn, -⟩ := updateBads_of_spares env 0 (spares_of_untouched huntouched)
      rw [BlockQueue.doneDrain, hn, collect_of_untouched huntouched]
      exact hnoted.startMany n
  obtain ⟨hweighed, hready, hdraining, hunknown, hfuture, hdifficulty, hdrained⟩ := hdone
  refine ⟨hkept, hweighed, ?_, ?_, ?_⟩
  · rw [hfuture, hunknown, hready, hdraining]
    intro x hx
    obtain ⟨hnotUnknown, hnotReady, -⟩ := h.futureApart x hx
    exact ⟨hnotUnknown, hnotReady, ExtTreeSet.not_mem_empty⟩
  · rw [hdifficulty, queuedHashes, hfuture, hunknown, hready, hdraining]
    exact h.noteDone bad
  · rw [hdrained, hdraining]
    show (0 : U256) = ∑ x ∈ finset (∅ : ExtTreeSet H256), diff x
    rw [hnone, Finset.sum_empty]

/-! ## Runs -/

/-- Whether a step counts right.  A block of the future does not become due or come in
again, and nothing but what was drained leaves the queue. -/
def tallies (q : BlockQueue) : Op → Bool
  | .import env b isOurs => q.talliesImport env b isOurs
  | .tick utcTime => q.future.map.all fun e => utcTime < e.1
  | .doneDrain _ bad => bad.isEmpty || (q.noteDone bad).untouched bad
  | .finish i good _ => (q.working[i]?).all fun w => q.strikesNone good w
  | _ => true

/-- Where no block is due, `tick` changes nothing. -/
theorem tick_of_none {utcTime : Nat} (h : q.tallies (.tick utcTime) = true) :
    (q.tick utcTime).2 = q := by
  rw [tallies, List.all_eq_true] at h
  have htaken : q.future.map.filter (fun e => e.1 ≤ utcTime) = [] := by
    rw [List.filter_eq_nil_iff]
    intro e he
    have := of_decide_eq_true (h e he)
    simp only [decide_eq_true_eq]
    omega
  have hrest : q.future.map.filter (fun e => ¬ e.1 ≤ utcTime) = q.future.map := by
    rw [List.filter_eq_self]
    intro e he
    have := of_decide_eq_true (h e he)
    simp only [decide_eq_true_eq]
    omega
  have hsize : q.future.size - 0 = q.future.size := by bv_omega
  simp only [tick, htaken, hrest, SizedBlockMap.removeRange, List.foldl_nil, hsize]

/-- An imported block has the difficulty of its hash. -/
def OpWeighs (diff : H256 → U256) : Op → Prop
  | .import _ b _ => Weighs diff b.info
  | _ => True

instance (diff : H256 → U256) : (op : Op) → Decidable (OpWeighs diff op)
  | .import _ b _ => inferInstanceAs (Decidable (difficultyOf b.info = diff b.info.hash))
  | .tick _ => .isTrue trivial
  | .noteReady _ => .isTrue trivial
  | .retryAllUnknown => .isTrue trivial
  | .drain _ => .isTrue trivial
  | .doneDrain _ _ => .isTrue trivial
  | .clear => .isTrue trivial
  | .start => .isTrue trivial
  | .finish _ _ _ => .isTrue trivial

theorem Tallied.step {op : Op} (h : q.Tallied diff) (hweighs : OpWeighs diff op)
    (hbooks : q.keepsBooks op = true) (hop : q.tallies op = true) (hstep : step q op = some q') :
    q'.Tallied diff := by
  have hkept := h.kept.step hbooks hstep
  cases op with
  | «import» env b isOurs =>
      cases hstep
      exact h.import hweighs hkept hop
  | tick utcTime =>
      cases hstep
      have hsame : (q.tick utcTime).2 = q := tick_of_none hop
      rw [hsame]
      exact h
  | noteReady good =>
      cases hstep
      exact h.noteReady good
  | retryAllUnknown =>
      cases hstep
      exact h.retryLoop _
  | drain max =>
      cases hstep
      exact h.drain max
  | doneDrain env bad =>
      cases hstep
      exact h.doneDrain hkept hop
  | clear =>
      cases hstep
      have hempty : Tallied diff {} := tallied_empty
      exact ⟨hkept, ⟨hempty.weighed.verified, hempty.weighed.verifying, hempty.weighed.unverified,
        h.weighed.working, hempty.weighed.unknown⟩, hempty.futureApart, hempty.difficulty,
        hempty.drainingDifficulty⟩
  | start =>
      obtain ⟨hweighed, hsame⟩ := h.weighed.start hstep
      exact h.unmoved hsame hkept hweighed
  | finish i good tail =>
      obtain ⟨hweighed, hsame⟩ := h.weighed.finish hop hstep
      exact h.unmoved hsame hkept hweighed

/-- Where hashes identify difficulties, and along every run in which the books are kept
and every step counts right, the difficulty is the sum over the queued blocks. -/
theorem difficulty_is_sum (diff : H256 → U256)
    (h : system.Reach
      (fun q op => OpWeighs diff op ∧ (q.keepsBooks op && q.tallies op) = true) q) :
    q.difficulty = ∑ x ∈ q.queuedHashes, diff x := by
  have htallied : q.Tallied diff := by
    refine System.Reach.invariant (I := Tallied diff) ?_ ?_ h
    · rintro q rfl
      exact tallied_empty
    · intro q op q' _ hq hop hstep
      rw [Bool.and_eq_true] at hop
      exact hq.step hop.1 hop.2.1 hop.2.2 hstep
  exact htallied.difficulty

/-- The import of a block with a timestamp, at a time. -/
def datedImport (utcTime timestamp : Nat) (hash parentHash : H256) : Op :=
  .import { isKnown := fun h => h == 5, verified := true, utcTime := utcTime,
            tails := fun _ => strayTails 0 }
    { (sampleBlock hash parentHash) with
      info := { (sampleBlock hash parentHash).info with timestamp := timestamp } } false

/-- One block waits for its time and one for its parent, and of two ready ones the first
has been drained. -/
theorem difficulty_is_sum_four :
    ∃ q, system.Reach (fun q op => OpWeighs (fun _ => 1) op ∧
        (q.keepsBooks op && q.tallies op) = true) q ∧
      q.difficulty = 3 ∧ q.difficulty = ∑ _x ∈ q.queuedHashes, 1 := by
  have hstart : system.Reach (fun q op => OpWeighs (fun _ => 1) op ∧
      (q.keepsBooks op && q.tallies op) = true) {} := .init rfl
  obtain ⟨q, hreach, hq⟩ := hstart.exists_of_check
    ([datedImport 0 9 4 5, sampleImport [5] 8 7, sampleImport [5] 2 1, sampleImport [5] 1 5] ++
      sampleVerify true ++ sampleVerify true ++
        [.drain 1, .tick 8, .doneDrain { tails := fun _ _ => strayTails 9 } []])
    (p := fun q => q.difficulty == 3) (by decide +kernel) (by decide +kernel)
  rw [beq_iff_eq] at hq
  exact ⟨q, hreach, hq, difficulty_is_sum _ hreach⟩

/-- A block comes in before its time, `tick` takes it out, and it is imported again.  It is
the only block queued, and counted twice. -/
theorem future_block_counts_twice :
    ∃ q, system.Reach (fun _ op => OpWeighs (fun _ => 1) op) q ∧
      q.difficulty ≠ ∑ _x ∈ q.queuedHashes, 1 := by
  have hstart : system.Reach (fun _ op => OpWeighs (fun _ => 1) op) {} := .init rfl
  obtain ⟨q, hreach, hq⟩ := hstart.exists_of_check
    [datedImport 0 9 4 5, .tick 9, datedImport 9 9 4 5]
    (p := fun q => q.difficulty == 2 && q.readySet.toList == [4] && q.future.hashes == [] &&
      q.unknown.hashes == [] && q.drainingSet.toList == [])
    (by decide +kernel) (by decide +kernel)
  simp only [Bool.and_eq_true, beq_iff_eq] at hq
  obtain ⟨⟨⟨⟨hdifficulty, hready⟩, hfuture⟩, hunknown⟩, hdraining⟩ := hq
  refine ⟨q, hreach, ?_⟩
  rw [hdifficulty, queuedHashes, finset, finset, hready, hfuture, hunknown, hdraining]
  decide +kernel

end BlockQueue

end CppSwc
