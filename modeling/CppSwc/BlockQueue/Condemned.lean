import CppSwc.BlockQueue.Queue
import CppSwc.Lib.Tree

/-!
# Condemning bad blocks

`doneDrain` is told which of the drained blocks are bad.  It is meant to condemn these
and everything that descends from them: their hashes go to `knownBad`, and the blocks
leave the queue.  Below a bad hash in `unknown` this works.

In the other three queues it does not.  `removeIf` returns what `std::remove_if` has
left behind the new end instead of the blocks it has removed, and it is the hashes of
these that are noted.  Nor is a listed block found if it waits in `unknown`, or if it
is finished and still in `verifying`, since there the field `sha3Uncles` is compared.
`harmless` says when nothing of this happens, and `condemns_exactly_iff` that `doneDrain`
is exact in no other case.
-/

namespace CppSwc

open Lib Std

namespace BlockQueue

variable {q q' : BlockQueue} {bad : List H256} {b h : H256}

/-! ## Blocks with unknown parents -/

theorem gathered_below (q : BlockQueue) (h : H256) :
    Gathered Prod.fst [h] q.unknown.map (q.below h).1 (q.below h).2 :=
  gathered_gather (by rw [List.length_singleton, Nat.add_comm])

@[simp] theorem collectUnknownBad_verified : (q.collectUnknownBad b).verified = q.verified := rfl
@[simp] theorem collectUnknownBad_verifying : (q.collectUnknownBad b).verifying = q.verifying := rfl
@[simp] theorem collectUnknownBad_unverified :
    (q.collectUnknownBad b).unverified = q.unverified := rfl

theorem mem_collectUnknownBad_knownBad :
    h ∈ (q.collectUnknownBad b).knownBad ↔
      h ∈ (q.below b).1.map (fun e => e.2.1) ∨ h ∈ q.knownBad := mem_foldl_insert

/-- Collecting below several hashes, one after the other. -/
def collect (bad : List H256) (q : BlockQueue) : BlockQueue :=
  bad.foldl (fun q b => q.collectUnknownBad b) q

/-- The entries that are collected. -/
def collected : List H256 → BlockQueue → List (H256 × H256 × Block)
  | [], _ => []
  | b :: bs, q => (q.below b).1 ++ collected bs (q.collectUnknownBad b)

/-- The listed hashes and those that descend from them in `unknown`. -/
def condemned (bad : List H256) (q : BlockQueue) : List H256 :=
  bad ++ (q.collected bad).map fun e => e.2.1

theorem gathered_collect (q : BlockQueue) (bad : List H256) :
    Gathered Prod.fst bad q.unknown.map (q.collected bad) (q.collect bad).unknown.map := by
  induction bad generalizing q with
  | nil => exact ⟨.refl _, by simp [collected], by simp [collected, collect]⟩
  | cons b bad ih => exact (gathered_below q b).append (ih (q.collectUnknownBad b))

@[simp] theorem collect_verified : (q.collect bad).verified = q.verified := by
  induction bad generalizing q with
  | nil => rfl
  | cons b bad ih => exact ih

@[simp] theorem collect_verifying : (q.collect bad).verifying = q.verifying := by
  induction bad generalizing q with
  | nil => rfl
  | cons b bad ih => exact ih

@[simp] theorem collect_unverified : (q.collect bad).unverified = q.unverified := by
  induction bad generalizing q with
  | nil => rfl
  | cons b bad ih => exact ih

theorem mem_collect_knownBad :
    h ∈ (q.collect bad).knownBad ↔ h ∈ (q.collected bad).map (fun e => e.2.1) ∨ h ∈ q.knownBad := by
  induction bad generalizing q with
  | nil => simp [collect, collected]
  | cons b bad ih =>
      have hcollect := ih (q := q.collectUnknownBad b)
      rw [mem_collectUnknownBad_knownBad] at hcollect
      rw [collected, List.map_append, List.mem_append]
      exact hcollect.trans (by tauto)

/-! ## Rounds that remove nothing -/

/-- No block of the three queues is removed by a round of `updateBad`. -/
def spares (q : BlockQueue) : Bool :=
  q.verified.queue.all (!q.badVerified ·) && q.unverified.queue.all (!q.badUnverified ·) &&
    q.verifying.queue.all (!q.badVerifying ·)

theorem spares_iff : q.spares = true ↔
    (∀ b ∈ q.verified.queue, b.info.parentHash ∉ q.knownBad ∧ b.info.hash ∉ q.knownBad) ∧
    (∀ b ∈ q.unverified.queue, b.parentHash ∉ q.knownBad ∧ b.hash ∉ q.knownBad) ∧
    ∀ b ∈ q.verifying.queue, b.info.parentHash ∉ q.knownBad ∧ b.info.sha3Uncles ∉ q.knownBad := by
  simp only [spares, badVerified, badUnverified, badVerifying, Bool.and_eq_true, List.all_eq_true,
    Bool.not_eq_true', ← Bool.not_eq_true, Bool.or_eq_true, not_or, ExtTreeSet.contains_iff_mem,
    and_assoc]

theorem removeIf_of_none {α : Type} [HasBlockData α] {tail : Nat → α} {pred : α → Bool}
    {s : SizedBlockQueue α} (h : ∀ b ∈ s.queue, pred b = false) :
    s.removeIf tail pred = ([], s) := by
  have hcount : s.queue.countP pred = 0 := by
    rw [List.countP_eq_zero]
    intro b hb
    rw [h b hb]
    exact Bool.false_ne_true
  have hfilter : s.queue.filter (!pred ·) = s.queue := by
    rw [List.filter_eq_self]
    intro b hb
    rw [h b hb]
    rfl
  have hsize : s.size - 0 = s.size := by bv_omega
  simp only [SizedBlockQueue.removeIf, hcount, hfilter, List.range_zero, List.map_nil,
    SizedBlockQueue.dataSizes, List.foldl_nil, hsize]

theorem dropVerified_of_none {tail : Nat → VerifiedBlock}
    (h : ∀ b ∈ q.verified.queue, q.badVerified b = false) : q.dropVerified tail = (q, false) := by
  rw [dropVerified, removeIf_of_none h]
  rfl

theorem dropUnverified_of_none {tail : Nat → UnverifiedBlock}
    (h : ∀ b ∈ q.unverified.queue, q.badUnverified b = false) :
    q.dropUnverified tail = (q, false) := by
  rw [dropUnverified, removeIf_of_none h]
  rfl

theorem dropVerifying_of_none {tail : Nat → VerifiedBlock}
    (h : ∀ b ∈ q.verifying.queue, q.badVerifying b = false) : q.dropVerifying tail = (q, false) := by
  rw [dropVerifying, removeIf_of_none h]
  rfl

theorem updateRound_of_spares {tails : Tails} (h : q.spares = true) :
    q.updateRound tails = (q, false) := by
  simp only [spares, Bool.and_eq_true, List.all_eq_true, Bool.not_eq_true'] at h
  obtain ⟨⟨hverified, hunverified⟩, hverifying⟩ := h
  simp only [updateRound, dropVerified_of_none hverified, dropUnverified_of_none hunverified,
    dropVerifying_of_none hverifying, Bool.or_false]

theorem updateBad_of_spares {tails : Nat → Tails} (h : (q.collectUnknownBad b).spares = true) :
    q.updateBad tails b = q.collectUnknownBad b := by
  rw [updateBad, updateLoop, updateRound_of_spares h]
  rfl

/-- What is spared by more bad hashes is spared by fewer. -/
theorem spares_of_collect (h : (q.collect bad).spares = true) : q.spares = true := by
  rw [spares_iff] at h ⊢
  simp only [collect_verified, collect_unverified, collect_verifying, mem_collect_knownBad,
    not_or] at h
  obtain ⟨hverified, hunverified, hverifying⟩ := h
  exact ⟨fun b hb => ⟨(hverified b hb).1.2, (hverified b hb).2.2⟩,
    fun b hb => ⟨(hunverified b hb).1.2, (hunverified b hb).2.2⟩,
    fun b hb => ⟨(hverifying b hb).1.2, (hverifying b hb).2.2⟩⟩

/-! ## Verifiers that start meanwhile -/

theorem start_collectUnknownBad :
    ((q.collectUnknownBad b).start).getD (q.collectUnknownBad b) =
      (q.start.getD q).collectUnknownBad b := by
  simp only [start, collectUnknownBad_unverified]
  cases q.unverified.queue with
  | nil => rfl
  | cons w ws => rfl

theorem startMany_collectUnknownBad (n : Nat) :
    (startMany n q).collectUnknownBad b = startMany n (q.collectUnknownBad b) := by
  induction n generalizing q with
  | zero => rfl
  | succ n ih => rw [startMany, ih, startMany, start_collectUnknownBad]

theorem startMany_collect (n : Nat) : (startMany n q).collect bad = startMany n (q.collect bad) := by
  induction bad generalizing q with
  | nil => rfl
  | cons b bad ih =>
      show ((startMany n q).collectUnknownBad b).collect bad = _
      rw [startMany_collectUnknownBad, ih]
      rfl

/-- A block that a verifier takes is spared as before. -/
theorem spares_start : (q.start.getD q).spares = q.spares := by
  simp only [start]
  cases hqueue : q.unverified.queue with
  | nil => rfl
  | cons w ws =>
      simp only [Option.getD_some, spares, SizedBlockQueue.dequeue, SizedBlockQueue.enqueue, hqueue,
        List.all_append, List.all_cons, List.all_nil, Bool.and_true]
      have hplace : badVerifying q (.placeOf w) = badUnverified q w := rfl
      show (_ && ws.all (!q.badUnverified ·) &&
        (q.verifying.queue.all (!q.badVerifying ·) && !q.badVerifying (.placeOf w))) =
        (q.verified.queue.all (!q.badVerified ·) && (!q.badUnverified w && ws.all (!q.badUnverified ·)) &&
          q.verifying.queue.all (!q.badVerifying ·))
      rw [hplace]
      ac_rfl

theorem spares_startMany (n : Nat) : (startMany n q).spares = q.spares := by
  induction n generalizing q with
  | zero => rfl
  | succ n ih => rw [startMany, ih, spares_start]

theorem startMany_startMany (m n : Nat) : startMany n (startMany m q) = startMany (m + n) q := by
  induction m generalizing q with
  | zero => rw [Nat.zero_add, startMany]
  | succ m ih => rw [Nat.succ_add, startMany, startMany, ih]

/-- A loop of `doneDrain` that removes nothing from the three queues only collects. -/
theorem updateBads_of_spares (env : DoneEnv) (i : Nat) (h : (q.collect bad).spares = true) :
    ∃ n, updateBads env i bad q = startMany n (q.collect bad) ∧
      ((∀ j, env.starts j = 0) → n = 0) := by
  induction bad generalizing i q with
  | nil => exact ⟨0, rfl, fun _ => rfl⟩
  | cons b bad ih =>
      have hcollect : (startMany (env.starts i) q).collectUnknownBad b =
          startMany (env.starts i) (q.collectUnknownBad b) := startMany_collectUnknownBad _
      have hspares : ((startMany (env.starts i) q).collectUnknownBad b).spares = true := by
        rw [hcollect, spares_startMany]
        exact spares_of_collect h
      obtain ⟨n, hn, hzero⟩ := ih (i + 1) (q := startMany (env.starts i) (q.collectUnknownBad b)) (by
        rw [startMany_collect, spares_startMany]
        exact h)
      refine ⟨env.starts i + n, ?_, ?_⟩
      · rw [updateBads, updateBad_of_spares hspares, hcollect, hn, startMany_collect,
          startMany_startMany]
        rfl
      · intro hstarts
        rw [hstarts i, hzero hstarts]

/-! ## Rounds that remove a block -/

theorem collectUnknownBad_grows (hh : h ∈ q.knownBad) : h ∈ (q.collectUnknownBad b).knownBad :=
  mem_collectUnknownBad_knownBad.mpr (.inr hh)

theorem condemn_grows (hh : h = b ∨ h ∈ q.knownBad) : h ∈ (q.condemn b).knownBad := by
  refine collectUnknownBad_grows (mem_insert_iff.mpr ?_)
  rcases hh with rfl | hh
  · exact .inl rfl
  · exact .inr hh

theorem condemnAll_grows {hashes : List H256} (hh : h ∈ hashes ∨ h ∈ q.knownBad) :
    h ∈ (condemnAll hashes q).knownBad := by
  induction hashes generalizing q with
  | nil => exact hh.resolve_left (nomatch ·)
  | cons b hashes ih =>
      refine ih (q := q.condemn b) ?_
      rw [List.mem_cons] at hh
      rcases hh with (rfl | hh) | hh
      · exact .inr (condemn_grows (.inl rfl))
      · exact .inl hh
      · exact .inr (condemn_grows (.inr hh))

theorem dropVerified_grows {tail : Nat → VerifiedBlock} (hh : h ∈ q.knownBad) :
    h ∈ (q.dropVerified tail).1.knownBad := condemnAll_grows (.inr hh)

theorem dropUnverified_grows {tail : Nat → UnverifiedBlock} (hh : h ∈ q.knownBad) :
    h ∈ (q.dropUnverified tail).1.knownBad := condemnAll_grows (.inr hh)

theorem dropVerifying_grows {tail : Nat → VerifiedBlock} (hh : h ∈ q.knownBad) :
    h ∈ (q.dropVerifying tail).1.knownBad := condemnAll_grows (.inr hh)

theorem updateRound_grows {tails : Tails} (hh : h ∈ q.knownBad) :
    h ∈ (q.updateRound tails).1.knownBad :=
  dropVerifying_grows (dropUnverified_grows (dropVerified_grows hh))

theorem updateLoop_grows {tails : Nat → Tails} {n : Nat} (hh : h ∈ q.knownBad) :
    h ∈ (updateLoop tails n q).knownBad := by
  induction n generalizing q with
  | zero => exact hh
  | succ n ih =>
      simp only [updateLoop]
      split
      · exact ih (updateRound_grows hh)
      · exact updateRound_grows hh

theorem startMany_knownBad (n : Nat) : (startMany n q).knownBad = q.knownBad := by
  induction n generalizing q with
  | zero => rfl
  | succ n ih =>
      rw [startMany, ih, start]
      cases q.unverified.queue with
      | nil => rfl
      | cons w ws => rfl

theorem updateBads_grows {env : DoneEnv} {i : Nat} (hh : h ∈ q.knownBad) :
    h ∈ (updateBads env i bad q).knownBad := by
  induction bad generalizing i q with
  | nil => exact hh
  | cons b bad ih =>
      refine ih (updateLoop_grows (collectUnknownBad_grows ?_))
      rw [startMany_knownBad]
      exact hh

/-- A removal returns something. -/
theorem mem_removeIf {α : Type} [HasBlockData α] {t : Nat → α} {pred : α → Bool}
    {s : SizedBlockQueue α} {x : α} (hx : x ∈ s.queue) (hpred : pred x = true) :
    t 0 ∈ (s.removeIf t pred).1 := by
  have hpos : 0 < s.queue.countP pred := List.countP_pos_iff.mpr ⟨x, hx, hpred⟩
  exact List.mem_map_of_mem (List.mem_range.mpr hpos)

/-- A round that removes a block may note any hash. -/
theorem stray_mem_updateRound (hspares : q.spares = false) :
    h ∈ (q.updateRound (strayTails h)).1.knownBad := by
  by_cases hverified : ∃ b ∈ q.verified.queue, q.badVerified b = true
  · obtain ⟨b, hb, hbad⟩ := hverified
    have hmem := mem_removeIf (t := (strayTails h).verified) hb hbad
    refine dropVerifying_grows (dropUnverified_grows (condemnAll_grows (.inl ?_)))
    exact List.mem_map.mpr ⟨_, hmem, rfl⟩
  · simp only [not_exists, not_and, Bool.not_eq_true] at hverified
    by_cases hunverified : ∃ b ∈ q.unverified.queue, q.badUnverified b = true
    · obtain ⟨b, hb, hbad⟩ := hunverified
      have hmem := mem_removeIf (t := (strayTails h).unverified) hb hbad
      simp only [updateRound, dropVerified_of_none hverified]
      refine dropVerifying_grows (condemnAll_grows (.inl ?_))
      exact List.mem_map.mpr ⟨_, hmem, rfl⟩
    · simp only [not_exists, not_and, Bool.not_eq_true] at hunverified
      have hverifying : ∃ b ∈ q.verifying.queue, q.badVerifying b = true := by
        by_contra hnone
        simp only [not_exists, not_and, Bool.not_eq_true] at hnone
        have : q.spares = true := by
          simp only [spares, Bool.and_eq_true, List.all_eq_true, Bool.not_eq_true']
          exact ⟨⟨hverified, hunverified⟩, hnone⟩
        rw [this] at hspares
        cases hspares
      obtain ⟨b, hb, hbad⟩ := hverifying
      have hmem := mem_removeIf (t := (strayTails h).verifying) hb hbad
      simp only [updateRound, dropVerified_of_none hverified, dropUnverified_of_none hunverified]
      refine condemnAll_grows (.inl ?_)
      exact List.mem_map.mpr ⟨_, hmem, rfl⟩

/-- Either `updateBad` only collects, or it may note any hash. -/
theorem updateBad_stray (q : BlockQueue) (b h : H256) :
    (q.collectUnknownBad b).spares = true ∨
      h ∈ (q.updateBad (fun _ => strayTails h) b).knownBad := by
  cases hspares : (q.collectUnknownBad b).spares with
  | true => exact .inl rfl
  | false =>
      refine .inr ?_
      have hstray : h ∈ ((q.collectUnknownBad b).updateRound (strayTails h)).1.knownBad :=
        stray_mem_updateRound hspares
      simp only [updateBad, updateLoop]
      split
      · exact updateLoop_grows hstray
      · exact hstray

/-- So does the loop of `doneDrain`. -/
theorem updateBads_stray (q : BlockQueue) (bad : List H256) (h : H256) (i : Nat) :
    (bad ≠ [] → (q.collect bad).spares = true) ∨
      h ∈ (updateBads { tails := fun _ _ => strayTails h } i bad q).knownBad := by
  induction bad generalizing i q with
  | nil => exact .inl (absurd rfl)
  | cons b bad ih =>
      rcases updateBad_stray q b h with hspares | hstray
      · have heq : q.updateBad (fun _ => strayTails h) b = q.collectUnknownBad b :=
          updateBad_of_spares hspares
        rcases ih (q.collectUnknownBad b) (i + 1) with hrest | hstray
        · refine .inl fun _ => ?_
          cases bad with
          | nil => exact hspares
          | cons b' bad => exact hrest (by simp)
        · refine .inr ?_
          show h ∈ (updateBads { tails := fun _ _ => strayTails h } (i + 1) bad
            (q.updateBad (fun _ => strayTails h) b)).knownBad
          rw [heq]
          exact hstray
      · refine .inr ?_
        show h ∈ (updateBads { tails := fun _ _ => strayTails h } (i + 1) bad
          (q.updateBad (fun _ => strayTails h) b)).knownBad
        exact updateBads_grows hstray

/-! ## The end of the rounds -/

/-- Condemning leaves the three queues alone. -/
theorem condemnAll_knownCount {hashes : List H256} :
    (condemnAll hashes q).knownCount = q.knownCount := by
  induction hashes generalizing q with
  | nil => rfl
  | cons b hashes ih => exact ih (q := q.condemn b)

/-- Whatever is returned, as many blocks are removed. -/
theorem removeIf_length {α : Type} [HasBlockData α] {t : Nat → α} {p : α → Bool}
    (s : SizedBlockQueue α) :
    (s.removeIf t p).2.queue.length + (!(s.removeIf t p).1.isEmpty).toNat ≤ s.queue.length := by
  have hsplit := (List.filter_append_perm p s.queue).length_eq
  rw [List.length_append] at hsplit
  have hcount : (s.removeIf t p).1.length = (s.queue.filter p).length := by
    simp only [SizedBlockQueue.removeIf, List.length_map, List.length_range,
      List.countP_eq_length_filter]
  have hqueue : (s.removeIf t p).2.queue.length = (s.queue.filter (!p ·)).length := rfl
  have hpos : (!(s.removeIf t p).1.isEmpty).toNat ≤ (s.removeIf t p).1.length := by
    cases (s.removeIf t p).1 with
    | nil => exact Nat.le_refl 0
    | cons b bs => exact Nat.succ_le_succ (Nat.zero_le _)
  omega

theorem removeIf_isEmpty {α : Type} [HasBlockData α] {t : Nat → α} {p : α → Bool}
    {s : SizedBlockQueue α} (h : (s.removeIf t p).1.isEmpty = true) :
    ∀ b ∈ s.queue, p b = false := by
  intro b hb
  rw [← Bool.not_eq_true]
  intro hp
  have hmem := mem_removeIf (t := t) hb hp
  rw [List.isEmpty_iff.mp h] at hmem
  cases hmem

theorem dropVerified_knownCount (q : BlockQueue) (tail : Nat → VerifiedBlock) :
    (q.dropVerified tail).1.knownCount + (q.dropVerified tail).2.toNat ≤ q.knownCount := by
  have hlength := removeIf_length (t := tail) (p := q.badVerified) q.verified
  simp only [dropVerified, condemnAll_knownCount]
  simp only [knownCount]
  omega

theorem dropUnverified_knownCount (q : BlockQueue) (tail : Nat → UnverifiedBlock) :
    (q.dropUnverified tail).1.knownCount + (q.dropUnverified tail).2.toNat ≤ q.knownCount := by
  have hlength := removeIf_length (t := tail) (p := q.badUnverified) q.unverified
  simp only [dropUnverified, condemnAll_knownCount]
  simp only [knownCount]
  omega

theorem dropVerifying_knownCount (q : BlockQueue) (tail : Nat → VerifiedBlock) :
    (q.dropVerifying tail).1.knownCount + (q.dropVerifying tail).2.toNat ≤ q.knownCount := by
  have hlength := removeIf_length (t := tail) (p := q.badVerifying) q.verifying
  simp only [dropVerifying, condemnAll_knownCount]
  simp only [knownCount]
  omega

/-- A round after which the loop goes on has removed a block. -/
theorem updateRound_knownCount {tails : Tails} (hmore : (q.updateRound tails).2 = true) :
    (q.updateRound tails).1.knownCount < q.knownCount := by
  have h₁ := dropVerified_knownCount q tails.verified
  have h₂ := dropUnverified_knownCount (q.dropVerified tails.verified).1 tails.unverified
  have h₃ := dropVerifying_knownCount
    ((q.dropVerified tails.verified).1.dropUnverified tails.unverified).1 tails.verifying
  simp only [updateRound, Bool.or_eq_true] at hmore ⊢
  rcases hmore with (hmore | hmore) | hmore
  · rw [hmore, Bool.toNat_true] at h₁
    omega
  · rw [hmore, Bool.toNat_true] at h₂
    omega
  · rw [hmore, Bool.toNat_true] at h₃
    omega

/-- A round after which it ends has found nothing bad. -/
theorem spares_of_updateRound {tails : Tails} (hdone : (q.updateRound tails).2 = false) :
    q.spares = true := by
  simp only [updateRound, Bool.or_eq_false_iff] at hdone
  obtain ⟨⟨h₁, h₂⟩, h₃⟩ := hdone
  have hverified := removeIf_isEmpty ((Bool.not_eq_eq_eq_not.mp h₁).trans Bool.not_false)
  rw [dropVerified_of_none hverified] at h₂ h₃
  have hunverified := removeIf_isEmpty ((Bool.not_eq_eq_eq_not.mp h₂).trans Bool.not_false)
  rw [dropUnverified_of_none hunverified] at h₃
  have hverifying := removeIf_isEmpty ((Bool.not_eq_eq_eq_not.mp h₃).trans Bool.not_false)
  simp only [spares, Bool.and_eq_true, List.all_eq_true, Bool.not_eq_true']
  exact ⟨⟨hverified, hunverified⟩, hverifying⟩

theorem updateLoop_spares {tails : Nat → Tails} {n : Nat} (hn : q.knownCount < n) :
    (updateLoop tails n q).spares = true := by
  induction n generalizing q with
  | zero => exact absurd hn (Nat.not_lt_zero _)
  | succ n ih =>
      simp only [updateLoop]
      cases hmore : (q.updateRound (tails n)).2 with
      | true =>
          rw [if_pos rfl]
          exact ih (Nat.lt_of_lt_of_le (updateRound_knownCount hmore) (Nat.lt_succ_iff.mp hn))
      | false =>
          have hspares := spares_of_updateRound hmore
          rw [updateRound_of_spares hspares]
          exact hspares

/-- The rounds of `updateBad` end.  After them no block of the three queues has a bad parent
or, as far as it looks, a bad hash. -/
theorem updateBad_spares (q : BlockQueue) (tails : Nat → Tails) (b : H256) :
    (q.updateBad tails b).spares = true :=
  updateLoop_spares (Nat.lt_succ_self _)

theorem updateBads_spares {env : DoneEnv} {i : Nat} (hbad : bad ≠ []) :
    (updateBads env i bad q).spares = true := by
  induction bad generalizing i q with
  | nil => exact absurd rfl hbad
  | cons b bad ih =>
      rcases bad with - | ⟨b', bad⟩
      · exact updateBad_spares _ _ b
      · exact ih (List.cons_ne_nil b' bad)

/-! ## Exactness -/

/-- The queued blocks, with the hashes of their parents. -/
def queued (q : BlockQueue) : List (H256 × H256) :=
  q.verified.queue.map (fun b => (b.info.parentHash, b.info.hash)) ++
    q.verifying.queue.map (fun b => (b.info.parentHash, b.heldHash)) ++
    q.unverified.queue.map (fun b => (b.parentHash, b.hash)) ++
    q.unknown.map.map fun e => (e.1, e.2.1)

/-- What is to be condemned: the listed hashes, and those of queued blocks that descend
from them through queued blocks. -/
def Condemned (q : BlockQueue) (bad : List H256) : H256 → Prop := Descends q.queued bad

open Classical in
/-- The condemned hashes are noted, the condemned blocks have left, and the others are
where they were. -/
structure CondemnsExactly (q : BlockQueue) (bad : List H256) (q' : BlockQueue) : Prop where
  knownBad : ∀ h, h ∈ q'.knownBad ↔ h ∈ q.knownBad ∨ q.Condemned bad h
  verified : q'.verified.queue = q.verified.queue.filter fun b => ¬ q.Condemned bad b.info.hash
  verifying : q'.verifying.queue = q.verifying.queue.filter fun b => ¬ q.Condemned bad b.heldHash
  unverified : q'.unverified.queue = q.unverified.queue.filter fun b => ¬ q.Condemned bad b.hash
  unknown : q'.unknown.map = q.unknown.map.filter fun e => ¬ q.Condemned bad e.2.1

/-- Nothing bad is among the three queues, and what is condemned in `unknown` is found
below the listed hashes. -/
def harmless (bad : List H256) (q : BlockQueue) : Bool :=
  (q.collect bad).spares && q.verifying.queue.all (!(q.condemned bad).contains ·.heldHash) &&
    (q.collect bad).unknown.map.all fun e => !(q.condemned bad).contains e.2.1

/-- If the three queues hold nothing bad, what descends does so within `unknown`. -/
theorem condemned_iff (hspares : (q.collect bad).spares = true)
    (hlisted : ∀ h ∈ bad, h ∈ q.knownBad) : q.Condemned bad h ↔ h ∈ q.condemned bad := by
  have hgathered := gathered_collect q bad
  have hknown : ∀ h ∈ q.condemned bad, h ∈ (q.collect bad).knownBad := by
    intro h hh
    rw [mem_collect_knownBad]
    rcases List.mem_append.mp hh with hh | hh
    · exact .inr (hlisted h hh)
    · exact .inl hh
  rw [spares_iff, collect_verified, collect_unverified, collect_verifying] at hspares
  obtain ⟨hverified, hunverified, hverifying⟩ := hspares
  constructor
  · intro hd
    induction hd with
    | root hh => exact List.mem_append_left _ hh
    | child _ hedge ih =>
        have hbad := hknown _ ih
        simp only [queued, List.mem_append, List.mem_map, or_assoc] at hedge
        rcases hedge with ⟨b, hb, heq⟩ | ⟨b, hb, heq⟩ | ⟨b, hb, heq⟩ | ⟨e, he, heq⟩
        · cases heq
          exact absurd hbad (hverified b hb).1
        · cases heq
          exact absurd hbad (hverifying b hb).1
        · cases heq
          exact absurd hbad (hunverified b hb).1
        · refine hgathered.descends_iff.mp ?_
          exact .child (hgathered.descends_iff.mpr ih) (List.mem_map.mpr ⟨e, he, heq⟩)
  · intro hh
    have hd := hgathered.descends_iff.mpr hh
    clear hh
    induction hd with
    | root hh => exact .root hh
    | child _ hedge ih => exact .child ih (List.mem_append_right _ hedge)

theorem harmless_iff : q.harmless bad = true ↔ (q.collect bad).spares = true ∧
    (∀ b ∈ q.verifying.queue, b.heldHash ∉ q.condemned bad) ∧
    ∀ e ∈ (q.collect bad).unknown.map, e.2.1 ∉ q.condemned bad := by
  simp only [harmless, Bool.and_eq_true, List.all_eq_true, Bool.not_eq_true', List.contains_eq_mem,
    decide_eq_false_iff_not, and_assoc]

open Classical in
/-- Collecting is exact if it is harmless. -/
theorem condemnsExactly_collect (hharmless : q.harmless bad = true)
    (hlisted : ∀ h ∈ bad, h ∈ q.knownBad) : q.CondemnsExactly bad (q.collect bad) := by
  obtain ⟨hspares, hheld, hrest⟩ := harmless_iff.mp hharmless
  have hiff := fun h => condemned_iff (h := h) hspares hlisted
  have hgathered := gathered_collect q bad
  have hknown : ∀ h, h ∈ (q.collect bad).knownBad ↔ h ∈ q.knownBad ∨ h ∈ q.condemned bad := by
    intro h
    rw [mem_collect_knownBad, condemned, List.mem_append]
    constructor
    · rintro (hh | hh)
      · exact .inr (.inr hh)
      · exact .inl hh
    · rintro (hh | hh | hh)
      · exact .inr hh
      · exact .inr (hlisted h hh)
      · exact .inl hh
  rw [spares_iff, collect_verified, collect_unverified, collect_verifying] at hspares
  obtain ⟨hverified, hunverified, hverifying⟩ := hspares
  refine ⟨?_, ?_, ?_, ?_, ?_⟩
  · intro h
    rw [hknown, hiff]
  · rw [collect_verified, eq_comm, List.filter_eq_self]
    intro b hb
    rw [decide_eq_true_eq, hiff]
    exact fun hh => (hverified b hb).2 ((hknown _).mpr (.inr hh))
  · rw [collect_verifying, eq_comm, List.filter_eq_self]
    intro b hb
    rw [decide_eq_true_eq, hiff]
    exact hheld b hb
  · rw [collect_unverified, eq_comm, List.filter_eq_self]
    intro b hb
    rw [decide_eq_true_eq, hiff]
    exact fun hh => (hunverified b hb).2 ((hknown _).mpr (.inr hh))
  · rw [hgathered.rest_eq]
    refine List.filter_congr ?_
    intro e he
    rw [decide_eq_decide, hiff]
    -- Under a condemned parent an entry is collected, and the others are not condemned.
    rcases List.mem_append.mp (hgathered.perm.mem_iff.mpr he) with htaken | hstays
    · have hname : e.2.1 ∈ q.condemned bad :=
        List.mem_append_right _ (List.mem_map.mpr ⟨e, htaken, rfl⟩)
      have hkey : e.1 ∈ q.condemned bad := by
        obtain ⟨l, r, hsplit⟩ := List.append_of_mem htaken
        rcases hgathered.grounded l e r hsplit with hroot | hparent
        · exact List.mem_append_left _ hroot
        · refine List.mem_append_right _ ?_
          rw [hsplit, List.map_append]
          exact List.mem_append_left _ hparent
      exact ⟨fun hnot => absurd hkey hnot, fun hnot => absurd hname hnot⟩
    · have hname := hrest e hstays
      rw [hgathered.rest_eq, List.mem_filter, decide_eq_true_eq] at hstays
      exact ⟨fun _ => hname, fun _ => hstays.2⟩

theorem condemnsExactly_noteDone :
    (q.noteDone bad).CondemnsExactly bad q' ↔ q.CondemnsExactly bad q' := by
  have hknown : ∀ h, h ∈ (q.noteDone bad).knownBad ∨ q.Condemned bad h ↔
      h ∈ q.knownBad ∨ q.Condemned bad h := by
    intro h
    rw [noteDone, mem_foldl_insert]
    constructor
    · rintro ((hh | hh) | hh)
      · exact .inr (.root hh)
      · exact .inl hh
      · exact .inr hh
    · rintro (hh | hh)
      · exact .inl (.inr hh)
      · exact .inr hh
  constructor
  · intro hexact
    exact ⟨fun h => (hexact.knownBad h).trans (hknown h), hexact.verified, hexact.verifying,
      hexact.unverified, hexact.unknown⟩
  · intro hexact
    exact ⟨fun h => (hexact.knownBad h).trans (hknown h).symm, hexact.verified, hexact.verifying,
      hexact.unverified, hexact.unknown⟩

/-- The number of elements of a container is a `size_t`. -/
structure Sized (q : BlockQueue) (bad : List H256) : Prop where
  knownBad : q.knownBad.size < 2 ^ 64
  bad : bad.length < 2 ^ 64
  verified : q.verified.queue.length < 2 ^ 64
  verifying : q.verifying.queue.length < 2 ^ 64
  unverified : q.unverified.queue.length < 2 ^ 64
  unknown : q.unknown.map.length < 2 ^ 64

/-- There is a hash that is neither bad nor condemned. -/
theorem Sized.exists_fresh (hsize : q.Sized bad) : ∃ h, h ∉ q.knownBad ∧ ¬ q.Condemned bad h := by
  obtain ⟨h, hfresh⟩ :=
    exists_bitVec_not_mem (q.knownBad.toList ++ bad ++ q.queued.map Prod.snd) (by
      have := hsize.knownBad
      have := hsize.bad
      have := hsize.verified
      have := hsize.verifying
      have := hsize.unverified
      have := hsize.unknown
      simp only [queued, List.length_append, List.length_map, ExtTreeSet.length_toList]
      omega)
  simp only [List.mem_append, not_or, ExtTreeSet.mem_toList] at hfresh
  refine ⟨h, hfresh.1.1, ?_⟩
  intro hcondemned
  cases hcondemned with
  | root hh => exact hfresh.1.2 hh
  | child _ hedge => exact hfresh.2 (List.mem_map.mpr ⟨_, hedge, rfl⟩)

open Classical in
theorem harmless_of_condemnsExactly (hspares : (q.collect bad).spares = true)
    (hlisted : ∀ h ∈ bad, h ∈ q.knownBad) (hexact : q.CondemnsExactly bad (q.collect bad)) :
    q.harmless bad = true := by
  have hiff := fun h => condemned_iff (h := h) hspares hlisted
  refine harmless_iff.mpr ⟨hspares, ?_, ?_⟩
  · intro b hb
    have hverifying := hexact.verifying
    rw [collect_verifying] at hverifying
    rw [hverifying, List.mem_filter, decide_eq_true_iff, hiff] at hb
    exact hb.2
  · intro e he
    rw [hexact.unknown, List.mem_filter, decide_eq_true_iff, hiff] at he
    exact he.2

theorem not_condemned_nil : ¬ q.Condemned [] h := by
  intro hcondemned
  induction hcondemned with
  | root hh => cases hh
  | child _ _ ih => exact ih

open Classical in
theorem condemnsExactly_nil (q : BlockQueue) : q.CondemnsExactly [] (q.noteDone []) := by
  have hall : ∀ {α : Type} (hash : α → H256) (l : List α),
      l = l.filter fun b => ¬ q.Condemned [] (hash b) := by
    intro α hash l
    rw [eq_comm, List.filter_eq_self]
    exact fun _ _ => decide_eq_true not_condemned_nil
  exact ⟨fun h => ⟨.inl, fun hh => hh.resolve_right not_condemned_nil⟩, hall _ _, hall _ _,
    hall _ _, hall _ _⟩

theorem doneDrain_of_spares {tails : Nat → Nat → Tails}
    (hspares : ((q.noteDone bad).collect bad).spares = true) :
    q.doneDrain { tails := tails } bad = (q.noteDone bad).collect bad := by
  obtain ⟨n, hdone, hzero⟩ := updateBads_of_spares { tails := tails } 0 hspares
  rw [doneDrain, hdone, hzero fun _ => rfl]
  rfl

/-- The listed hashes, and those that descend from them through `unknown`. -/
def Below (q : BlockQueue) (bad : List H256) : H256 → Prop :=
  Descends (q.unknown.map.map fun e => (e.1, e.2.1)) bad

/-- No block of the three queues has a bad hash or a bad parent, or the hash of a block
below a listed one, and a block of `unknown` with such a hash is below a listed one
itself. -/
structure Harmless (q : BlockQueue) (bad : List H256) : Prop where
  verified : ∀ b ∈ q.verified.queue, ∀ h ∈ [b.info.parentHash, b.info.hash],
    h ∉ q.knownBad ∧ ¬ q.Below bad h
  unverified : ∀ b ∈ q.unverified.queue, ∀ h ∈ [b.parentHash, b.hash],
    h ∉ q.knownBad ∧ ¬ q.Below bad h
  verifying : ∀ b ∈ q.verifying.queue, ∀ h ∈ [b.info.parentHash, b.info.sha3Uncles],
    h ∉ q.knownBad ∧ ¬ q.Below bad h
  finished : ∀ b ∈ q.verifying.queue, ¬ q.Below bad b.heldHash
  unknown : ∀ e ∈ q.unknown.map, q.Below bad e.2.1 → q.Below bad e.1

/-- `harmless` decides it. -/
theorem harmless_noteDone : (q.noteDone bad).harmless bad = true ↔ q.Harmless bad := by
  have hgathered := gathered_collect (q.noteDone bad) bad
  have hbelow : ∀ h, q.Below bad h ↔ h ∈ (q.noteDone bad).condemned bad := fun h =>
    hgathered.descends_iff
  have hknown : ∀ h, h ∉ ((q.noteDone bad).collect bad).knownBad ↔
      h ∉ q.knownBad ∧ ¬ q.Below bad h := by
    intro h
    rw [mem_collect_knownBad, hbelow, condemned, List.mem_append, noteDone, mem_foldl_insert]
    tauto
  have hrest : (∀ e ∈ ((q.noteDone bad).collect bad).unknown.map,
      e.2.1 ∉ (q.noteDone bad).condemned bad) ↔
      ∀ e ∈ q.unknown.map, q.Below bad e.2.1 → q.Below bad e.1 := by
    rw [hgathered.rest_eq]
    simp only [List.mem_filter, decide_eq_true_eq, hbelow]
    constructor
    · intro hall e he hname
      by_contra hkey
      exact hall e ⟨he, hkey⟩ hname
    · rintro hall e ⟨he, hkey⟩ hname
      exact hkey (hall e he hname)
  rw [harmless_iff, spares_iff, hrest]
  simp only [collect_verified, collect_unverified, collect_verifying, hknown, ← hbelow]
  constructor
  · rintro ⟨⟨hverified, hunverified, hverifying⟩, hfinished, hunknown⟩
    refine ⟨?_, ?_, ?_, hfinished, hunknown⟩
    · intro b hb
      simpa using hverified b hb
    · intro b hb
      simpa using hunverified b hb
    · intro b hb
      simpa using hverifying b hb
  · intro hq
    refine ⟨⟨?_, ?_, ?_⟩, hq.finished, hq.unknown⟩
    · intro b hb
      exact ⟨hq.verified b hb _ (by simp), hq.verified b hb _ (by simp)⟩
    · intro b hb
      exact ⟨hq.unverified b hb _ (by simp), hq.unverified b hb _ (by simp)⟩
    · intro b hb
      exact ⟨hq.verifying b hb _ (by simp), hq.verifying b hb _ (by simp)⟩

/-- **`doneDrain` condemns exactly the listed blocks and their descendants, whatever
`std::remove_if` leaves behind, if and only if nothing is listed or the list is
harmless.** -/
theorem condemns_exactly_iff (q : BlockQueue) (bad : List H256) (hsize : q.Sized bad) :
    (∀ tails, q.CondemnsExactly bad (q.doneDrain { tails := tails } bad)) ↔
      bad = [] ∨ q.Harmless bad := by
  rw [← harmless_noteDone]
  have hlisted : ∀ h ∈ bad, h ∈ (q.noteDone bad).knownBad := by
    intro h hh
    rw [noteDone, mem_foldl_insert]
    exact .inl hh
  constructor
  · intro hexact
    obtain ⟨fresh, hunknown, hspared⟩ := hsize.exists_fresh
    refine or_iff_not_imp_left.mpr fun hbad => ?_
    -- A round that removes a block may note the fresh hash.
    have hspares : ((q.noteDone bad).collect bad).spares = true := by
      rcases updateBads_stray (q.noteDone bad) bad fresh 0 with hspares | hstray
      · exact hspares hbad
      · rcases ((hexact fun _ _ => strayTails fresh).knownBad fresh).mp hstray with hh | hh
        · exact absurd hh hunknown
        · exact absurd hh hspared
    have hdone := hexact fun _ _ => strayTails fresh
    rw [doneDrain_of_spares hspares, ← condemnsExactly_noteDone] at hdone
    exact harmless_of_condemnsExactly hspares hlisted hdone
  · rintro (rfl | hharmless)
    · exact fun _ => condemnsExactly_nil q
    · intro tails
      rw [doneDrain_of_spares (harmless_iff.mp hharmless).1, ← condemnsExactly_noteDone]
      exact condemnsExactly_collect hharmless hlisted

/-- Two blocks wait below a listed one, and a third elsewhere. -/
theorem condemns_exactly_below :
    ∃ q : BlockQueue, q.queued = [(1, 2), (2, 3), (7, 8)] ∧
      ∀ tails, q.CondemnsExactly [1] (q.doneDrain { tails := tails } [1]) := by
  refine ⟨{ unknown := { map := [(1, 2, sampleBlock 2 1), (2, 3, sampleBlock 3 2),
    (7, 8, sampleBlock 8 7)] } }, rfl, ?_⟩
  refine (condemns_exactly_iff _ [1] ?_).mpr (.inr (harmless_noteDone.mp (by decide +kernel)))
  exact ⟨by decide +kernel, by decide, by decide, by decide, by decide, by decide⟩

/-- What `std::remove_if` leaves behind the new end when block 2 is removed from in front of
block 3, and block 3 in the next round.  The rounds are counted down. -/
def childTails (round : Nat) : Tails :=
  { strayTails 0 with
    verified := fun _ => ⟨(sampleBlock 3 5).info, if round = 2 then [] else [0]⟩ }

/-- Blocks 1 to 3 come in, of which 2 is the child of 1. -/
def childImports : List Op :=
  [sampleImport [5] 1 5, sampleImport [5] 2 1, sampleImport [5] 3 5] ++ sampleVerify true ++
    sampleVerify true ++ sampleVerify true ++ [.drain 1]

/-- A block is drained and listed while its child and a third block are verified and
ready.  It is the third block that is noted, and the child is not, when the rounds end. -/
theorem child_of_listed_escapes :
    ∃ q tails, system.Reach (fun q op => q.leaves op = true) q ∧
      q.leaves (.doneDrain { tails := tails } [1]) = true ∧
      (q.doneDrain { tails := tails } [1]).spares = true ∧
      ¬ q.CondemnsExactly [1] (q.doneDrain { tails := tails } [1]) := by
  have hstart : system.Reach (fun q op => q.leaves op = true) {} := .init rfl
  obtain ⟨q, hreach, hq⟩ := hstart.exists_of_check childImports
    (p := fun q => q.queued == [(1, 2), (5, 3)] &&
      q.leaves (.doneDrain { tails := fun _ => childTails } [1]) &&
      !(q.doneDrain { tails := fun _ => childTails } [1]).knownBad.contains 2)
    (by decide +kernel) (by decide +kernel)
  simp only [Bool.and_eq_true, beq_iff_eq, Bool.not_eq_true', ExtTreeSet.contains_iff_mem,
    ← Bool.not_eq_true] at hq
  obtain ⟨⟨hqueued, hleaves⟩, hunnoted⟩ := hq
  refine ⟨q, fun _ => childTails, hreach, hleaves, updateBads_spares (List.cons_ne_nil _ _), ?_⟩
  intro hexact
  have hedge : ((1 : H256), (2 : H256)) ∈ q.queued := by
    rw [hqueued]
    exact .head _
  exact hunnoted ((hexact.knownBad 2).mpr (.inr (.child (.root (.head _)) hedge)))

end BlockQueue

end CppSwc
