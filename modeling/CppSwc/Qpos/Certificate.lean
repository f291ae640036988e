import CppSwc.Lib.Run
import CppSwc.Lib.Tree
import CppSwc.Qpos.Quorums
import CppSwc.Qpos.View

/-!
# The certificate of a sealed block

A leader that has more than half of the votes appends `m_idVoted` to the block
and broadcasts it, and an importer counts the signatures that verify for the
header.  The two fit together if every signature in `m_idVoted` is for the block
in `m_blockBytes`.  All handlers keep that except one: `generateSealBegin`
replaces the block and keeps the votes.  A follower that voted and then came to
lead still has the vote of the old leader.
-/

namespace CppSwc

open Lib

namespace Qpos

/-! ## Reading back a certificate -/

/-- The signature list of a sealed block is the map of votes. -/
theorem signList_sealBlock (P : Prims) (self : NodeID) (s : Qpos) :
    signList P (sealBlock P self s) = some s.idVoted.toList := by
  simp [signList, sealBlock, toSigns_map_signItem]

/-- A sealed block has the header of the block under vote. -/
theorem ofBlock_sealBlock {P : Prims} {self : NodeID} {s : Qpos} {header : BlockHeader}
    (h : BlockHeader.ofBlock P s.blockBytes = some header) :
    BlockHeader.ofBlock P (sealBlock P self s) = some header := by
  simp only [BlockHeader.ofBlock, BlockHeader.extractHeader] at h ⊢
  split at h
  · rename_i hlists
    simp only [Bool.and_eq_true] at hlists
    simpa [sealBlock, hlists] using h
  · simp at h

/-! ## The votes are for the block under vote -/

/-- Every signature a node holds verifies for the block under vote, and is that
of a miner or its own. -/
structure Countersigned (P : Prims) (me : NodeID) (s : Qpos) : Prop where
  /-- The signatures verify. -/
  verified : ∀ id sig, s.idVoted[id]? = some sig →
    ∃ header, BlockHeader.ofBlock P s.blockBytes = some header ∧
      P.verify id sig (header.hashWithoutSeal P) = true
  /-- The signers are miners or the node itself. -/
  signer : ∀ id sig, s.idVoted[id]? = some sig → id ∈ s.miners ∨ id = me

/-- The input does not put a block to the vote while the node holds the vote of
another node. -/
def FreshBallot (P : Prims) (self : NodeID) (s : Qpos) : Input → Prop
  | .tick _ => s.aborted = false → (s.proposal P).isSome = true →
      ∀ e ∈ s.idVoted.toList, e.1 = self
  | _ => True

instance (P : Prims) (self : NodeID) (s : Qpos) :
    (input : Input) → Decidable (s.FreshBallot P self input)
  | .tick _ =>
      haveI : Decidable (∀ e ∈ s.idVoted.toList, e.1 = self) := List.decidableBAll _ _
      inferInstanceAs (Decidable (_ → _ → ∀ e ∈ s.idVoted.toList, e.1 = self))
  | .interpret _ _ _ _ => .isTrue trivial
  | .reportBlock _ _ => .isTrue trivial
  | .reportBlockSelf _ => .isTrue trivial
  | .generateSeal _ => .isTrue trivial
  | .getMinerList _ => .isTrue trivial

/-- Whether a block decodes and passes `checkBlockSign` against the miners. -/
def certified (P : Prims) (miners : NodeSet) (block : Rlp) : Bool :=
  (BlockHeader.ofBlock P block).any fun header => checkBlockSign P miners header block

/-- The blocks passed to `broadBlock`. -/
def broadBlocks (out : List Effect) : List Rlp :=
  out.filterMap fun
    | .broadcast (.broadBlock block) => some block
    | _ => none

/-- Every block that is broadcast passes the certificate check. -/
def Certifies (P : Prims) (miners : NodeSet) (out : List Effect) : Prop :=
  ∀ block ∈ broadBlocks out, certified P miners block = true

@[simp] theorem broadBlocks_nil : broadBlocks [] = [] := rfl

@[simp] theorem broadBlocks_append (out out' : List Effect) :
    broadBlocks (out ++ out') = broadBlocks out ++ broadBlocks out' := by
  simp [broadBlocks]

section Countersigned

variable {P : Prims} {self src : NodeID} {now : Int} {s t : Qpos}

theorem Countersigned.congr (h : s.Countersigned P self) (hv : t.idVoted = s.idVoted)
    (hb : t.blockBytes = s.blockBytes) (hm : t.miners = s.miners) : t.Countersigned P self := by
  constructor
  · rw [hv, hb]
    exact h.verified
  · rw [hv, hm]
    exact h.signer

theorem Certifies.of_no_broadcast {miners : NodeSet} {out : List Effect}
    (h : ∀ packet, Effect.broadcast packet ∉ out) : Certifies P miners out := by
  intro block hblock
  obtain ⟨e, he, heq⟩ := List.mem_filterMap.mp hblock
  split at heq
  · exact absurd he (h _)
  · cases heq

theorem Countersigned.of_empty (h : s.idVoted = ∅) : s.Countersigned P self := by
  constructor <;> simp [h]

/-- A vote that verifies for the block under vote may be added. -/
theorem Countersigned.insert (h : s.Countersigned P self) {header : BlockHeader}
    {id : NodeID} {sig : Signature} (hb : BlockHeader.ofBlock P s.blockBytes = some header)
    (hsig : P.verify id sig (header.hashWithoutSeal P) = true)
    (hid : id ∈ s.miners ∨ id = self) :
    { s with idVoted := s.idVoted.insert id sig }.Countersigned P self := by
  constructor
  · intro id' sig' hget
    dsimp only at hget
    rw [getElem?_insert_eq] at hget
    split at hget
    · rename_i heq
      cases hget
      exact ⟨header, hb, heq ▸ hsig⟩
    · exact h.verified id' sig' hget
  · intro id' sig' hget
    dsimp only at hget
    rw [getElem?_insert_eq] at hget
    split at hget
    · rename_i heq
      exact heq ▸ hid
    · exact h.signer id' sig' hget

theorem broadBlock_countersigned (h : s.Countersigned P self) (block : Rlp) :
    (s.broadBlock block).1.Countersigned P self := by
  simp only [broadBlock]
  split <;> exact h.congr rfl rfl rfl

theorem voteBlockEnd_countersigned (h : s.Countersigned P self) :
    (s.voteBlockEnd P self now).1.Countersigned P self := by
  simp only [voteBlockEnd]
  split
  · exact .of_empty rfl
  · split
    · split
      · exact h
      · exact broadBlock_countersigned h _
    · exact h

/-- A sealed block whose signatures all verify passes the check, since the leader
asks for more than half of the miners and the importer for half. -/
theorem checkBlockSign_sealBlock (h : s.Countersigned P self) (hself : self ∈ s.miners)
    {header : BlockHeader} (hb : BlockHeader.ofBlock P s.blockBytes = some header)
    (hcount : s.nodeCount / 2 < s.idVoted.size) :
    checkBlockSign P s.miners header (sealBlock P self s) = true := by
  by_cases hminers : s.miners.size = 0
  · rw [checkBlockSign, if_pos hminers]
  · have hsigners : s.idVoted.keys.toFinset ⊆
        validSigners P s.miners (header.hashWithoutSeal P) s.idVoted.toList := by
      intro id hid
      have hmem := Std.ExtTreeMap.mem_keys.mp (List.mem_toFinset.mp hid)
      have hget : s.idVoted[id]? = some s.idVoted[id] := Std.ExtTreeMap.getElem?_eq_some_getElem hmem
      obtain ⟨header', hb', hverify⟩ := h.verified _ _ hget
      rw [hb] at hb'
      cases hb'
      refine mem_validSigners.mpr
        ⟨_, Std.ExtTreeMap.mem_toList_iff_getElem?_eq_some.mpr hget, rfl, ?_, hverify⟩
      rcases h.signer _ _ hget with hmem | heq
      · exact hmem
      · exact heq ▸ hself
    have hcard := Finset.card_le_card hsigners
    rw [card_keys] at hcard
    rw [checkBlockSign_iff P (by omega) rfl (le_refl 4) (signList_sealBlock P self s)]
    simp only [nodeCount] at hcount
    omega

theorem voteBlockEnd_certifies (h : s.Countersigned P self) (hself : self ∈ s.miners) :
    Certifies P s.miners (s.voteBlockEnd P self now).2 := by
  have hcount : s.nodeCount ≠ 0 := by
    intro hzero
    have hempty := Std.ExtTreeSet.eq_empty_iff_size_eq_zero.mpr hzero
    rw [hempty] at hself
    exact Std.ExtTreeSet.not_mem_empty hself
  intro block hblock
  simp only [voteBlockEnd] at hblock
  split at hblock
  · simp at hblock
  · split at hblock
    · rename_i hvotes
      split at hblock
      · simp at hblock
      · rename_i header hb
        have heq : block = sealBlock P self s := by
          simp only [broadBlock] at hblock
          split at hblock
          · simpa [broadBlocks, sealBlock, Rlp.isNull] using hblock
          · simp at hblock
        rw [heq, certified, ofBlock_sealBlock hb, Option.any_some]
        exact checkBlockSign_sealBlock h hself hb (hvotes.resolve_left hcount)
    · simp at hblock

/-- A node that starts a vote without the votes of others holds its own signature
of the block only. -/
theorem countersigned_begin (hsign : ∀ hash, P.verify self (P.sign self hash) hash = true)
    (hfresh : ∀ e ∈ s.idVoted.toList, e.1 = self) {header : BlockHeader}
    (hb : BlockHeader.ofBlock P s.blockBytes = some header) :
    { s with idVoted := s.idVoted.insert self (P.sign self (header.hashWithoutSeal P)) }.Countersigned
      P self := by
  have hself : ∀ id sig, (s.idVoted.insert self
      (P.sign self (header.hashWithoutSeal P)))[id]? = some sig →
      id = self ∧ sig = P.sign self (header.hashWithoutSeal P) := by
    intro id sig hget
    rw [getElem?_insert_eq] at hget
    split at hget
    · rename_i heq
      cases hget
      exact ⟨heq.symm, rfl⟩
    · rename_i hne
      have hmem := Std.ExtTreeMap.mem_toList_iff_getElem?_eq_some.mpr hget
      exact absurd (hfresh _ hmem).symm hne
  constructor
  · intro id sig hget
    obtain ⟨rfl, rfl⟩ := hself id sig hget
    exact ⟨header, hb, hsign _⟩
  · intro id sig hget
    exact Or.inr (hself id sig hget).1

theorem voteBlockBegin_countersigned (now : Int)
    (hsign : ∀ hash, P.verify self (P.sign self hash) hash = true)
    (hfresh : ∀ e ∈ s.idVoted.toList, e.1 = self) {header : BlockHeader}
    (hb : BlockHeader.ofBlock P s.blockBytes = some header) :
    (s.voteBlockBegin P self now).1.Countersigned P self ∧
      (self ∈ s.miners → Certifies P s.miners (s.voteBlockBegin P self now).2) := by
  have hbegin := countersigned_begin hsign hfresh hb
  simp only [voteBlockBegin]
  rw [hb]
  dsimp only
  split
  · refine ⟨voteBlockEnd_countersigned (hbegin.congr rfl rfl rfl), ?_⟩
    intro hself block hblock
    exact voteBlockEnd_certifies (hbegin.congr (t := { s with
      idVoted := s.idVoted.insert self (P.sign self (header.hashWithoutSeal P))
      consensusTimeOut := now + consensusTimeInterval
      consensusState := .waitingVote }) rfl rfl rfl) hself block hblock
  · refine ⟨hbegin.congr rfl rfl rfl, ?_⟩
    intro _ block hblock
    simp [broadBlocks] at hblock

theorem onBlockVote_countersigned
    (hsign : ∀ hash, P.verify self (P.sign self hash) hash = true)
    (h : s.Countersigned P self) (hsrc : src ∈ s.miners) (view : UInt32) (sig : Signature)
    (block : Rlp) : (s.onBlockVote P self now src view sig block).1.Countersigned P self := by
  simp only [onBlockVote]
  split
  · exact h
  · rename_i header hb
    dsimp only
    split
    · rename_i hvote
      have hverify : P.verify src sig (header.hashWithoutSeal P) = true := by
        simp only [accepts, Bool.and_eq_true] at hvote
        exact hvote.1.1
      have hempty : { s with idVoted := ∅, blockBytes := block }.Countersigned P self :=
        .of_empty rfl
      have hboth := (hempty.insert hb hverify (.inl hsrc)).insert hb (hsign _) (.inr rfl)
      exact hboth.congr rfl rfl rfl
    · exact h.congr rfl rfl rfl

theorem onBlockVoteAck_countersigned (h : s.Countersigned P self) (hsrc : src ∈ s.miners)
    (vote : Bool) (view : UInt32) (sig : Signature) :
    (s.onBlockVoteAck P self now src vote view sig).1.Countersigned P self ∧
      (self ∈ s.miners → Certifies P s.miners (s.onBlockVoteAck P self now src vote view sig).2) := by
  unfold onBlockVoteAck
  split
  · exact ⟨h, fun _ _ hblock => by simp at hblock⟩
  · split
    · exact ⟨h, fun _ _ hblock => by simp at hblock⟩
    · rename_i header hb
      split
      · exact ⟨h, fun _ _ hblock => by simp at hblock⟩
      · rename_i hok
        have hverify : P.verify src sig (header.hashWithoutSeal P) = true := by
          simp only [not_or, Bool.not_eq_true, Bool.not_eq_false'] at hok
          exact hok.1
        dsimp only
        split
        · have hadd := h.insert hb hverify (.inl hsrc)
          exact ⟨voteBlockEnd_countersigned hadd, fun hself => voteBlockEnd_certifies hadd hself⟩
        · have hadd : { s with idUnVoted := s.idUnVoted.insert src }.Countersigned P self :=
            h.congr rfl rfl rfl
          exact ⟨voteBlockEnd_countersigned hadd, fun hself => voteBlockEnd_certifies hadd hself⟩

theorem tick_countersigned (hsign : ∀ hash, P.verify self (P.sign self hash) hash = true)
    (h : s.Countersigned P self)
    (hfresh : (s.proposal P).isSome = true → ∀ e ∈ s.idVoted.toList, e.1 = self) :
    (s.tick P self now).1.Countersigned P self ∧
      (self ∈ s.miners → Certifies P s.miners (s.tick P self now).2) := by
  obtain ⟨t, v, w, hs⟩ := voteTick_state now s
  have hv : (s.voteTick now).1.Countersigned P self := by
    rw [hs]
    exact h.congr rfl rfl rfl
  have hheart : broadBlocks (s.voteTick now).2 = [] := by
    simp only [voteTick]
    split
    · rfl
    · split <;> rfl
  have hnone : Certifies P s.miners (s.voteTick now).2 := by
    intro block hblock
    rw [hheart] at hblock
    cases hblock
  have hcase : TickCase P self now (s.voteTick now) (s.tick P self now) := tick_cases
  generalize s.tick P self now = r at hcase
  cases hcase with
  | idle => exact ⟨hv, fun _ => hnone⟩
  | drop _ => exact ⟨hv.congr rfl rfl rfl, fun _ => hnone⟩
  | reset _ _ => exact ⟨.of_empty rfl, fun _ => hnone⟩
  | propose block blocks header hleader hstate hblocks hheader hnumber =>
      have hprop := proposal_of_voteTick hleader hstate hblocks hheader hnumber
      have hvotes : ∀ e ∈ (s.voteTick now).1.idVoted.toList, e.1 = self := by
        rw [hs]
        exact hfresh (by rw [hprop]; rfl)
      have hminers : (s.voteTick now).1.miners = s.miners := by rw [hs]
      obtain ⟨hinv, hcert⟩ := voteBlockBegin_countersigned now
        (s := { (s.voteTick now).1 with blocks := blocks, blockBytes := block })
        hsign hvotes hheader
      refine ⟨hinv, ?_⟩
      rw [← hminers]
      intro hself block' hblock'
      rw [broadBlocks_append, hheart, List.nil_append] at hblock'
      exact hcert hself block' hblock'

/-- One input keeps the votes fitting the block, and what it broadcasts is
certified. -/
theorem countersigned_handle (hsign : ∀ hash, P.verify self (P.sign self hash) hash = true)
    (h : s.Countersigned P self) {input : Input} (hfresh : s.FreshBallot P self input) :
    (s.handle P self input).1.Countersigned P self ∧
      (self ∈ s.miners → Certifies P s.miners (s.handle P self input).2) := by
  have hcase := ballotCase_handle P self s input
  generalize s.handle P self input = r at hcase
  cases hcase with
  | keep hballot hminers hout =>
      refine ⟨?_, fun _ => .of_no_broadcast hout⟩
      exact h.congr (congrArg Ballot.idVoted hballot) (congrArg Ballot.blockBytes hballot) hminers
  | reset => exact ⟨.of_empty rfl, fun _ => .of_no_broadcast (by simp)⟩
  | tick hinput hab =>
      subst hinput
      exact tick_countersigned hsign h (hfresh hab)
  | blockVote hinput hab hsrc =>
      refine ⟨onBlockVote_countersigned hsign h hsrc _ _ _, fun _ => .of_no_broadcast ?_⟩
      intro packet hmem
      simp only [onBlockVote] at hmem
      split at hmem <;> simp [send] at hmem
  | blockVoteAck hinput hab hsrc => exact onBlockVoteAck_countersigned h hsrc _ _ _

end Countersigned

/-! ## Runs -/

/-- The runs of one node, whatever its peers send. -/
def system (P : Prims) (self : NodeID) (miners : NodeSet) : System Qpos Input where
  init s := s = start miners
  step s input := some (s.step P self input)

/-- **Along every run in which no block is put to the vote while the node holds
the vote of another, all votes it holds are for the block under vote, and every
block it broadcasts as one of the miners passes `checkBlockSign` at a node with
the same miners.** -/
theorem sealed_blocks_certified (P : Prims) (self : NodeID) (miners : NodeSet)
    (hsign : ∀ hash, P.verify self (P.sign self hash) hash = true) {s : Qpos}
    (h : (system P self miners).Reach (FreshBallot P self) s) :
    (∀ id sig, s.idVoted[id]? = some sig →
      ∃ header, BlockHeader.ofBlock P s.blockBytes = some header ∧
        P.verify id sig (header.hashWithoutSeal P) = true) ∧
      ∀ input, s.FreshBallot P self input → self ∈ s.miners →
        Certifies P s.miners (s.handle P self input).2 := by
  have hinv : s.Countersigned P self := by
    refine System.Reach.invariant ?_ ?_ h
    · intro s hs
      exact hs ▸ Countersigned.of_empty rfl
    · intro s input s' _ hs hok hstep
      cases hstep
      exact (countersigned_handle hsign hs hok).1
  exact ⟨hinv.verified, fun input hok => (countersigned_handle hsign hinv hok).2⟩

/-- The state after a list of inputs is reachable if every input meets `ok`. -/
theorem reach_foldl {P : Prims} {self : NodeID} {miners : NodeSet} {ok : Qpos → Input → Prop}
    [∀ s input, Decidable (ok s input)] {inputs : List Input}
    (h : (system P self miners).check ok (start miners) inputs = true) :
    (system P self miners).Reach ok (inputs.foldl (step P self) (start miners)) :=
  .of_check (.init rfl) h (System.exec_of_total (fun _ _ => rfl) inputs _)

/-- Node 1 of three is elected and puts block 1 to the vote. -/
def electedRun : List Input :=
  [.reportBlockSelf 0, .tick 20000000, .interpret 2 (.voteAck true) 20000001 0,
    .generateSeal (.sampleBlock 1 5), .tick 20000002]

/-- The yes of node 2 then makes node 1 broadcast a certified block. -/
theorem sealed_blocks_certified_elected :
    let miners : NodeSet := Std.ExtTreeSet.ofList [(1 : NodeID), 2, 3]
    let s := electedRun.foldl (step Prims.sample 1) (start miners)
    let sig := Prims.sample.sign 2 ((BlockHeader.sample 1 5).hashWithoutSeal Prims.sample)
    let out := (s.handle Prims.sample 1 (.interpret 2 (.blockVoteAck true 1 sig 1) 20000003 0)).2
    (broadBlocks out).length = 1 ∧ Certifies Prims.sample s.miners out := by
  intro miners s sig out
  have hsign : ∀ hash, Prims.sample.verify 1 (Prims.sample.sign 1 hash) hash = true := by
    intro hash
    have hone : ((1 : NodeID) != 0) = true := by decide +kernel
    simp only [Prims.sample, hone, beq_self_eq_true, Bool.and_self]
  have hreach : (system Prims.sample 1 miners).Reach (FreshBallot Prims.sample 1) s :=
    reach_foldl (by decide +kernel)
  refine ⟨by decide +kernel, ?_⟩
  exact (sealed_blocks_certified Prims.sample 1 miners hsign hreach).2 _ trivial (by decide +kernel)

/-- Node 2 of five votes for block 1 of leader 1, is elected after a timeout and
puts its own block 1 to the vote.  The vote of node 1 for the old block is still
in `m_idVoted`, so one yes from node 3 completes the count of three, and the block
that goes out has two valid signatures where an importer asks for three. -/
theorem stale_vote_is_sealed :
    let miners : NodeSet := Std.ExtTreeSet.ofList [(1 : NodeID), 2, 3, 4, 5]
    let sign := fun id timestamp =>
      Prims.sample.sign id ((BlockHeader.sample 1 timestamp).hashWithoutSeal Prims.sample)
    let inputs : List Input :=
      [.reportBlockSelf 0, .interpret 1 (.vote 1 0) 1 0,
        .interpret 1 (.blockVote 1 (sign 1 5) (.sampleBlock 1 5)) 2 0, .tick 20000000,
        .interpret 3 (.voteAck true) 20000001 0, .interpret 4 (.voteAck true) 20000002 0,
        .generateSeal (.sampleBlock 1 6), .tick 20000003]
    let s := inputs.foldl (step Prims.sample 2) (start miners)
    let out := (s.handle Prims.sample 2
      (.interpret 3 (.blockVoteAck true 2 (sign 3 6) 2) 20000004 0)).2
    2 ∈ s.miners ∧ s.idVoted[(1 : NodeID)]? = some (sign 1 5) ∧
      (BlockHeader.ofBlock Prims.sample s.blockBytes).any (fun header =>
        Prims.sample.verify 1 (sign 1 5) (header.hashWithoutSeal Prims.sample)) = false ∧
      (broadBlocks out).map (certified Prims.sample s.miners) = [false] := by
  decide +kernel

end Qpos

end CppSwc
