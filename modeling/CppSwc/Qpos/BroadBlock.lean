import CppSwc.Qpos.View

/-!
# Broadcast blocks and the vote gate

`m_blockNumber` gates every vote: a proposal gets a yes only if its number is the
next one.  `onBroadBlock` raises `m_blockNumber` to the number of any block a
miner broadcasts, before and whatever the certificate check says.
-/

namespace CppSwc

namespace Qpos

/-- Whether the node answers the proposal with yes. -/
def votesYes (P : Prims) (s : Qpos) (src : NodeID) (view : UInt32) (sig : Signature)
    (block : Rlp) : Bool :=
  !s.aborted && s.miners.contains src &&
    (BlockHeader.ofBlock P block).any (s.accepts P src view sig)

/-- A miner broadcasts a block with a number above that of the node. -/
def Overtaken (P : Prims) (s : Qpos) (src : NodeID) (block : Rlp) : Prop :=
  s.aborted = false ∧ src ∈ s.miners ∧
    ∃ header, BlockHeader.ofBlock P block = some header ∧ s.blockNumber < header.number

variable {P : Prims} {self src : NodeID} {s : Qpos}

/-- A block that does not overtake the node leaves its state alone. -/
theorem step_broadBlock_of_not_overtaken {block : Rlp} (now : Int) (rand : Nat)
    (h : ¬ s.Overtaken P src block) :
    s.step P self (.interpret src (.broadBlock block) now rand) = s := by
  simp only [step, handle]
  cases hab : s.aborted with
  | true => rfl
  | false =>
      unfold interpret onBroadBlock
      by_cases hsrc : src ∈ s.miners
      · cases hblock : BlockHeader.ofBlock P block with
        | none => simp [hsrc, hblock]
        | some header =>
            have hle : ¬ s.blockNumber < header.number := by
              intro hlt
              exact h ⟨hab, hsrc, header, hblock, hlt⟩
            simp [hsrc, hblock, hle]
      · simp [hsrc]

/-- A block that overtakes the node sets its block number. -/
theorem step_broadBlock_of_overtaken {block : Rlp} (self : NodeID) (now : Int) (rand : Nat)
    (h : s.Overtaken P src block) :
    s.blockNumber < (s.step P self (.interpret src (.broadBlock block) now rand)).blockNumber := by
  obtain ⟨hab, hsrc, header, hblock, hlt⟩ := h
  simp [step, handle, hab, interpret, hsrc, onBroadBlock, hblock, hlt]

/-- **A broadcast block leaves the block number and the answer to every proposal
as they were exactly if its number is not above that of the node.**  Whether the
block is certified plays no part. -/
theorem broadBlock_keeps_votes_iff (P : Prims) (self : NodeID) (s : Qpos) (src : NodeID)
    (block : Rlp) (now : Int) (rand : Nat) :
    ((s.step P self (.interpret src (.broadBlock block) now rand)).blockNumber = s.blockNumber ∧
      ∀ src' view sig block',
        (s.step P self (.interpret src (.broadBlock block) now rand)).votesYes P src' view sig
          block' = s.votesYes P src' view sig block') ↔
      ¬ s.Overtaken P src block := by
  constructor
  · rintro ⟨hnumber, -⟩ h
    have hlt := step_broadBlock_of_overtaken self now rand h
    exact Nat.ne_of_gt hlt hnumber
  · intro h
    rw [step_broadBlock_of_not_overtaken now rand h]
    exact ⟨rfl, fun _ _ _ _ => rfl⟩

/-- A node of three that has just reported its chain head gets an unsigned block
with number 7 from miner 2.  The block fails the certificate check, and the node
then refuses the proposal for block 1 it would have voted for. -/
theorem uncertified_broadBlock_stalls_votes :
    let miners : NodeSet := Std.ExtTreeSet.ofList [(1 : NodeID), 2, 3]
    let s := (start miners).step Prims.sample 1 (.reportBlockSelf 0)
    let s' := s.step Prims.sample 1 (.interpret 2 (.broadBlock (.sampleBlock 7 0)) 1 0)
    let proposal := Rlp.sampleBlock 1 5
    let sig := Prims.sample.sign 3 ((BlockHeader.sample 1 5).hashWithoutSeal Prims.sample)
    checkBlockSign Prims.sample miners (BlockHeader.sample 7 0) (.sampleBlock 7 0) = false ∧
      s.blockNumber = 0 ∧ s'.blockNumber = 7 ∧
      s.votesYes Prims.sample 3 0 sig proposal = true ∧
      s'.votesYes Prims.sample 3 0 sig proposal = false := by
  decide +kernel

end Qpos

end CppSwc
