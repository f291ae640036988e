import CppSwc.Qpos.Handlers

/-!
# What the handlers leave alone

The fields of a node fall in two groups.  The *office* of a node is its view, its
role, the votes for it, its block numbers and its miner list.  The *ballot* is the
block under vote with the votes for and against it.  The handlers of the ballot
do not touch the office, and `tick` changes the office only through `voteTick`.
All inputs but three leave the ballot alone or reset it.
-/

namespace CppSwc

namespace Qpos

/-- The fields of a node that block voting leaves alone. -/
structure Office where
  currentView : Nat
  isLeader : Bool
  voted : NodeSet
  blockNumber : Nat
  blockNumberRecv : Nat
  blockReport : Nat
  miners : NodeSet
  nodes : NodeSet
  nodesChanged : Bool

/-- The office of a node. -/
def office (s : Qpos) : Office :=
  { currentView := s.currentView, isLeader := s.isLeader, voted := s.voted
    blockNumber := s.blockNumber, blockNumberRecv := s.blockNumberRecv
    blockReport := s.blockReport, miners := s.miners, nodes := s.nodes
    nodesChanged := s.nodesChanged }

variable {P : Prims} {self src : NodeID} {now : Int} {s : Qpos}

@[simp] theorem resetConfig_office : (s.resetConfig now).office = s.office := rfl

@[simp] theorem broadBlock_office (block : Rlp) : (s.broadBlock block).1.office = s.office := by
  simp only [broadBlock]
  split <;> rfl

@[simp] theorem voteBlockEnd_office : (s.voteBlockEnd P self now).1.office = s.office := by
  simp only [voteBlockEnd]
  split
  · rfl
  · split
    · split
      · rfl
      · exact broadBlock_office _
    · rfl

@[simp] theorem voteBlockBegin_office : (s.voteBlockBegin P self now).1.office = s.office := by
  unfold voteBlockBegin
  split
  · rfl
  · dsimp only
    split
    · exact voteBlockEnd_office
    · rfl

@[simp] theorem generateSealBegin_office (block : Rlp) :
    (s.generateSealBegin P self now block).1.office = s.office := by
  simp only [generateSealBegin]
  split
  · rfl
  · split
    · rfl
    · exact voteBlockBegin_office

@[simp] theorem onBlockVote_office (view : UInt32) (sig : Signature) (block : Rlp) :
    (s.onBlockVote P self now src view sig block).1.office = s.office := by
  simp only [onBlockVote]
  split
  · rfl
  · dsimp only
    split <;> rfl

@[simp] theorem onBlockVoteAck_office (vote : Bool) (view : UInt32) (sig : Signature) :
    (s.onBlockVoteAck P self now src vote view sig).1.office = s.office := by
  unfold onBlockVoteAck
  split
  · rfl
  · split
    · rfl
    · split
      · rfl
      · dsimp only
        rw [voteBlockEnd_office]
        split <;> rfl

/-! ## The branches of `tick` -/

/-- `voteTick` changes the view, the votes for the node and its timer. -/
theorem voteTick_state (now : Int) (s : Qpos) : ∃ t v w,
    (s.voteTick now).1 = { s with voteTimeOut := t, currentView := v, voted := w } := by
  simp only [voteTick]
  split
  · exact ⟨_, _, _, rfl⟩
  · split
    · exact ⟨_, _, _, rfl⟩
    · exact ⟨_, _, _, rfl⟩

/-- The header of the block that the next `tick` puts to the vote, if it does. -/
def proposal (P : Prims) (s : Qpos) : Option BlockHeader :=
  if s.isLeader && s.consensusState == .initial then
    s.blocks.head?.bind fun block =>
      (BlockHeader.ofBlock P block).filter (s.blockNumber + 1 == ·.number)
  else
    none

/-- What `tick` makes of the outcome `v` of `voteTick`: nothing, drop a block,
give up the round, or put the next block of the queue to the vote. -/
inductive TickCase (P : Prims) (self : NodeID) (now : Int) (v : Qpos × List Effect) :
    Qpos × List Effect → Prop where
  | idle : TickCase P self now v v
  | drop (blocks : List Rlp) : TickCase P self now v ({ v.1 with blocks := blocks }, v.2)
  | reset : v.1.isLeader = true → v.1.consensusState ≠ .initial →
      TickCase P self now v (v.1.resetConfig now, v.2)
  | propose (block : Rlp) (blocks : List Rlp) (header : BlockHeader) :
      v.1.isLeader = true → v.1.consensusState = .initial → v.1.blocks = block :: blocks →
      BlockHeader.ofBlock P block = some header → v.1.blockNumber + 1 = header.number →
      TickCase P self now v
        (({ v.1 with blocks := blocks, blockBytes := block }.voteBlockBegin P self now).1,
          v.2 ++ ({ v.1 with blocks := blocks, blockBytes := block }.voteBlockBegin P self now).2)

/-- Every `tick` takes one of these branches. -/
theorem tick_cases : TickCase P self now (s.voteTick now) (s.tick P self now) := by
  simp only [tick]
  cases s.voteTick now with
  | mk s heart =>
      dsimp only
      split
      · exact .idle
      · rename_i hleader
        have hleader : s.isLeader = true := by simpa using hleader
        split
        · rename_i hstate
          split
          · exact .idle
          · rename_i block blocks hblocks
            split
            · exact .drop blocks
            · simp only [generateSealBegin]
              split
              · simpa using TickCase.drop (v := (s, heart)) blocks
              · rename_i header hheader
                split
                · simpa using TickCase.drop (v := (s, heart)) blocks
                · rename_i hnumber
                  exact .propose block blocks header hleader hstate hblocks hheader
                    (by simpa using hnumber)
        · rename_i hstate
          split
          · exact .reset hleader hstate
          · exact .idle

/-- In the branch that puts a block to the vote, it is the proposal of the state. -/
theorem proposal_of_voteTick {block : Rlp} {blocks : List Rlp} {header : BlockHeader}
    (hleader : (s.voteTick now).1.isLeader = true)
    (hstate : (s.voteTick now).1.consensusState = .initial)
    (hblocks : (s.voteTick now).1.blocks = block :: blocks)
    (hheader : BlockHeader.ofBlock P block = some header)
    (hnumber : (s.voteTick now).1.blockNumber + 1 = header.number) :
    s.proposal P = some header := by
  obtain ⟨t, v, w, hs⟩ := voteTick_state now s
  rw [hs] at hleader hstate hblocks hnumber
  dsimp only at hleader hstate hblocks hnumber
  simp [proposal, hleader, hstate, hblocks, hheader, hnumber]

/-- If the state has a proposal, `tick` puts it to the vote. -/
theorem tick_of_proposal (self : NodeID) (now : Int) {header : BlockHeader} (h : s.proposal P = some header) :
    ∃ block blocks, BlockHeader.ofBlock P block = some header ∧
      s.tick P self now =
        (({ (s.voteTick now).1 with blocks := blocks, blockBytes := block }.voteBlockBegin
            P self now).1,
          (s.voteTick now).2 ++ ({ (s.voteTick now).1 with
            blocks := blocks, blockBytes := block }.voteBlockBegin P self now).2) := by
  simp only [proposal] at h
  split at h
  · rename_i hstart
    rw [Bool.and_eq_true, beq_iff_eq] at hstart
    obtain ⟨block, hblock, hfilter⟩ := Option.bind_eq_some_iff.mp h
    obtain ⟨hheader, hnumber⟩ := Option.filter_eq_some_iff.mp hfilter
    rw [beq_iff_eq] at hnumber
    obtain ⟨blocks, hblocks⟩ := List.head?_eq_some_iff.mp hblock
    have hnull : block.isNull = false := by
      cases block with
      | null => cases hheader
      | data bytes => rfl
      | list items => rfl
    refine ⟨block, blocks, hheader, ?_⟩
    obtain ⟨t, v, u, hs⟩ := voteTick_state now s
    have hfields : (s.voteTick now).1.isLeader = true ∧
        (s.voteTick now).1.consensusState = .initial ∧
        (s.voteTick now).1.blocks = block :: blocks ∧
        (s.voteTick now).1.blockNumber + 1 = header.number := by
      rw [hs]
      exact ⟨hstart.1, hstart.2, hblocks, hnumber⟩
    simp only [tick]
    generalize s.voteTick now = r at hfields
    obtain ⟨hlead, hinit, hqueue, hnext⟩ := hfields
    simp [hlead, hinit, hqueue, hnull, generateSealBegin, hheader, hnext]
  · cases h

@[simp] theorem tick_office : (s.tick P self now).1.office = (s.voteTick now).1.office := by
  have h : TickCase P self now (s.voteTick now) (s.tick P self now) := tick_cases
  generalize s.tick P self now = r at h
  generalize s.voteTick now = v at h
  cases h with
  | idle => rfl
  | drop _ => rfl
  | reset _ _ => rfl
  | propose block blocks header _ _ _ _ _ => exact voteBlockBegin_office

/-! ## What an input does to the ballot -/

/-- The block under vote and the votes. -/
structure Ballot where
  blockBytes : Rlp
  idVoted : SignMap
  idUnVoted : NodeSet
  consensusState : QposState

/-- The ballot of a node. -/
def ballot (s : Qpos) : Ballot :=
  { blockBytes := s.blockBytes, idVoted := s.idVoted, idUnVoted := s.idUnVoted
    consensusState := s.consensusState }

/-- What an input does: it leaves the ballot alone, starts a new round, or is one
of the three that vote. -/
inductive BallotCase (P : Prims) (me : NodeID) (s : Qpos) (input : Input) :
    Qpos × List Effect → Prop where
  | keep {t : Qpos} {out : List Effect} : t.ballot = s.ballot → t.miners = s.miners →
      (∀ packet, Effect.broadcast packet ∉ out) → BallotCase P me s input (t, out)
  | reset {t : Qpos} {now : Int} : BallotCase P me s input (t.resetConfig now, [])
  | tick {now : Int} : input = .tick now → s.aborted = false →
      BallotCase P me s input (s.tick P me now)
  | blockVote {src : NodeID} {view : UInt32} {sig : Signature} {block : Rlp} {now : Int}
      {rand : Nat} : input = .interpret src (.blockVote view sig block) now rand →
      s.aborted = false → src ∈ s.miners →
      BallotCase P me s input (s.onBlockVote P me now src view sig block)
  | blockVoteAck {src idrecv : NodeID} {vote : Bool} {view : UInt32} {sig : Signature}
      {now : Int} {rand : Nat} :
      input = .interpret src (.blockVoteAck vote view sig idrecv) now rand →
      s.aborted = false → src ∈ s.miners →
      BallotCase P me s input (s.onBlockVoteAck P me now src vote view sig)

theorem ballotCase_interpret {packet : QposPacket} {rand : Nat} (hab : s.aborted = false)
    (hsrc : src ∈ s.miners) :
    BallotCase P self s (.interpret src packet now rand)
      (s.interpret P self src packet now rand) := by
  simp only [interpret, hsrc, not_true_eq_false, if_false]
  cases packet with
  | blockVote view sig block => exact .blockVote rfl hab hsrc
  | blockVoteAck vote view sig idrecv => exact .blockVoteAck rfl hab hsrc
  | vote view number =>
      dsimp only
      simp only [onVote]
      split <;> exact .keep rfl rfl (by simp [send])
  | voteAck vote =>
      dsimp only
      unfold onVoteAck
      split
      · exact .keep rfl rfl (by simp)
      · refine .keep ?_ ?_ (by simp)
        · dsimp only
          split <;> rfl
        · dsimp only
          split <;> rfl
  | heart view => exact .keep rfl rfl (by simp)
  | broadBlock block =>
      dsimp only
      simp only [onBroadBlock]
      split
      · exact .keep rfl rfl (by simp)
      · refine .keep ?_ ?_ (by simp)
        · split <;> rfl
        · split <;> rfl

/-- Every input does one of these. -/
theorem ballotCase_handle (P : Prims) (self : NodeID) (s : Qpos) (input : Input) :
    BallotCase P self s input (s.handle P self input) := by
  simp only [handle]
  cases hab : s.aborted with
  | true => exact .keep rfl rfl (by simp)
  | false =>
      simp only [Bool.false_eq_true, if_false]
      cases input with
      | tick now => exact .tick rfl hab
      | interpret src packet now rand =>
          by_cases hsrc : src ∈ s.miners
          · exact ballotCase_interpret hab hsrc
          · simp only [interpret, hsrc, not_false_eq_true, if_true]
            exact .keep rfl rfl (by simp)
      | reportBlock number force =>
          dsimp only
          simp only [reportBlock]
          split <;> exact .keep rfl rfl (by simp)
      | reportBlockSelf now => exact .reset
      | generateSeal block => exact .keep rfl rfl (by simp)
      | getMinerList nodes => exact .keep rfl rfl (by simp)

end Qpos

end CppSwc
