import CppSwc.Qpos.World

/-!
# What a signature stands for

`onBlockVote` signs the header of every proposal it answers, whether it votes for
it or not, and `onBlockVoteAck` checks the signature of both answers.  So a
signature alone is not a yes.  It is one where the protocol keeps signatures:
whatever a node holds in `m_idVoted`, and so whatever a leader puts in a sealed
block, was signed with a proposal or with a yes.
-/

namespace CppSwc

open Lib

namespace Qpos

/-- The signature was made by `id` when it proposed a header as leader or voted
for it. -/
def YesVote (P : Prims) (w : World) (id : NodeID) (sig : Signature) : Prop :=
  ∃ r ∈ w.trace, r.node = id ∧ ∃ header,
    sig = P.sign id (header.hashWithoutSeal P) ∧
      ((r.before.proposes P r.input = some header ∧ r.before.isLeader = true) ∨
        ∃ src, r.before.answers P r.input = some (src, header, true))

/-- The signature comes from the state before, from the node itself with a
proposal or a yes, from the proposal under vote, or from a yes of a peer. -/
inductive VoteSource (P : Prims) (me : NodeID) (s : Qpos) (input : Input) (id : NodeID)
    (sig : Signature) : Prop where
  | old : s.idVoted[id]? = some sig → VoteSource P me s input id sig
  | proposal {header : BlockHeader} : id = me → s.proposes P input = some header →
      sig = P.sign me (header.hashWithoutSeal P) → VoteSource P me s input id sig
  | answer {src : NodeID} {header : BlockHeader} : id = me →
      s.answers P input = some (src, header, true) →
      sig = P.sign me (header.hashWithoutSeal P) → VoteSource P me s input id sig
  | proposer {view : UInt32} {block : Rlp} {now : Int} {rand : Nat} :
      input = .interpret id (.blockVote view sig block) now rand →
      VoteSource P me s input id sig
  | voter {view : UInt32} {idrecv : NodeID} {now : Int} {rand : Nat} :
      input = .interpret id (.blockVoteAck true view sig idrecv) now rand →
      VoteSource P me s input id sig

section Step

variable {P : Prims} {self src id : NodeID} {now : Int} {s : Qpos} {sig : Signature}

theorem idVoted_voteBlockEnd (h : (s.voteBlockEnd P self now).1.idVoted[id]? = some sig) :
    s.idVoted[id]? = some sig := by
  simp only [voteBlockEnd] at h
  split at h
  · simp [resetConfig] at h
  · split at h
    · split at h
      · exact h
      · simp only [broadBlock] at h
        split at h <;> exact h
    · exact h

theorem idVoted_voteBlockBegin {header : BlockHeader}
    (hb : BlockHeader.ofBlock P s.blockBytes = some header)
    (h : (s.voteBlockBegin P self now).1.idVoted[id]? = some sig) :
    s.idVoted[id]? = some sig ∨ (id = self ∧ sig = P.sign self (header.hashWithoutSeal P)) := by
  have hins : (s.idVoted.insert self (P.sign self (header.hashWithoutSeal P)))[id]? = some sig := by
    simp only [voteBlockBegin] at h
    rw [hb] at h
    dsimp only at h
    split at h
    · exact idVoted_voteBlockEnd h
    · exact h
  rw [getElem?_insert_eq] at hins
  split at hins
  · rename_i heq
    exact .inr ⟨heq.symm, (Option.some.inj hins).symm⟩
  · exact .inl hins

theorem voteSource_tick (hab : s.aborted = false)
    (h : (s.tick P self now).1.idVoted[id]? = some sig) :
    VoteSource P self s (.tick now) id sig := by
  obtain ⟨t, v, u, hs⟩ := voteTick_state now s
  have hold : (s.voteTick now).1.idVoted = s.idVoted := by rw [hs]
  have hcase : TickCase P self now (s.voteTick now) (s.tick P self now) := tick_cases
  generalize s.tick P self now = r at hcase h
  cases hcase with
  | idle => exact .old (hold ▸ h)
  | drop _ => exact .old (hold ▸ h)
  | reset _ _ => simp [resetConfig] at h
  | propose block blocks header hleader hstate hblocks hheader hnumber =>
      have hprop : s.proposes P (.tick now) = some header := by
        simp only [proposes, hab]
        exact proposal_of_voteTick hleader hstate hblocks hheader hnumber
      rcases idVoted_voteBlockBegin hheader h with h | ⟨hid, hsig⟩
      · exact .old (hold ▸ h)
      · exact .proposal hid hprop hsig

theorem voteSource_onBlockVote {view : UInt32} {sig' : Signature} {block : Rlp} {rand : Nat}
    (hab : s.aborted = false) (hsrc : src ∈ s.miners)
    (h : (s.onBlockVote P self now src view sig' block).1.idVoted[id]? = some sig) :
    VoteSource P self s (.interpret src (.blockVote view sig' block) now rand) id sig := by
  simp only [onBlockVote] at h
  split at h
  · exact .old h
  · rename_i header hheader
    dsimp only at h
    split at h
    · rename_i hvote
      dsimp only at h
      rw [getElem?_insert_eq] at h
      split at h
      · rename_i heq
        have hans : s.answers P (.interpret src (.blockVote view sig' block) now rand) =
            some (src, header, true) := by
          simp [answers, hab, hsrc, hheader, hvote]
        exact .answer heq.symm hans (Option.some.inj h).symm
      · rw [getElem?_insert_eq] at h
        split at h
        · rename_i heq
          cases h
          exact .proposer (by rw [heq])
        · simp at h
    · exact .old h

theorem voteSource_onBlockVoteAck {vote : Bool} {view : UInt32} {sig' : Signature}
    {idrecv : NodeID} {rand : Nat}
    (h : (s.onBlockVoteAck P self now src vote view sig').1.idVoted[id]? = some sig) :
    VoteSource P self s (.interpret src (.blockVoteAck vote view sig' idrecv) now rand) id sig := by
  simp only [onBlockVoteAck] at h
  split at h
  · exact .old h
  · split at h
    · exact .old h
    · split at h
      · exact .old h
      · have hend := idVoted_voteBlockEnd h
        split at hend
        · rename_i hvote
          dsimp only at hend
          rw [getElem?_insert_eq] at hend
          split at hend
          · rename_i heq
            cases hend
            exact .voter (by rw [heq, hvote])
          · exact .old hend
        · exact .old hend

/-- Every signature a node holds after an input has one of these sources. -/
theorem voteSource_handle {input : Input}
    (h : (s.handle P self input).1.idVoted[id]? = some sig) :
    VoteSource P self s input id sig := by
  have hcase := ballotCase_handle P self s input
  generalize s.handle P self input = r at hcase h
  cases hcase with
  | @keep t _ hballot _ _ =>
      have hvoted : t.idVoted = s.idVoted := congrArg Ballot.idVoted hballot
      exact .old (hvoted ▸ h)
  | reset => simp [resetConfig] at h
  | tick hinput hab =>
      subst hinput
      exact voteSource_tick hab h
  | blockVote hinput hab hsrc =>
      subst hinput
      exact voteSource_onBlockVote hab hsrc h
  | blockVoteAck hinput _ _ =>
      subst hinput
      exact voteSource_onBlockVoteAck h

end Step

/-! ## Runs -/

section Run

variable {P : Prims} {ids : List NodeID} {miners : NodeSet} {w : World}
  {ok : World → NodeID → Input → Prop}

theorem YesVote.log {id : NodeID} {sig : Signature} (h : YesVote P w id sig)
    (rest : List (Packet NodeID QposPacket)) (i : NodeID) (input : Input) :
    YesVote P ((network P ids miners).log w rest i input) id sig := by
  obtain ⟨r, hr, hvote⟩ := h
  exact ⟨r, Protocol.mem_trace_log.mpr (.inl hr), hvote⟩

theorem YesVote.of_proposal {id : NodeID} {r : Record} {header : BlockHeader}
    (hr : r ∈ w.trace) (hid : r.node = id) (hprop : r.before.proposes P r.input = some header) :
    YesVote P w id (P.sign id (header.hashWithoutSeal P)) :=
  ⟨r, hr, hid, header, rfl, .inl ⟨hprop, (proposes_eq_some hprop).1⟩⟩

theorem YesVote.of_answer {id src : NodeID} {r : Record} {header : BlockHeader}
    (hr : r ∈ w.trace) (hid : r.node = id)
    (hans : r.before.answers P r.input = some (src, header, true)) :
    YesVote P w id (P.sign id (header.hashWithoutSeal P)) :=
  ⟨r, hr, hid, header, rfl, .inr ⟨src, hans⟩⟩

/-- All signatures that nodes hold now or held after a recorded step are yes
votes. -/
structure HeldVotes (P : Prims) (w : World) : Prop where
  /-- Signatures held now. -/
  now : ∀ j id sig, (w.node j).idVoted[id]? = some sig → YesVote P w id sig
  /-- Signatures held after a recorded step. -/
  past : ∀ r ∈ w.trace, ∀ id sig,
    (r.before.handle P r.node r.input).1.idVoted[id]? = some sig → YesVote P w id sig

/-- A handled input adds only yes votes to what the node holds. -/
theorem yesVote_of_handle {rest : List (Packet NodeID QposPacket)} {i : NodeID} {input : Input}
    (hprov : (network P ids miners).Provenance w)
    (hx : (network P ids miners).Enabled w i input)
    (hw : ∀ j id sig, (w.node j).idVoted[id]? = some sig → YesVote P w id sig) {id : NodeID}
    {sig : Signature} (h : ((w.node i).handle P i input).1.idVoted[id]? = some sig) :
    YesVote P ((network P ids miners).log w rest i input) id sig := by
  cases voteSource_handle h with
  | old h => exact (hw i id sig h).log ..
  | proposal hid hprop hsig =>
      rw [hid, hsig]
      exact .of_proposal (Protocol.mem_trace_log.mpr (.inr rfl)) rfl hprop
  | answer hid hans hsig =>
      rw [hid, hsig]
      exact .of_answer (Protocol.mem_trace_log.mpr (.inr rfl)) rfl hans
  | proposer heq =>
      subst heq
      obtain ⟨r, hr, hp⟩ := sent_of_interpret hprov hx
      obtain ⟨hid, header, hprop, -, rfl, -⟩ := proposes_of_packet hp
      exact (YesVote.of_proposal hr hid hprop).log ..
  | voter heq =>
      subst heq
      obtain ⟨r, hr, hp⟩ := sent_of_interpret hprov hx
      obtain ⟨hid, header, hans, rfl⟩ := answers_of_packet hp
      exact (YesVote.of_answer hr hid hans).log ..

/-- In every run all signatures that nodes hold are yes votes. -/
theorem heldVotes
    (h : (network P ids miners).system.Reach ((network P ids miners).Guard ok) w) :
    HeldVotes P w := by
  refine Protocol.invariant ?_ ?_ h
  · constructor
    · intro j id sig hget
      simp [Protocol.initial, network, start] at hget
    · intro r hr
      cases hr
  · intro w rest i input hreach hrest hx _ hw
    have hnew : ∀ id sig, ((w.node i).handle P i input).1.idVoted[id]? = some sig →
        YesVote P ((network P ids miners).log w rest i input) id sig := fun id sig hget =>
      yesVote_of_handle (Protocol.provenance hreach) hx hw.now hget
    constructor
    · intro j id sig hget
      by_cases hj : j = i
      · subst hj
        rw [Protocol.log_node_self] at hget
        exact hnew id sig hget
      · rw [Protocol.log_node_of_ne hj] at hget
        exact (hw.now j id sig hget).log ..
    · intro r hr id sig hget
      rcases Protocol.mem_trace_log.mp hr with hr | rfl
      · exact (hw.past r hr id sig hget).log ..
      · exact hnew id sig hget

end Run

/-- **In every run a node signs a header only when it proposes it as leader or
answers its proposal, and the acknowledgement carries the vote beside the
signature.  Every signature held in some `m_idVoted`, and every signature in a
sealed block, was made with a proposal or with a yes.** -/
theorem held_signatures_are_yes_votes (P : Prims) (ids : List NodeID) (miners : NodeSet) {w : World}
    (h : (network P ids miners).system.Reach
      ((network P ids miners).Guard fun _ _ _ => True) w) :
    (∀ r ∈ w.trace, ∀ header, .sign header ∈ (r.before.handle P r.node r.input).2 →
      (r.before.isLeader = true ∧ r.before.proposes P r.input = some header) ∨
      ∃ src vote, r.before.answers P r.input = some (src, header, vote) ∧
        send src (.blockVoteAck vote (wire r.before.currentView)
          (P.sign r.node (header.hashWithoutSeal P)) src) ∈
          (r.before.handle P r.node r.input).2) ∧
    (∀ j id sig, (w.node j).idVoted[id]? = some sig → YesVote P w id sig) ∧
    ∀ r ∈ w.trace, ∀ block,
      .broadcast (.broadBlock block) ∈ (r.before.handle P r.node r.input).2 →
      ∃ signs, signList P block = some signs ∧ ∀ e ∈ signs, YesVote P w e.1 e.2 := by
  have hheld := heldVotes h
  refine ⟨?_, hheld.now, ?_⟩
  · intro r _ header hsign
    cases emits_of_mem hsign with
    | signProposal hprop => exact .inl ⟨(proposes_eq_some hprop).1, hprop⟩
    | signAnswer hans =>
        refine .inr ⟨_, _, hans, ?_⟩
        rw [out_of_answers r.node hans]
        exact List.mem_cons_of_mem _ List.mem_cons_self
  · intro r hr block hblock
    cases emits_of_mem hblock with
    | broadBlock hsigns =>
        refine ⟨_, hsigns, ?_⟩
        intro e he
        exact hheld.past r hr e.1 e.2 (Std.ExtTreeMap.mem_toList_iff_getElem?_eq_some.mp he)

/-! ## A sealed block and a refusal -/

/-- Node 3 votes for block 1, and node 1 seals it with the two signatures. -/
theorem held_signatures_are_yes_votes_sealed :
    ∃ w, threeNodes.system.Reach (threeNodes.Guard fun _ _ _ => True) w ∧
      ((w.node 1).idVoted.toList.map Prod.fst = [1, 3] ∧
        ∀ id sig, (w.node 1).idVoted[id]? = some sig → YesVote Prims.sample w id sig) := by
  have hrun : ∃ w, threeNodes.system.Reach (threeNodes.Guard fun _ _ _ => True) w ∧
      decide ((w.node 1).idVoted.toList.map Prod.fst = [1, 3]) = true :=
    System.Reach.exists_of_check
      (proposalRun ++ [.deliver 2 (20000004, 0), .deliver 2 (20000005, 0)])
      (.init rfl) (by decide +kernel) (by decide +kernel)
  obtain ⟨w, hw, hsigners⟩ := hrun
  refine ⟨w, hw, of_decide_eq_true hsigners, ?_⟩
  exact (held_signatures_are_yes_votes Prims.sample [1, 2, 3] threeMiners hw).2.1 1

/-- Node 2, still in view 0, answers the proposal of view 1 with no.  The
acknowledgement carries its signature, with which block 1 passes `checkBlockSign`
and without which it does not. -/
theorem refusal_completes_certificate :
    (∃ w, threeNodes.system.Reach (threeNodes.Guard fun _ _ _ => True) w ∧
      (w.flight.any (fun packet =>
          match packet.msg with
          | .blockVoteAck vote _ sig _ => packet.src == 2 && !vote && sig == sampleSign 5 2
          | _ => false) &&
        w.trace.all (fun r => r.node != 2 ||
          (r.before.proposes Prims.sample r.input).isNone &&
            !(r.before.answers Prims.sample r.input).any (·.2.2))) = true) ∧
    checkBlockSign Prims.sample threeMiners (BlockHeader.sample 1 5) (signedBlock 5 [1, 2]) = true ∧
    checkBlockSign Prims.sample threeMiners (BlockHeader.sample 1 5) (signedBlock 5 [1]) = false := by
  refine ⟨?_, by decide +kernel, by decide +kernel⟩
  exact System.Reach.exists_of_check (proposalRun ++ [.deliver 1 (20000004, 0)])
    (.init rfl) (by decide +kernel) (by decide +kernel)

end Qpos

end CppSwc
