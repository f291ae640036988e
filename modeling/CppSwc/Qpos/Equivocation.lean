import CppSwc.Qpos.World

/-!
# Voting twice at one height

A node keeps no memory of its votes.  `onBlockVote` votes for every proposal for
the next block in its view, and `resetConfig` lets a leader put another block of
the same number to the vote.  So one node may support two blocks at one height
and in one view.  What the round of a leader guarantees is weaker: the two were
proposed by different leaders, or the leader has reset its round in between.
-/

namespace CppSwc

open Lib

namespace Qpos

/-- The step proposes the header as leader, or votes for the proposal of
`leader`. -/
inductive Supports (P : Prims) (r : Record) : NodeID → BlockHeader → Prop where
  | proposal {header : BlockHeader} : r.before.proposes P r.input = some header →
      Supports P r r.node header
  | vote {leader : NodeID} {header : BlockHeader} :
      r.before.answers P r.input = some (leader, header, true) → Supports P r leader header

/-- Node `i` supports the header, of number `height` and proposed by `leader`,
while its view is `view`. -/
def Supported (P : Prims) (w : World) (i : NodeID) (height view : Nat) (leader : NodeID)
    (header : BlockHeader) : Prop :=
  ∃ r ∈ w.trace, r.node = i ∧ r.before.currentView = view ∧ header.number = height ∧
    Supports P r leader header

/-- The step is the proposal of the header by `leader`, under a view that reads
as `view` on the wire. -/
structure Proposed (P : Prims) (w : World) (view : Nat) (leader : NodeID) (header : BlockHeader)
    (r : Record) : Prop where
  mem : r ∈ w.trace
  node : r.node = leader
  isLeader : r.before.isLeader = true
  view : wire r.before.currentView = wire view
  proposes : r.before.proposes P r.input = some header

/-- The step returns the node to the start of a round. -/
def Resets (P : Prims) (r : Record) : Prop :=
  r.before.consensusState ≠ .initial ∧
    (r.before.handle P r.node r.input).1.consensusState = .initial

/-! ## Rounds of one node -/

/-- At the start of a round there are no votes against. -/
def Unopposed (s : Qpos) : Prop := s.consensusState = .initial → s.idUnVoted = ∅

section Step

variable {P : Prims} {self src : NodeID} {now : Int} {s t : Qpos}

theorem Unopposed.congr (h : s.Unopposed) (hc : t.consensusState = s.consensusState)
    (hu : t.idUnVoted = s.idUnVoted) : t.Unopposed := by
  intro ht
  rw [hu]
  exact h (hc ▸ ht)

theorem unopposed_of_ne (h : s.consensusState ≠ .initial) : s.Unopposed :=
  fun hs => absurd hs h

theorem unopposed_resetConfig : (s.resetConfig now).Unopposed := fun _ => rfl

theorem unopposed_broadBlock (h : s.Unopposed) (block : Rlp) :
    (s.broadBlock block).1.Unopposed := by
  simp only [broadBlock]
  split
  · exact unopposed_of_ne QposState.noConfusion
  · exact h.congr rfl rfl

theorem unopposed_voteBlockEnd (h : s.Unopposed) : (s.voteBlockEnd P self now).1.Unopposed := by
  simp only [voteBlockEnd]
  split
  · exact unopposed_resetConfig
  · split
    · split
      · exact h
      · exact unopposed_broadBlock h _
    · exact h

theorem unopposed_voteBlockBegin (h : s.Unopposed) :
    (s.voteBlockBegin P self now).1.Unopposed := by
  unfold voteBlockBegin
  split
  · exact h
  · dsimp only
    split
    · exact unopposed_voteBlockEnd (unopposed_of_ne QposState.noConfusion)
    · exact unopposed_of_ne QposState.noConfusion

theorem unopposed_tick (h : s.Unopposed) : (s.tick P self now).1.Unopposed := by
  obtain ⟨t, v, u, hs⟩ := voteTick_state now s
  have hv : (s.voteTick now).1.Unopposed := by
    rw [hs]
    exact h.congr rfl rfl
  have hcase : TickCase P self now (s.voteTick now) (s.tick P self now) := tick_cases
  generalize s.tick P self now = r at hcase
  cases hcase with
  | idle => exact hv
  | drop _ => exact hv.congr rfl rfl
  | reset _ _ => exact unopposed_resetConfig
  | propose block blocks header _ _ _ _ _ =>
      exact unopposed_voteBlockBegin (hv.congr rfl rfl)

theorem unopposed_onBlockVote (h : s.Unopposed) (view : UInt32) (sig : Signature) (block : Rlp) :
    (s.onBlockVote P self now src view sig block).1.Unopposed := by
  simp only [onBlockVote]
  split
  · exact h
  · dsimp only
    split
    · exact fun _ => rfl
    · exact h.congr rfl rfl

theorem unopposed_onBlockVoteAck (h : s.Unopposed) (vote : Bool) (view : UInt32)
    (sig : Signature) : (s.onBlockVoteAck P self now src vote view sig).1.Unopposed := by
  simp only [onBlockVoteAck]
  split
  · exact h
  · rename_i hwait
    rw [ne_eq, not_not] at hwait
    split
    · exact h
    · split
      · exact h
      · apply unopposed_voteBlockEnd
        apply unopposed_of_ne
        split <;> rw [hwait] <;> exact QposState.noConfusion

/-- Every input keeps the start of a round without votes against. -/
theorem unopposed_handle (h : s.Unopposed) (input : Input) :
    (s.handle P self input).1.Unopposed := by
  have hcase := ballotCase_handle P self s input
  generalize s.handle P self input = r at hcase
  cases hcase with
  | keep hballot _ _ =>
      exact h.congr (congrArg Ballot.consensusState hballot) (congrArg Ballot.idUnVoted hballot)
  | reset => exact unopposed_resetConfig
  | tick _ _ => exact unopposed_tick h
  | blockVote _ _ _ => exact unopposed_onBlockVote h _ _ _
  | blockVoteAck _ _ _ => exact unopposed_onBlockVoteAck h _ _ _

/-- A single node that proposes finishes the round at once, and with more miners
it waits for their votes. -/
theorem voteBlockBegin_not_initial {header : BlockHeader}
    (hb : BlockHeader.ofBlock P s.blockBytes = some header) (hu : s.idUnVoted = ∅) :
    (s.voteBlockBegin P self now).1.consensusState ≠ .initial := by
  simp only [voteBlockBegin]
  rw [hb]
  dsimp only
  split
  · unfold voteBlockEnd
    split
    · rename_i hlost
      simp only [hu, nodeCount, Std.ExtTreeSet.size_empty] at hlost
      omega
    · split
      · dsimp only
        rw [hb]
        dsimp only
        simp only [broadBlock]
        split <;> exact QposState.noConfusion
      · exact QposState.noConfusion
  · exact QposState.noConfusion

/-- A step that proposes leaves the start of the round. -/
theorem not_initial_of_proposes {input : Input} {header : BlockHeader} (hs : s.Unopposed)
    (h : s.proposes P input = some header) :
    (s.handle P self input).1.consensusState ≠ .initial := by
  have hinit := (proposes_eq_some h).2.1
  cases input with
  | tick now =>
      simp only [proposes] at h
      split at h
      · cases h
      · rename_i hab
        simp only [handle, hab, if_false, Bool.false_eq_true]
        obtain ⟨block, blocks, hheader, htick⟩ := tick_of_proposal self now h
        rw [htick]
        obtain ⟨t, v, u, hv⟩ := voteTick_state now s
        refine voteBlockBegin_not_initial hheader ?_
        rw [hv]
        exact hs hinit
  | _ => cases h

end Step

/-! ## Rounds along a run -/

section Run

variable {P : Prims} {ids : List NodeID} {miners : NodeSet} {w : World}
  {ok : World → NodeID → Input → Prop}

/-- The rounds of each node do not overlap.  A proposal is followed by a reset, or
its round is still open. -/
structure Rounds (P : Prims) (w : World) : Prop where
  /-- Rounds start without votes against. -/
  unopposed : ∀ i, (w.node i).Unopposed
  /-- The last round may be open. -/
  last : ∀ p ∈ w.trace, ∀ header, p.before.proposes P p.input = some header →
    (w.node p.node).consensusState ≠ .initial ∨
      ∃ q, [p, q].Sublist w.trace ∧ q.node = p.node ∧ Resets P q
  /-- Between two rounds the node was reset. -/
  reset : ∀ p p' header header', [p, p'].Sublist w.trace → p.node = p'.node →
    p.before.proposes P p.input = some header → p'.before.proposes P p'.input = some header' →
    ∃ q, [p, q, p'].Sublist w.trace ∧ q.node = p.node ∧ Resets P q

theorem last_log {rest : List (Packet NodeID QposPacket)} {i : NodeID} {input : Input}
    (hw : Rounds P w) {p : Record} {header : BlockHeader}
    (hp : p ∈ ((network P ids miners).log w rest i input).trace)
    (hprop : p.before.proposes P p.input = some header) :
    (((network P ids miners).log w rest i input).node p.node).consensusState ≠ .initial ∨
      ∃ q, [p, q].Sublist ((network P ids miners).log w rest i input).trace ∧
        q.node = p.node ∧ Resets P q := by
  rcases Protocol.mem_trace_log.mp hp with hold | rfl
  · rcases hw.last p hold header hprop with hopen | ⟨q, hq, hnode, hreset⟩
    · by_cases hi : p.node = i
      · subst hi
        rw [Protocol.log_node_self]
        by_cases hinit : ((w.node p.node).handle P p.node input).1.consensusState = .initial
        · -- The new step closes the round.
          refine .inr ⟨Protocol.record w p.node input, ?_, rfl, hopen, hinit⟩
          exact (List.singleton_sublist.mpr hold).append (List.Sublist.refl [_])
        · exact .inl hinit
      · rw [Protocol.log_node_of_ne hi]
        exact .inl hopen
    · exact .inr ⟨q, hq.trans (List.sublist_append_left _ _), hnode, hreset⟩
  · left
    have hself : ((network P ids miners).log w rest i input).node
        (Protocol.record w i input).node = ((w.node i).handle P i input).1 :=
      Protocol.log_node_self rest i input
    rw [hself]
    exact not_initial_of_proposes (hw.unopposed i) hprop

theorem reset_log {rest : List (Packet NodeID QposPacket)} {i : NodeID} {input : Input}
    (hw : Rounds P w) {p p' : Record} {header header' : BlockHeader}
    (hpp : [p, p'].Sublist ((network P ids miners).log w rest i input).trace)
    (hnode : p.node = p'.node) (hprop : p.before.proposes P p.input = some header)
    (hprop' : p'.before.proposes P p'.input = some header') :
    ∃ q, [p, q, p'].Sublist ((network P ids miners).log w rest i input).trace ∧
      q.node = p.node ∧ Resets P q := by
  rcases pair_sublist_concat hpp with hpp | ⟨hp, rfl⟩
  · obtain ⟨q, hq, hnode', hreset⟩ := hw.reset p p' header header' hpp hnode hprop hprop'
    exact ⟨q, hq.trans (List.sublist_append_left _ _), hnode', hreset⟩
  · -- The new step proposes, so the node is at the start of a round.
    have hinit : (w.node p.node).consensusState = .initial := by
      rw [hnode]
      exact (proposes_eq_some hprop').2.1
    rcases hw.last p hp header hprop with hopen | ⟨q, hq, hnode', hreset⟩
    · exact absurd hinit hopen
    · exact ⟨q, hq.append (List.Sublist.refl [_]), hnode', hreset⟩

/-- In every run the rounds of each node are separated by resets. -/
theorem rounds (h : (network P ids miners).system.Reach ((network P ids miners).Guard ok) w) :
    Rounds P w := by
  refine Protocol.invariant ?_ ?_ h
  · constructor
    · intro i
      exact unopposed_of_ne QposState.noConfusion
    · intro p hp
      cases hp
    · intro p p' header header' hpp
      cases hpp
  · intro w rest i input _ _ _ _ hw
    constructor
    · intro j
      by_cases hj : j = i
      · subst hj
        rw [Protocol.log_node_self]
        exact unopposed_handle (hw.unopposed j) input
      · rw [Protocol.log_node_of_ne hj]
        exact hw.unopposed j
    · intro p hp header hprop
      exact last_log hw hp hprop
    · intro p p' header header' hpp hnode hprop hprop'
      exact reset_log hw hpp hnode hprop hprop'

/-- What a node supports was proposed in its view. -/
theorem proposed_of_supported {i leader : NodeID} {height view : Nat} {header : BlockHeader}
    (hprov : (network P ids miners).Provenance w)
    (h : Supported P w i height view leader header) :
    ∃ p, Proposed P w view leader header p := by
  obtain ⟨r, hr, -, hview, -, hsupports⟩ := h
  cases hsupports with
  | proposal hprop =>
      exact ⟨r, hr, rfl, (proposes_eq_some hprop).1, by rw [hview], hprop⟩
  | vote hans =>
      obtain ⟨-, -, view', sig, block, now, rand, hinput, hheader, hvote⟩ := answers_eq_some hans
      have hsame : view'.toNat = r.before.currentView := by
        simp only [accepts, Bool.true_eq, Bool.and_eq_true, beq_iff_eq] at hvote
        exact hvote.2
      rcases hprov.received r hr with ⟨-, hlocal⟩ | ⟨src, msg, reading, heq, p, hp, hpacket⟩
      · rw [hinput] at hlocal
        cases hlocal
      · rw [hinput] at heq
        cases heq
        obtain ⟨hnode, header', hprop, hheader', -, hwire⟩ := proposes_of_packet hpacket
        rw [hheader] at hheader'
        cases hheader'
        refine ⟨p, hp, hnode, (proposes_eq_some hprop).1, ?_, hprop⟩
        rw [← hwire, ← hview, ← hsame, wire, UInt32.ofNat_toNat]

end Run

/-- **If a node supports two headers with different hashes at one height and in
one view, then they were proposed in that view by two different leaders, or by one
leader that reset its round between the two proposals.** -/
theorem equivocation_spans_rounds (P : Prims) (ids : List NodeID) (miners : NodeSet) {w : World}
    (h : (network P ids miners).system.Reach
      ((network P ids miners).Guard fun _ _ _ => True) w)
    {i leader₁ leader₂ : NodeID} {height view : Nat} {header₁ header₂ : BlockHeader}
    (h₁ : Supported P w i height view leader₁ header₁)
    (h₂ : Supported P w i height view leader₂ header₂)
    (hne : header₁.hashWithoutSeal P ≠ header₂.hashWithoutSeal P) :
    ∃ p₁ p₂, Proposed P w view leader₁ header₁ p₁ ∧ Proposed P w view leader₂ header₂ p₂ ∧
      (leader₁ ≠ leader₂ ∨ ∃ q, q.node = leader₁ ∧ Resets P q ∧
        ([p₁, q, p₂].Sublist w.trace ∨ [p₂, q, p₁].Sublist w.trace)) := by
  have hprov := Protocol.provenance h
  have hrounds := rounds h
  obtain ⟨p₁, hp₁⟩ := proposed_of_supported hprov h₁
  obtain ⟨p₂, hp₂⟩ := proposed_of_supported hprov h₂
  refine ⟨p₁, p₂, hp₁, hp₂, ?_⟩
  by_cases hleader : leader₁ = leader₂
  · right
    have hnode : p₁.node = p₂.node := by rw [hp₁.node, hp₂.node, hleader]
    rcases pair_sublist_of_mem hp₁.mem hp₂.mem with rfl | hpp | hpp
    · -- One step proposes one header.
      have hheader := hp₁.proposes.symm.trans hp₂.proposes
      cases hheader
      exact absurd rfl hne
    · obtain ⟨q, hq, hqnode, hreset⟩ :=
        hrounds.reset p₁ p₂ _ _ hpp hnode hp₁.proposes hp₂.proposes
      exact ⟨q, hqnode.trans hp₁.node, hreset, .inl hq⟩
    · obtain ⟨q, hq, hqnode, hreset⟩ :=
        hrounds.reset p₂ p₁ _ _ hpp hnode.symm hp₂.proposes hp₁.proposes
      exact ⟨q, hqnode.trans (hnode.symm.trans hp₁.node), hreset, .inr hq⟩
  · exact .inl hleader

/-! ## One leader, one view, two blocks -/

/-- Whether the step of node `i` votes for the proposal of `leader` with the given
number and hash in the given view. -/
def votesFor (P : Prims) (i leader : NodeID) (height view : Nat) (hash : H256) (r : Record) :
    Bool :=
  r.node == i && r.before.currentView == view &&
    (r.before.answers P r.input).any fun a =>
      a.1 == leader && a.2.1.number == height && a.2.1.hashWithoutSeal P == hash && a.2.2

theorem supported_of_votesFor {P : Prims} {w : World} {i leader : NodeID} {height view : Nat}
    {hash : H256} (h : w.trace.any (votesFor P i leader height view hash) = true) :
    ∃ header, header.hashWithoutSeal P = hash ∧ Supported P w i height view leader header := by
  obtain ⟨r, hr, hvotes⟩ := List.any_eq_true.mp h
  simp only [votesFor, Bool.and_eq_true, beq_iff_eq, Option.any_eq_true] at hvotes
  obtain ⟨⟨hnode, hview⟩, ⟨leader', header, vote⟩, hans, ⟨⟨rfl, hnumber⟩, hhash⟩, rfl⟩ := hvotes
  exact ⟨header, hhash, r, hr, hnode, hview, hnumber, .vote hans⟩

/-- After `proposalRun`, node 3 votes for block 1.  The round of node 1 times out,
it puts another block 1 to the vote, and node 3 votes for that one too. -/
def secondProposalRun : List (Action NodeID Input (Int × Nat)) :=
  proposalRun ++ [.deliver 2 (20000004, 0), .input 1 (.tick 50000000),
    .input 1 (.generateSeal (.sampleBlock 1 6)), .input 1 (.tick 50000001),
    .deliver 6 (50000002, 0)]

/-- The run ends with both votes of node 3 on record. -/
theorem secondProposalRun_votes :
    ∃ w, threeNodes.system.Reach (threeNodes.Guard fun _ _ _ => True) w ∧
      (w.trace.any (votesFor Prims.sample 3 1 1 1 (sampleHash 5)) &&
        w.trace.any (votesFor Prims.sample 3 1 1 1 (sampleHash 6))) = true :=
  System.Reach.exists_of_check secondProposalRun (.init rfl) (by decide +kernel)
    (by decide +kernel)

/-- Node 3 votes for two headers with number 1 and different hashes in view 1. -/
theorem follower_votes_twice :
    ∃ w, threeNodes.system.Reach (threeNodes.Guard fun _ _ _ => True) w ∧
      ∃ header₁ header₂, Supported Prims.sample w 3 1 1 1 header₁ ∧
        Supported Prims.sample w 3 1 1 1 header₂ ∧
        header₁.hashWithoutSeal Prims.sample ≠ header₂.hashWithoutSeal Prims.sample := by
  obtain ⟨w, hw, hvotes⟩ := secondProposalRun_votes
  rw [Bool.and_eq_true] at hvotes
  obtain ⟨header₁, hhash₁, h₁⟩ := supported_of_votesFor hvotes.1
  obtain ⟨header₂, hhash₂, h₂⟩ := supported_of_votesFor hvotes.2
  refine ⟨w, hw, header₁, header₂, h₁, h₂, ?_⟩
  rw [hhash₁, hhash₂]
  decide +kernel

/-- Node 1 has reset its round between the two proposals. -/
theorem equivocation_spans_rounds_timeout :
    ∃ w header₁ header₂ p₁ p₂ q, Proposed Prims.sample w 1 1 header₁ p₁ ∧
      Proposed Prims.sample w 1 1 header₂ p₂ ∧ q.node = 1 ∧ Resets Prims.sample q ∧
      ([p₁, q, p₂].Sublist w.trace ∨ [p₂, q, p₁].Sublist w.trace) := by
  obtain ⟨w, hw, hvotes⟩ := secondProposalRun_votes
  rw [Bool.and_eq_true] at hvotes
  obtain ⟨header₁, hhash₁, h₁⟩ := supported_of_votesFor hvotes.1
  obtain ⟨header₂, hhash₂, h₂⟩ := supported_of_votesFor hvotes.2
  have hne : header₁.hashWithoutSeal Prims.sample ≠ header₂.hashWithoutSeal Prims.sample := by
    rw [hhash₁, hhash₂]
    decide +kernel
  obtain ⟨p₁, p₂, hp₁, hp₂, hleader | ⟨q, hq⟩⟩ :=
    equivocation_spans_rounds Prims.sample [1, 2, 3] threeMiners hw h₁ h₂ hne
  · exact absurd rfl hleader
  · exact ⟨w, header₁, header₂, p₁, p₂, q, hp₁, hp₂, hq⟩

end Qpos

end CppSwc
