import CppSwc.Lib.Network
import CppSwc.Qpos.Certificate

/-!
# A network of QPOS nodes

The handlers as a protocol: every node runs `handle`, and the packets its effects
stand for go to the connected peers.  Then what a node can say about a block.  A
step *proposes* a header if it is a `tick` that puts the header to the vote, and
it *answers* a header if it handles a proposal of it.  These are the only two
occasions on which a node signs.
-/

namespace CppSwc

open Lib

/-- The inputs that come from the node's own process. -/
def Input.isLocal : Input → Bool
  | .interpret _ _ _ _ => false
  | _ => true

namespace Qpos

/-- The messages of an effect, to the peers among `ids`. -/
def sends (ids : List NodeID) : Effect → List (NodeID × QposPacket)
  | .multicast dst packet => (ids.filter dst.contains).map (·, packet)
  | .broadcast packet => ids.map (·, packet)
  | _ => []

/-- The nodes `ids`, which start with the miner list `miners`. -/
def network (P : Prims) (ids : List NodeID) (miners : NodeSet) :
    Protocol NodeID Qpos Input Effect QposPacket (Int × Nat) where
  ids := ids
  start _ := .start miners
  handle i s input := s.handle P i input
  isLocal := Input.isLocal
  receive src packet reading := .interpret src packet reading.1 reading.2
  sends := sends ids

/-- The global states. -/
abbrev World := Lib.World NodeID Qpos Input QposPacket

/-- The steps in the record of a world. -/
abbrev Record := Lib.Record NodeID Qpos Input

/-! ## Proposals and answers -/

/-- The header that the input makes the node put to the vote. -/
def proposes (P : Prims) (s : Qpos) : Input → Option BlockHeader
  | .tick _ => if s.aborted then none else s.proposal P
  | _ => none

/-- The node whose proposal the input is, its header, and whether the node votes
for it. -/
def answers (P : Prims) (s : Qpos) : Input → Option (NodeID × BlockHeader × Bool)
  | .interpret src (.blockVote view sig block) _ _ =>
      if s.aborted ∨ src ∉ s.miners then none
      else (BlockHeader.ofBlock P block).map fun header =>
        (src, header, s.accepts P src view sig header)
  | _ => none

/-- The header that the input makes the node sign. -/
def signs (P : Prims) (s : Qpos) (input : Input) : Option BlockHeader :=
  s.proposes P input <|> (s.answers P input).map (·.2.1)

/-- A node proposes only as leader and at the start of a round. -/
theorem proposes_eq_some {P : Prims} {s : Qpos} {input : Input} {header : BlockHeader}
    (h : s.proposes P input = some header) :
    s.isLeader = true ∧ s.consensusState = .initial ∧ s.blockNumber + 1 = header.number := by
  cases input with
  | tick now =>
      simp only [proposes, proposal] at h
      split at h
      · cases h
      · split at h
        · rename_i hlead
          rw [Bool.and_eq_true, beq_iff_eq] at hlead
          obtain ⟨block, -, hblock⟩ := Option.bind_eq_some_iff.mp h
          rw [Option.filter_eq_some_iff, beq_iff_eq] at hblock
          exact ⟨hlead.1, hlead.2, hblock.2⟩
        · cases h
  | _ => cases h

/-- An answered proposal came from a miner, with a block under that header. -/
theorem answers_eq_some {P : Prims} {s : Qpos} {input : Input} {src : NodeID}
    {header : BlockHeader} {vote : Bool} (h : s.answers P input = some (src, header, vote)) :
    s.aborted = false ∧ src ∈ s.miners ∧ ∃ view sig block now rand,
      input = .interpret src (.blockVote view sig block) now rand ∧
      BlockHeader.ofBlock P block = some header ∧ vote = s.accepts P src view sig header := by
  cases input with
  | interpret src' packet now rand =>
      cases packet with
      | blockVote view sig block =>
          simp only [answers] at h
          split at h
          · cases h
          · rename_i hpass
            simp only [not_or, Bool.not_eq_true, not_not] at hpass
            obtain ⟨header', hheader, heq⟩ := Option.map_eq_some_iff.mp h
            cases heq
            exact ⟨hpass.1, hpass.2, view, sig, block, now, rand, rfl, hheader, rfl⟩
      | _ => cases h
  | _ => cases h

/-! ## What a step puts out -/

/-- The effects of one input.  A proposal and an answer come with a signature of
the node over the header. -/
inductive Emits (P : Prims) (me : NodeID) (s : Qpos) (input : Input) : Effect → Prop where
  | signProposal {header : BlockHeader} : s.proposes P input = some header →
      Emits P me s input (.sign header)
  | signAnswer {src : NodeID} {header : BlockHeader} {vote : Bool} :
      s.answers P input = some (src, header, vote) → Emits P me s input (.sign header)
  | blockVote {header : BlockHeader} {block : Rlp} : s.proposes P input = some header →
      BlockHeader.ofBlock P block = some header →
      Emits P me s input (.multicast s.miners (.blockVote (wire s.currentView)
        (P.sign me (header.hashWithoutSeal P)) block))
  | blockVoteAck {src : NodeID} {header : BlockHeader} {vote : Bool} :
      s.answers P input = some (src, header, vote) →
      Emits P me s input (send src (.blockVoteAck vote (wire s.currentView)
        (P.sign me (header.hashWithoutSeal P)) src))
  | broadBlock {block : Rlp} :
      signList P block = some (s.handle P me input).1.idVoted.toList →
      Emits P me s input (.broadcast (.broadBlock block))
  | sealGenerated {block : Rlp} {isOurs : Bool} : Emits P me s input (.sealGenerated block isOurs)
  | heart : Emits P me s input (.multicast s.miners (.heart (wire s.currentView)))
  | vote {now : Int} : input = .tick now → s.aborted = false → s.isLeader = false →
      s.voteTimeOut ≤ now →
      Emits P me s input
        (.multicast s.miners (.vote (wire (s.currentView + 1)) (wire s.blockNumber)))
  | voteAck {src : NodeID} {view number : UInt32} {now : Int} {rand : Nat} :
      input = .interpret src (.vote view number) now rand → s.aborted = false →
      src ∈ s.miners →
      Emits P me s input (send src (.voteAck (decide (s.currentView < view.toNat))))

variable {P : Prims} {self src : NodeID} {now : Int} {s : Qpos} {e : Effect}

/-- A sealed block carries the votes the node then holds. -/
theorem mem_voteBlockEnd (h : e ∈ (s.voteBlockEnd P self now).2) :
    (∃ block, e = .broadcast (.broadBlock block) ∧
      signList P block = some (s.voteBlockEnd P self now).1.idVoted.toList) ∨
    ∃ block isOurs, e = .sealGenerated block isOurs := by
  simp only [voteBlockEnd] at h ⊢
  split at h
  · cases h
  · rename_i hlost
    rw [if_neg hlost]
    split at h
    · rename_i hwon
      rw [if_pos hwon]
      split at h
      · cases h
      · rename_i header hheader
        simp only [broadBlock] at h ⊢
        split at h
        · rename_i hlead
          rw [if_pos hlead]
          simp only [sealBlock, Rlp.isNull, Bool.false_eq_true, if_false, List.cons_append,
            List.nil_append, List.mem_cons, List.not_mem_nil, or_false] at h
          rcases h with rfl | rfl
          · exact .inl ⟨_, rfl, signList_sealBlock P self s⟩
          · exact .inr ⟨_, _, rfl⟩
        · cases h
    · cases h

/-- What putting a block to the vote puts out. -/
theorem mem_voteBlockBegin {header : BlockHeader}
    (hb : BlockHeader.ofBlock P s.blockBytes = some header)
    (h : e ∈ (s.voteBlockBegin P self now).2) :
    e = .sign header ∨
    e = .multicast s.miners (.blockVote (wire s.currentView)
      (P.sign self (header.hashWithoutSeal P)) s.blockBytes) ∨
    (∃ block, e = .broadcast (.broadBlock block) ∧
      signList P block = some (s.voteBlockBegin P self now).1.idVoted.toList) ∨
    ∃ block isOurs, e = .sealGenerated block isOurs := by
  simp only [voteBlockBegin] at h ⊢
  rw [hb] at h ⊢
  dsimp only at h ⊢
  split at h
  · rename_i hone
    rw [if_pos hone]
    rcases List.mem_cons.mp h with rfl | h
    · exact .inl rfl
    · exact .inr (.inr (mem_voteBlockEnd h))
  · simp only [List.mem_cons, List.not_mem_nil, or_false] at h
    rcases h with rfl | rfl
    · exact .inl rfl
    · exact .inr (.inl rfl)

theorem emits_of_mem_tick (hab : s.aborted = false) (h : e ∈ (s.tick P self now).2) :
    Emits P self s (.tick now) e := by
  have hv : ∀ e ∈ (s.voteTick now).2, Emits P self s (.tick now) e := by
    intro e he
    simp only [voteTick] at he
    split at he
    · cases he
    · rename_i hdue
      split at he
      · rw [List.mem_singleton.mp he]
        exact .heart
      · rename_i hlead
        rw [List.mem_singleton.mp he]
        exact .vote rfl hab (by simpa using hlead) (by omega)
  have hcase : TickCase P self now (s.voteTick now) (s.tick P self now) := tick_cases
  have hidVoted : (s.handle P self (.tick now)).1 = (s.tick P self now).1 := by
    simp [handle, hab]
  generalize hr : s.tick P self now = r at hcase h hidVoted
  cases hcase with
  | idle => exact hv e h
  | drop _ => exact hv e h
  | reset _ _ => exact hv e h
  | propose block blocks header hleader hstate hblocks hheader hnumber =>
      have hprop : s.proposes P (.tick now) = some header := by
        simp only [proposes, hab]
        exact proposal_of_voteTick hleader hstate hblocks hheader hnumber
      -- A leader does not change its view.
      have hview : (s.voteTick now).1.miners = s.miners ∧
          (s.voteTick now).1.currentView = s.currentView := by
        simp only [voteTick]
        simp only [voteTick] at hleader
        split
        · exact ⟨rfl, rfl⟩
        · rename_i hdue
          rw [if_neg hdue] at hleader
          split
          · exact ⟨rfl, rfl⟩
          · rename_i hlead
            simp [hlead] at hleader
      rcases List.mem_append.mp h with h | h
      · exact hv e h
      · rcases mem_voteBlockBegin hheader h with rfl | rfl | ⟨b, rfl, hsigns⟩ | ⟨b, o, rfl⟩
        · exact .signProposal hprop
        · dsimp only
          rw [hview.1, hview.2]
          exact .blockVote hprop hheader
        · exact .broadBlock (hidVoted ▸ hsigns)
        · exact .sealGenerated

/-- Every effect of a handled input is one of these. -/
theorem emits_of_mem {input : Input} (h : e ∈ (s.handle P self input).2) :
    Emits P self s input e := by
  cases hab : s.aborted with
  | true =>
      simp only [handle, hab, if_true] at h
      cases h
  | false =>
      have hhandle := h
      simp only [handle, hab, Bool.false_eq_true, if_false] at h
      cases input with
      | tick now => exact emits_of_mem_tick hab h
      | interpret src packet now rand =>
          by_cases hsrc : src ∈ s.miners
          · simp only [interpret, hsrc, not_true_eq_false, if_false] at h
            cases packet with
            | blockVote view sig block =>
                dsimp only at h
                simp only [onBlockVote] at h
                split at h
                · cases h
                · rename_i header hheader
                  have hans : s.answers P (.interpret src (.blockVote view sig block) now rand) =
                      some (src, header, s.accepts P src view sig header) := by
                    simp [answers, hab, hsrc, hheader]
                  simp only [List.mem_cons, List.not_mem_nil, or_false] at h
                  rcases h with rfl | rfl
                  · exact .signAnswer hans
                  · have hview : (if s.accepts P src view sig header = true then
                        { s with
                          idVoted := ((∅ : SignMap).insert src sig).insert self
                            (P.sign self (header.hashWithoutSeal P))
                          idUnVoted := ∅
                          consensusTimeOut := now + consensusTimeInterval
                          blockBytes := block }
                        else s).currentView = s.currentView := by
                      split <;> rfl
                    rw [hview]
                    exact .blockVoteAck hans
            | blockVoteAck vote view sig idrecv =>
                dsimp only at h
                have hst : (s.handle P self
                    (.interpret src (.blockVoteAck vote view sig idrecv) now rand)).1 =
                    (s.onBlockVoteAck P self now src vote view sig).1 := by
                  simp [handle, hab, interpret, hsrc]
                have hend : (∃ block, e = .broadcast (.broadBlock block) ∧ signList P block =
                      some (s.onBlockVoteAck P self now src vote view sig).1.idVoted.toList) ∨
                    ∃ block isOurs, e = .sealGenerated block isOurs := by
                  unfold onBlockVoteAck at h ⊢
                  split at h
                  · cases h
                  · rename_i hwait
                    rw [if_neg hwait]
                    split at h
                    · cases h
                    · split at h
                      · cases h
                      · rename_i header hheader hok
                        dsimp only at h ⊢
                        rw [if_neg hok]
                        exact mem_voteBlockEnd h
                rcases hend with ⟨b, rfl, hsigns⟩ | ⟨b, o, rfl⟩
                · exact .broadBlock (hst ▸ hsigns)
                · exact .sealGenerated
            | vote view number =>
                rw [List.mem_singleton.mp h]
                exact .voteAck rfl hab hsrc
            | voteAck vote =>
                dsimp only at h
                simp only [onVoteAck] at h
                split at h <;> cases h
            | heart view => cases h
            | broadBlock block =>
                dsimp only at h
                simp only [onBroadBlock] at h
                split at h
                · cases h
                · rw [List.mem_singleton.mp h]
                  exact .sealGenerated
          · simp only [interpret, hsrc, not_false_eq_true, if_true] at h
            cases h
      | reportBlock number force => cases h
      | reportBlockSelf now => cases h
      | generateSeal block => cases h
      | getMinerList nodes => cases h

/-- Every answered proposal is signed and acknowledged with the vote. -/
theorem out_of_answers (self : NodeID) {input : Input} {header : BlockHeader} {vote : Bool}
    (h : s.answers P input = some (src, header, vote)) :
    (s.handle P self input).2 = [.sign header, send src (.blockVoteAck vote (wire s.currentView)
      (P.sign self (header.hashWithoutSeal P)) src)] := by
  obtain ⟨hab, hsrc, view, sig, block, now, rand, rfl, hheader, rfl⟩ := answers_eq_some h
  simp only [handle, hab, Bool.false_eq_true, if_false, interpret, hsrc, not_true_eq_false,
    onBlockVote, hheader]
  split <;> rfl

/-- Every proposal is signed. -/
theorem sign_mem_of_proposes (self : NodeID) {input : Input} {header : BlockHeader}
    (h : s.proposes P input = some header) : .sign header ∈ (s.handle P self input).2 := by
  cases input with
  | tick now =>
      simp only [proposes] at h
      split at h
      · cases h
      · rename_i hab
        obtain ⟨block, blocks, hheader, htick⟩ := tick_of_proposal self now h
        simp only [handle, hab, if_false, Bool.false_eq_true, htick]
        refine List.mem_append_right _ ?_
        simp only [voteBlockBegin, hheader]
        split
        · exact List.mem_cons_self
        · exact List.mem_cons_self
  | _ => cases h

/-- The node signs exactly the headers it proposes or answers. -/
theorem sign_mem_iff {input : Input} {header : BlockHeader} :
    .sign header ∈ (s.handle P self input).2 ↔ s.signs P input = some header := by
  constructor
  · intro h
    cases emits_of_mem h with
    | signProposal hprop => simp [signs, hprop]
    | signAnswer hans =>
        obtain ⟨-, -, view, sig, block, now, rand, rfl, -, -⟩ := answers_eq_some hans
        simp [signs, proposes, hans]
  · intro h
    simp only [signs, Option.orElse_eq_some, Option.map_eq_some_iff] at h
    rcases h with hprop | ⟨-, ⟨src, header', vote⟩, hans, rfl⟩
    · exact sign_mem_of_proposes self hprop
    · rw [out_of_answers self hans]
      exact List.mem_cons_self

/-! ## Where a packet comes from -/

section Packets

variable {ids : List NodeID} {miners : NodeSet} {r : Record} {dst : NodeID}
  {packet : QposPacket}

theorem mem_sends (h : (dst, packet) ∈ sends ids e) :
    (∃ set, e = .multicast set packet ∧ dst ∈ set) ∨ e = .broadcast packet := by
  cases e with
  | sign header => cases h
  | multicast set packet' =>
      obtain ⟨dst', hdst', heq⟩ := List.mem_map.mp h
      cases heq
      exact .inl ⟨set, rfl, (List.mem_filter.mp hdst').2⟩
  | broadcast packet' =>
      obtain ⟨dst', hdst', heq⟩ := List.mem_map.mp h
      cases heq
      exact .inr rfl
  | sealGenerated block isOurs => cases h

theorem mem_send {id : NodeID} {set : NodeSet} {packet' : QposPacket}
    (h : send id packet' = .multicast set packet) (hdst : dst ∈ set) :
    packet = packet' ∧ id = dst := by
  cases h
  rcases mem_insert_iff.mp hdst with heq | hmem
  · exact ⟨rfl, heq⟩
  · exact absurd hmem Std.ExtTreeSet.not_mem_empty

/-- A packet is addressed to another node, and some effect of the step emits it. -/
theorem emits_of_packet (h : ⟨src, dst, packet⟩ ∈ (network P ids miners).packets r) :
    r.node = src ∧ dst ≠ src ∧ dst ∈ ids ∧ ∃ e, Emits P src r.before r.input e ∧
      ((∃ set, e = .multicast set packet ∧ dst ∈ set) ∨ e = .broadcast packet) := by
  obtain ⟨hsrc, hne, hids, e, he, hsends⟩ := Protocol.mem_packets.mp h
  dsimp only at hsrc
  subst hsrc
  exact ⟨rfl, hne, hids, e, emits_of_mem he, mem_sends hsends⟩

/-- A packet that a node handles was sent by an earlier step of its source. -/
theorem sent_of_interpret {w : World} {i : NodeID} {rand : Nat}
    (hprov : (network P ids miners).Provenance w)
    (h : (network P ids miners).Enabled w i (.interpret src packet now rand)) :
    ∃ r ∈ w.trace, ⟨src, i, packet⟩ ∈ (network P ids miners).packets r := by
  generalize hinput : Input.interpret src packet now rand = input at h
  cases h with
  | ofLocal _ hlocal =>
      rw [← hinput] at hlocal
      cases hlocal
  | ofPacket reading hp =>
      cases hinput
      exact hprov.sent _ hp

/-- A proposal in flight was made by its source, with its signature. -/
theorem proposes_of_packet {view : UInt32} {sig : Signature} {block : Rlp}
    (h : ⟨src, dst, .blockVote view sig block⟩ ∈ (network P ids miners).packets r) :
    r.node = src ∧ ∃ header, r.before.proposes P r.input = some header ∧
      BlockHeader.ofBlock P block = some header ∧
      sig = P.sign src (header.hashWithoutSeal P) ∧ view = wire r.before.currentView := by
  obtain ⟨hsrc, -, -, e, hemits, hto⟩ := emits_of_packet h
  refine ⟨hsrc, ?_⟩
  cases hemits with
  | blockVote hprop hheader =>
      rcases hto with ⟨set, heq, -⟩ | heq
      · cases heq
        exact ⟨_, hprop, hheader, rfl, rfl⟩
      · cases heq
  | _ =>
      rcases hto with ⟨set, heq, -⟩ | heq
      all_goals cases heq

/-- An answer in flight was given by its source, with its signature, to the node
it is addressed to. -/
theorem answers_of_packet {vote : Bool} {view : UInt32} {sig : Signature} {idrecv : NodeID}
    (h : ⟨src, dst, .blockVoteAck vote view sig idrecv⟩ ∈ (network P ids miners).packets r) :
    r.node = src ∧ ∃ header, r.before.answers P r.input = some (dst, header, vote) ∧
      sig = P.sign src (header.hashWithoutSeal P) := by
  obtain ⟨hsrc, -, -, e, hemits, hto⟩ := emits_of_packet h
  refine ⟨hsrc, ?_⟩
  cases hemits with
  | blockVoteAck hans =>
      rcases hto with ⟨set, heq, hdst⟩ | heq
      · obtain ⟨hpacket, rfl⟩ := mem_send heq hdst
        cases hpacket
        exact ⟨_, hans, rfl⟩
      · cases heq
  | _ =>
      rcases hto with ⟨set, heq, -⟩ | heq
      all_goals cases heq

end Packets

/-! ## Networks to evaluate on -/

/-- The two of them as a network. -/
def twoNodes : Protocol NodeID Qpos Input Effect QposPacket (Int × Nat) :=
  network Prims.sample [1, 2] twoMiners

/-- The three of them as a network. -/
def threeNodes : Protocol NodeID Qpos Input Effect QposPacket (Int × Nat) :=
  network Prims.sample [1, 2, 3] threeMiners

/-- Node 1 is elected by node 3 and puts block 1 to the vote.  Its request for
votes to node 2 is still in flight, in front of the two proposals. -/
def proposalRun : List (Action NodeID Input (Int × Nat)) :=
  [.input 1 (.reportBlockSelf 0), .input 1 (.tick 20000000), .deliver 1 (20000001, 0),
    .deliver 1 (20000002, 0), .input 1 (.generateSeal (.sampleBlock 1 5)),
    .input 1 (.tick 20000003)]

/-- The hash of block 1 with the given timestamp. -/
def sampleHash (timestamp : Nat) : H256 :=
  (BlockHeader.sample 1 timestamp).hashWithoutSeal Prims.sample

/-- The signature of node `id` over that hash. -/
def sampleSign (timestamp : Nat) (id : NodeID) : Signature :=
  Prims.sample.sign id (sampleHash timestamp)

/-- Block 1 with the signatures of the given nodes. -/
def signedBlock (timestamp : Nat) (signers : List NodeID) : Rlp :=
  .list [(BlockHeader.sample 1 timestamp).rlpWithoutSeal, .list [], .list [],
    .list [.ofHash 64 (1 : NodeID),
      .list (signers.map fun id => signItem (id, sampleSign timestamp id))]]

end Qpos

end CppSwc
