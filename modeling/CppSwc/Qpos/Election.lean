import CppSwc.Lib.Quorum
import CppSwc.Qpos.World

/-!
# Leaders

A node that hears nothing stands for the next view and leads once, with itself,
more than half of the miners have granted it.  A grant is meant as one vote per
view, since the voter takes over the view it grants.  Five things break that.
`onHeart` takes over lower views.  `onVote` grants without taking over the view if
the voter has a higher block number, and lets a leader take over a higher view
and go on leading.  `qposVoteAck` carries no view, so `onVoteAck` also counts
grants for an older request.  And a view has 32 bits on the wire.

Along the runs without these, at most one node leads in a view.
-/

namespace CppSwc

open Lib

namespace Qpos

/-! ## Requests and grants -/

/-- The view for which the input makes the node ask for votes. -/
def stands (s : Qpos) : Input → Option Nat
  | .tick now =>
      if s.aborted = false ∧ s.isLeader = false ∧ s.voteTimeOut ≤ now then
        some (s.currentView + 1)
      else none
  | _ => none

/-- The candidate and the view that the node grants on the input. -/
def grants (s : Qpos) : Input → Option (NodeID × Nat)
  | .interpret src (.vote view _) _ _ =>
      if s.aborted = false ∧ src ∈ s.miners ∧ s.currentView < view.toNat then
        some (src, view.toNat)
      else none
  | _ => none

/-- The fields of a node that elections are about. -/
structure Election where
  currentView : Nat
  isLeader : Bool
  voted : NodeSet
  miners : NodeSet
  nodes : NodeSet

/-- These fields of a node. -/
def election (s : Qpos) : Election :=
  { currentView := s.currentView, isLeader := s.isLeader, voted := s.voted
    miners := s.miners, nodes := s.nodes }

/-- What an input does to them. -/
inductive ElectionCase (me : NodeID) (s : Qpos) (input : Input) : Election → Prop where
  | keep : ElectionCase me s input s.election
  | stand {view : Nat} : s.stands input = some view →
      ElectionCase me s input { s.election with currentView := view, voted := ∅ }
  | heart {src : NodeID} {view : UInt32} {now : Int} {rand : Nat} :
      input = .interpret src (.heart view) now rand → s.aborted = false → src ∈ s.miners →
      ElectionCase me s input { s.election with
        currentView := view.toNat
        isLeader := s.isLeader && !(decide (s.currentView < view.toNat) ||
          decide (view.toNat = s.currentView) && decide (me < src)) }
  | adopt {src : NodeID} {view : Nat} : s.grants input = some (src, view) →
      ElectionCase me s input { s.election with currentView := view }
  | ack {src : NodeID} {now : Int} {rand : Nat} :
      input = .interpret src (.voteAck true) now rand → s.aborted = false → src ∈ s.miners →
      ElectionCase me s input { s.election with
        voted := s.voted.insert src
        isLeader := decide (s.miners.size / 2 < 1 + (s.voted.insert src).size) || s.isLeader }
  | report {miners : NodeSet} {isLeader : Bool} : miners = s.miners ∨ miners = s.nodes →
      (isLeader = true → miners.size ≤ 1 ∨ s.isLeader = true) →
      ElectionCase me s input { s.election with miners := miners, isLeader := isLeader }
  | nodes {nodes : NodeSet} : input = .getMinerList nodes →
      ElectionCase me s input { s.election with nodes := nodes }

section Step

variable {P : Prims} {self src : NodeID} {now : Int} {s t : Qpos}

theorem election_of_office (h : s.office = t.office) : s.election = t.election := by
  simp only [office, Office.mk.injEq] at h
  simp only [election, Election.mk.injEq]
  exact ⟨h.1, h.2.1, h.2.2.1, h.2.2.2.2.2.2.1, h.2.2.2.2.2.2.2.1⟩

theorem electionCase_tick (hab : s.aborted = false) :
    ElectionCase self s (.tick now) (s.tick P self now).1.election := by
  rw [election_of_office tick_office]
  simp only [voteTick]
  split
  · exact .keep
  · rename_i hdue
    split
    · exact .keep
    · rename_i hlead
      have hstands : s.stands (.tick now) = some (s.currentView + 1) := by
        have hle : s.voteTimeOut ≤ now := by omega
        simp [stands, hab, hlead, hle]
      exact .stand hstands

theorem electionCase_onVote {rand : Nat} {view number : UInt32} (hab : s.aborted = false)
    (hsrc : src ∈ s.miners) :
    ElectionCase self s (.interpret src (.vote view number) now rand)
      (s.onVote now rand src view number).1.election := by
  simp only [onVote]
  split
  · rename_i hhigher
    have hgrants : s.grants (.interpret src (.vote view number) now rand) =
        some (src, view.toNat) := by
      simp [grants, hab, hsrc, hhigher.1]
    exact .adopt hgrants
  · exact .keep

theorem electionCase_onVoteAck {rand : Nat} {vote : Bool} (hab : s.aborted = false)
    (hsrc : src ∈ s.miners) :
    ElectionCase self s (.interpret src (.voteAck vote) now rand)
      (s.onVoteAck src vote).1.election := by
  simp only [onVoteAck]
  cases vote with
  | false => exact .keep
  | true =>
      have hack : ElectionCase self s (.interpret src (.voteAck true) now rand)
          { s.election with
            voted := s.voted.insert src
            isLeader := decide (s.miners.size / 2 < 1 + (s.voted.insert src).size) ||
              s.isLeader } := .ack rfl hab hsrc
      simp only [Bool.not_true, Bool.false_eq_true, if_false, nodeCount]
      by_cases hmajority : s.miners.size / 2 < 1 + (s.voted.insert src).size
      · simpa [election, hmajority] using hack
      · simpa [election, hmajority] using hack

/-- The role `reportBlockSelf` gives a node.  Only a node without other miners is
made leader. -/
theorem election_reportRole (self : NodeID) (t : Qpos) : ∃ isLeader,
    (if t.miners.isEmpty = true ∨ (t.miners.size = 1 ∧ self ∈ t.miners) then
        { t with isLeader := true }
      else if self ∉ t.miners ∧ t.isLeader = true then { t with isLeader := false }
      else t).election = { t.election with isLeader := isLeader } ∧
    (isLeader = true → t.miners.size ≤ 1 ∨ t.isLeader = true) := by
  split
  · rename_i hfew
    refine ⟨true, rfl, fun _ => .inl ?_⟩
    rcases hfew with hempty | ⟨hone, -⟩
    · rw [Std.ExtTreeSet.isEmpty_iff] at hempty
      simp [hempty]
    · omega
  · split
    · exact ⟨false, rfl, nofun⟩
    · exact ⟨t.isLeader, rfl, .inr⟩

theorem electionCase_reportBlockSelf :
    ElectionCase self s (.reportBlockSelf now) (s.reportBlockSelf self now).election := by
  simp only [reportBlockSelf]
  split
  · obtain ⟨isLeader, heq, hlead⟩ := election_reportRole self { s with
      blockNumber := s.blockReport, blockNumberRecv := s.blockReport
      miners := s.nodes, nodesChanged := false }
    exact heq ▸ .report (.inr rfl) hlead
  · obtain ⟨isLeader, heq, hlead⟩ := election_reportRole self { s with
      blockNumber := s.blockReport, blockNumberRecv := s.blockReport }
    exact heq ▸ .report (.inl rfl) hlead

/-- Every input does one of these. -/
theorem electionCase_handle (P : Prims) (self : NodeID) (s : Qpos) (input : Input) :
    ElectionCase self s input (s.handle P self input).1.election := by
  simp only [handle]
  cases hab : s.aborted with
  | true => exact .keep
  | false =>
      simp only [Bool.false_eq_true, if_false]
      cases input with
      | tick now => exact electionCase_tick hab
      | interpret src packet now rand =>
          by_cases hsrc : src ∈ s.miners
          · simp only [interpret, hsrc, not_true_eq_false, if_false]
            cases packet with
            | blockVote view sig block =>
                rw [election_of_office (onBlockVote_office view sig block)]
                exact .keep
            | blockVoteAck vote view sig idrecv =>
                rw [election_of_office (onBlockVoteAck_office vote view sig)]
                exact .keep
            | vote view number => exact electionCase_onVote hab hsrc
            | voteAck vote => exact electionCase_onVoteAck hab hsrc
            | heart view => exact .heart rfl hab hsrc
            | broadBlock block =>
                dsimp only
                simp only [onBroadBlock]
                split
                · exact .keep
                · dsimp only
                  split <;> exact .keep
          · simp only [interpret, hsrc, not_false_eq_true, if_true]
            exact .keep
      | reportBlock number force =>
          dsimp only
          simp only [reportBlock]
          split <;> exact .keep
      | reportBlockSelf now => exact electionCase_reportBlockSelf
      | generateSeal block => exact .keep
      | getMinerList nodes => exact .nodes rfl

end Step

/-! ## Orderly elections -/

/-- Node `i` has asked for votes for the view. -/
def Requested (w : World) (i : NodeID) (view : Nat) : Prop :=
  ∃ r ∈ w.trace, r.node = i ∧ r.before.stands r.input = some view

/-- The voter has granted the view to the candidate. -/
def Granted (w : World) (voter candidate : NodeID) (view : Nat) : Prop :=
  ∃ r ∈ w.trace, r.node = voter ∧ r.before.grants r.input = some (candidate, view)

/-- A packet that breaks none of the rules of an election: a heartbeat is not for
a lower view, a request for a higher view reaches no leader and no node with a
higher block number, and a grant answers the request for the current view. -/
def OrderlyPacket (w : World) (i src : NodeID) : QposPacket → Prop
  | .heart view => (w.node i).currentView ≤ view.toNat
  | .vote view number => (w.node i).currentView < view.toNat →
      (w.node i).isLeader = false ∧
        (w.node i).blockNumber ≤ max (w.node i).blockNumberRecv number.toNat
  | .voteAck true => ∃ r ∈ w.trace, r.node = src ∧
      r.before.grants r.input = some (i, (w.node i).currentView)
  | _ => True

/-- An input that keeps the miner list, stays below the views that fit the wire,
and is no packet that breaks a rule. -/
def Orderly (miners : NodeSet) (w : World) (i : NodeID) : Input → Prop
  | .tick now => ∀ view ∈ (w.node i).stands (.tick now), view < 2 ^ 32
  | .interpret src packet _ _ => (w.node i).aborted = false → src ∈ (w.node i).miners →
      OrderlyPacket w i src packet
  | .getMinerList nodes => nodes = miners
  | _ => True

instance (w : World) (i src : NodeID) : (packet : QposPacket) →
    Decidable (OrderlyPacket w i src packet)
  | .heart view => inferInstanceAs (Decidable ((w.node i).currentView ≤ view.toNat))
  | .vote _ _ => inferInstanceAs (Decidable (_ → _ ∧ _))
  | .voteAck true => inferInstanceAs (Decidable (∃ r ∈ w.trace, _ ∧ _))
  | .voteAck false => .isTrue trivial
  | .blockVote _ _ _ => .isTrue trivial
  | .blockVoteAck _ _ _ _ => .isTrue trivial
  | .broadBlock _ => .isTrue trivial

instance (miners : NodeSet) (w : World) (i : NodeID) : (input : Input) →
    Decidable (Orderly miners w i input)
  | .tick now => inferInstanceAs (Decidable (∀ view ∈ (w.node i).stands (.tick now), view < 2 ^ 32))
  | .interpret src packet _ _ => inferInstanceAs (Decidable (_ → _ → OrderlyPacket w i src packet))
  | .getMinerList nodes => inferInstanceAs (Decidable (nodes = miners))
  | .reportBlock _ _ => .isTrue trivial
  | .reportBlockSelf _ => .isTrue trivial
  | .generateSeal _ => .isTrue trivial

/-- The votes a node counts are for its last request, and a leader has a majority
for its view. -/
structure Mandate (miners : NodeSet) (w : World) (i : NodeID) (e : Election) : Prop where
  /-- The miner list is fixed. -/
  fixed : e.miners = miners ∧ e.nodes = miners
  /-- The votes are for the last request. -/
  voted : ∀ j ∈ e.voted, j ≠ i ∧ j ∈ miners ∧
    ∃ view, Granted w j i view ∧ ∀ view', Requested w i view' → view' ≤ view
  /-- A leader asked for its view and has a majority. -/
  leader : e.isLeader = true →
    Requested w i e.currentView ∧ miners.size / 2 < 1 + e.voted.size

/-- What holds along orderly runs.  Requests and grants are bounded by the view of
the node, so no node grants a view twice or grants one it has asked for. -/
structure Votes (miners : NodeSet) (w : World) : Prop where
  /-- A node has taken over every view it asked for. -/
  requested : ∀ i view, Requested w i view → view ≤ (w.node i).currentView ∧ view < 2 ^ 32
  /-- A voter has taken over every view it granted, and was asked for it. -/
  granted : ∀ j i view, Granted w j i view → view ≤ (w.node j).currentView ∧ Requested w i view
  /-- A voter grants a view once. -/
  unique : ∀ j i i' view, Granted w j i view → Granted w j i' view → i = i'
  /-- A candidate votes for itself only. -/
  own : ∀ j i view, Granted w j i view → ¬ Requested w j view
  /-- The roles are earned. -/
  mandate : ∀ i, Mandate miners w i (w.node i).election

section Run

variable {P : Prims} {ids : List NodeID} {miners : NodeSet} {w : World}
  {rest : List (Packet NodeID QposPacket)} {i : NodeID} {input : Input}

theorem requested_log {j : NodeID} {view : Nat} :
    Requested ((network P ids miners).log w rest i input) j view ↔
      Requested w j view ∨ (j = i ∧ (w.node i).stands input = some view) := by
  constructor
  · rintro ⟨r, hr, hnode, hstands⟩
    rcases Protocol.mem_trace_log.mp hr with hr | rfl
    · exact .inl ⟨r, hr, hnode, hstands⟩
    · exact .inr ⟨hnode.symm, hstands⟩
  · rintro (⟨r, hr, hnode, hstands⟩ | ⟨rfl, hstands⟩)
    · exact ⟨r, Protocol.mem_trace_log.mpr (.inl hr), hnode, hstands⟩
    · exact ⟨_, Protocol.mem_trace_log.mpr (.inr rfl), rfl, hstands⟩

theorem granted_log {j c : NodeID} {view : Nat} :
    Granted ((network P ids miners).log w rest i input) j c view ↔
      Granted w j c view ∨ (j = i ∧ (w.node i).grants input = some (c, view)) := by
  constructor
  · rintro ⟨r, hr, hnode, hgrants⟩
    rcases Protocol.mem_trace_log.mp hr with hr | rfl
    · exact .inl ⟨r, hr, hnode, hgrants⟩
    · exact .inr ⟨hnode.symm, hgrants⟩
  · rintro (⟨r, hr, hnode, hgrants⟩ | ⟨rfl, hgrants⟩)
    · exact ⟨r, Protocol.mem_trace_log.mpr (.inl hr), hnode, hgrants⟩
    · exact ⟨_, Protocol.mem_trace_log.mpr (.inr rfl), rfl, hgrants⟩

/-- A candidate enters the view it asks for. -/
theorem currentView_of_stands {s : Qpos} {view : Nat} (h : s.stands input = some view) :
    s.currentView < view ∧ (s.handle P i input).1.currentView = view := by
  cases input with
  | tick now =>
      simp only [stands] at h
      split at h
      · rename_i hcond
        cases h
        refine ⟨Nat.lt_succ_self _, ?_⟩
        have htick : (s.tick P i now).1.currentView = (s.voteTick now).1.currentView :=
          currentView_of_office tick_office
        have hdue : ¬ now < s.voteTimeOut := by omega
        simp [handle, hcond.1, htick, voteTick, hdue, hcond.2.1]
      · cases h
  | _ => cases h

/-- In an orderly run a voter is no leader and enters the view it grants. -/
theorem currentView_of_grants {c : NodeID} {view : Nat}
    (hok : Orderly miners w i input) (h : (w.node i).grants input = some (c, view)) :
    (w.node i).currentView < view ∧ (w.node i).isLeader = false ∧
      ((w.node i).handle P i input).1.currentView = view := by
  cases input with
  | interpret src packet now rand =>
      cases packet with
      | vote view' number =>
          simp only [grants] at h
          split at h
          · rename_i hcond
            cases h
            obtain ⟨hab, hsrc, hlt⟩ := hcond
            obtain ⟨hlead, hnumber⟩ := hok hab hsrc hlt
            refine ⟨hlt, hlead, ?_⟩
            simp only [handle, hab, Bool.false_eq_true, if_false, interpret, hsrc,
              not_true_eq_false, onVote]
            rw [if_pos ⟨hlt, hnumber⟩]
          · cases h
      | _ => cases h
  | _ => cases h

/-- In an orderly run no view decreases. -/
theorem currentView_le_log (hok : Orderly miners w i input) (j : NodeID) :
    (w.node j).currentView ≤ (((network P ids miners).log w rest i input).node j).currentView := by
  by_cases hj : j = i
  · subst hj
    rw [Protocol.log_node_self]
    refine (currentView_le_step_iff (w.node j) input).mpr ?_
    intro hstale
    cases input with
    | interpret src packet now rand =>
        cases packet with
        | heart view =>
            obtain ⟨hab, hsrc, hlt⟩ := hstale
            have hle : (w.node j).currentView ≤ view.toNat := hok hab hsrc
            omega
        | _ => exact hstale
    | _ => exact hstale
  · rw [Protocol.log_node_of_ne hj]

/-- A request for votes in flight was made by its source. -/
theorem stands_of_packet {src dst : NodeID} {view number : UInt32} {r : Record}
    (h : ⟨src, dst, .vote view number⟩ ∈ (network P ids miners).packets r) :
    r.node = src ∧ ∃ view', r.before.stands r.input = some view' ∧ view = wire view' := by
  obtain ⟨hsrc, -, -, e, hemits, hto⟩ := emits_of_packet h
  refine ⟨hsrc, ?_⟩
  cases hemits with
  | vote hinput hab hlead hdue =>
      rcases hto with ⟨set, heq, -⟩ | heq
      · cases heq
        exact ⟨_, by simp [hinput, stands, hab, hlead, hdue], rfl⟩
      · cases heq
  | _ =>
      rcases hto with ⟨set, heq, -⟩ | heq
      all_goals cases heq

/-- A view below `2 ^ 32` is granted as it was asked for. -/
theorem requested_of_grants (hprov : (network P ids miners).Provenance w)
    (hx : (network P ids miners).Enabled w i input) (hw : Votes miners w) {c : NodeID}
    {view : Nat} (h : (w.node i).grants input = some (c, view)) : Requested w c view := by
  cases input with
  | interpret src packet now rand =>
      cases packet with
      | vote view' number =>
          simp only [grants] at h
          split at h
          · cases h
            obtain ⟨r, hr, hp⟩ := sent_of_interpret hprov hx
            obtain ⟨hnode, view, hstands, rfl⟩ := stands_of_packet hp
            have hreq : Requested w c view := ⟨r, hr, hnode, hstands⟩
            have hlt := (hw.requested c view hreq).2
            rw [wire, UInt32.toNat_ofNat_of_lt' hlt]
            exact hreq
          · cases h
      | _ => cases h
  | _ => cases h

/-- A node does not stand and grant in one step. -/
theorem grants_of_stands {s : Qpos} {view : Nat} (h : s.stands input = some view) :
    s.grants input = none := by
  cases input with
  | tick now => rfl
  | _ => cases h

/-- The requests and grants of one more step fit those before. -/
theorem votes_log_grants (hprov : (network P ids miners).Provenance w)
    (hx : (network P ids miners).Enabled w i input) (hok : Orderly miners w i input)
    (hw : Votes miners w) :
    let w' := (network P ids miners).log w rest i input
    (∀ j view, Requested w' j view → view ≤ (w'.node j).currentView ∧ view < 2 ^ 32) ∧
    (∀ j c view, Granted w' j c view → view ≤ (w'.node j).currentView ∧ Requested w' c view) ∧
    (∀ j c c' view, Granted w' j c view → Granted w' j c' view → c = c') ∧
    (∀ j c view, Granted w' j c view → ¬ Requested w' j view) := by
  intro w'
  have hview : ∀ j, (w.node j).currentView ≤ (w'.node j).currentView := currentView_le_log hok
  have hself : (w'.node i).currentView = ((w.node i).handle P i input).1.currentView := by
    rw [Protocol.log_node_self]
    rfl
  refine ⟨?_, ?_, ?_, ?_⟩
  · intro j view hreq
    rcases requested_log.mp hreq with hreq | ⟨rfl, hstands⟩
    · obtain ⟨hle, hlt⟩ := hw.requested j view hreq
      exact ⟨hle.trans (hview j), hlt⟩
    · refine ⟨?_, ?_⟩
      · rw [hself, (currentView_of_stands hstands).2]
      · cases input with
        | tick now => exact hok view hstands
        | _ => cases hstands
  · intro j c view hgrant
    rcases granted_log.mp hgrant with hgrant | ⟨rfl, hgrants⟩
    · obtain ⟨hle, hreq⟩ := hw.granted j c view hgrant
      exact ⟨hle.trans (hview j), requested_log.mpr (.inl hreq)⟩
    · refine ⟨?_, requested_log.mpr (.inl (requested_of_grants hprov hx hw hgrants))⟩
      rw [hself, (currentView_of_grants hok hgrants).2.2]
  · intro j c c' view hgrant hgrant'
    rcases granted_log.mp hgrant with hold | ⟨rfl, hgrants⟩
    · rcases granted_log.mp hgrant' with hold' | ⟨rfl, hgrants'⟩
      · exact hw.unique j c c' view hold hold'
      · -- An old grant bounds the view from below, a new one from above.
        have hle := (hw.granted j c view hold).1
        have hlt := (currentView_of_grants (P := P) hok hgrants').1
        omega
    · rcases granted_log.mp hgrant' with hold' | ⟨-, hgrants'⟩
      · have hle := (hw.granted j c' view hold').1
        have hlt := (currentView_of_grants (P := P) hok hgrants).1
        omega
      · cases hgrants.symm.trans hgrants'
        rfl
  · intro j c view hgrant hreq
    rcases granted_log.mp hgrant with hold | ⟨rfl, hgrants⟩
    · rcases requested_log.mp hreq with hold' | ⟨rfl, hstands⟩
      · exact hw.own j c view hold hold'
      · have hle := (hw.granted j c view hold).1
        have hlt := (currentView_of_stands (P := P) (i := j) hstands).1
        omega
    · rcases requested_log.mp hreq with hold' | ⟨-, hstands⟩
      · have hle := (hw.requested j view hold').1
        have hlt := (currentView_of_grants (P := P) hok hgrants).1
        omega
      · rw [grants_of_stands hstands] at hgrants
        cases hgrants

/-- A step in which a node makes no request keeps its mandate. -/
theorem Mandate.log {j : NodeID} {e : Election} (h : Mandate miners w j e)
    (hnone : j = i → (w.node i).stands input = none) :
    Mandate miners ((network P ids miners).log w rest i input) j e := by
  refine ⟨h.fixed, ?_, ?_⟩
  · intro k hk
    obtain ⟨hne, hmem, view, hgrant, hlast⟩ := h.voted k hk
    refine ⟨hne, hmem, view, granted_log.mpr (.inl hgrant), ?_⟩
    intro view' hreq
    rcases requested_log.mp hreq with hreq | ⟨hji, hstands⟩
    · exact hlast view' hreq
    · rw [hnone hji] at hstands
      cases hstands
  · intro hlead
    obtain ⟨hreq, hmajority⟩ := h.leader hlead
    exact ⟨requested_log.mpr (.inl hreq), hmajority⟩

/-- A step that leaves the view of the node alone makes no request. -/
theorem stands_eq_none {s : Qpos}
    (h : (s.handle P i input).1.currentView = s.currentView) : s.stands input = none := by
  cases hstands : s.stands input with
  | none => rfl
  | some view =>
      obtain ⟨hlt, hview⟩ := currentView_of_stands (P := P) (i := i) hstands
      omega

/-- A counted grant is one of another miner for the last request. -/
theorem mandate_ack (hprov : (network P ids miners).Provenance w) (hw : Votes miners w)
    {src : NodeID} {now : Int} {rand : Nat}
    (hx : (network P ids miners).Enabled w i (.interpret src (.voteAck true) now rand))
    (hok : Orderly miners w i (.interpret src (.voteAck true) now rand))
    (hab : (w.node i).aborted = false) (hsrc : src ∈ (w.node i).miners) :
    Mandate miners w i { (w.node i).election with
      voted := (w.node i).voted.insert src
      isLeader := decide ((w.node i).miners.size / 2 < 1 + ((w.node i).voted.insert src).size) ||
        (w.node i).isLeader } := by
  have hmandate := hw.mandate i
  have hfixed : (w.node i).miners = miners := hmandate.fixed.1
  have hgrant : Granted w src i (w.node i).currentView := hok hab hsrc
  have hne : src ≠ i := by
    obtain ⟨r, hr, hp⟩ := sent_of_interpret hprov hx
    obtain ⟨-, hne, -⟩ := emits_of_packet hp
    exact hne.symm
  refine ⟨hmandate.fixed, ?_, ?_⟩
  · intro j hj
    rcases mem_insert_iff.mp hj with rfl | hj
    · refine ⟨hne, hfixed ▸ hsrc, _, hgrant, ?_⟩
      intro view hreq
      exact (hw.requested i view hreq).1
    · exact hmandate.voted j hj
  · intro hlead
    rw [Bool.or_eq_true, decide_eq_true_eq] at hlead
    rcases hlead with hmajority | hlead
    · rw [hfixed] at hmajority
      exact ⟨(hw.granted src i _ hgrant).2, hmajority⟩
    · obtain ⟨hreq, hmajority⟩ := hmandate.leader hlead
      refine ⟨hreq, ?_⟩
      have hle : (w.node i).voted.size ≤ ((w.node i).voted.insert src).size :=
        Std.ExtTreeSet.size_le_size_insert
      have hvoted : miners.size / 2 < 1 + (w.node i).voted.size := hmajority
      dsimp only
      omega

/-- One more step leaves the node that acts with a mandate for its role. -/
theorem mandate_log (hsize : 2 ≤ miners.size) (hprov : (network P ids miners).Provenance w)
    (hx : (network P ids miners).Enabled w i input) (hok : Orderly miners w i input)
    (hw : Votes miners w) :
    Mandate miners ((network P ids miners).log w rest i input) i
      ((w.node i).handle P i input).1.election := by
  have hmandate := hw.mandate i
  have hkeep : ∀ {e : Election}, Mandate miners w i e →
      ((w.node i).handle P i input).1.election = e → e.currentView = (w.node i).currentView →
      Mandate miners ((network P ids miners).log w rest i input) i e := by
    intro e he heq hview
    refine he.log fun _ => stands_eq_none (P := P) (i := i) ?_
    exact (congrArg Election.currentView heq).trans hview
  have hcase := electionCase_handle P i (w.node i) input
  generalize heq : ((w.node i).handle P i input).1.election = e at hcase
  cases hcase with
  | keep => exact hkeep hmandate heq rfl
  | stand hstands =>
      refine ⟨hmandate.fixed, ?_, ?_⟩
      · intro j hj
        exact absurd hj Std.ExtTreeSet.not_mem_empty
      · intro hlead
        have hfollower : (w.node i).isLeader = false := by
          cases input with
          | tick now =>
              simp only [stands] at hstands
              split at hstands
              · rename_i hcond
                exact hcond.2.1
              · cases hstands
          | _ => cases hstands
        exact absurd (hfollower.symm.trans hlead) Bool.false_ne_true
  | @heart src view now rand hinput hab hsrc =>
      subst hinput
      have hle : (w.node i).currentView ≤ view.toNat := hok hab hsrc
      have hsame : Mandate miners w i { (w.node i).election with
          currentView := view.toNat
          isLeader := (w.node i).isLeader && !(decide ((w.node i).currentView < view.toNat) ||
            decide (view.toNat = (w.node i).currentView) && decide (i < src)) } := by
        refine ⟨hmandate.fixed, hmandate.voted, ?_⟩
        intro hlead
        simp only [Bool.and_eq_true, Bool.not_eq_true', Bool.or_eq_false_iff,
          decide_eq_false_iff_not] at hlead
        have hview : view.toNat = (w.node i).currentView := by omega
        dsimp only
        rw [hview]
        exact hmandate.leader hlead.1
      exact hsame.log fun _ => rfl
  | @adopt _ view hgrants =>
      have hfollower := (currentView_of_grants (P := P) hok hgrants).2.1
      have hsame : Mandate miners w i { (w.node i).election with currentView := view } := by
        refine ⟨hmandate.fixed, hmandate.voted, ?_⟩
        intro hlead
        exact absurd (hfollower.symm.trans hlead) Bool.false_ne_true
      refine hsame.log fun _ => ?_
      cases hstands : (w.node i).stands input with
      | none => rfl
      | some view =>
          rw [grants_of_stands hstands] at hgrants
          cases hgrants
  | ack hinput hab hsrc =>
      subst hinput
      exact hkeep (mandate_ack hprov hw hx hok hab hsrc) heq rfl
  | report hminers hlead =>
      have hfixed : _ = miners := hminers.elim (·.trans hmandate.fixed.1) (·.trans hmandate.fixed.2)
      refine hkeep ⟨⟨hfixed, hmandate.fixed.2⟩, hmandate.voted, ?_⟩ heq rfl
      intro hleader
      rcases hlead hleader with hfew | hleader
      · rw [hfixed] at hfew
        omega
      · exact hmandate.leader hleader
  | nodes hinput =>
      subst hinput
      exact hkeep ⟨⟨hmandate.fixed.1, hok⟩, hmandate.voted, hmandate.leader⟩ heq rfl

/-- Along every orderly run requests, grants and roles fit together. -/
theorem votes (hsize : 2 ≤ miners.size)
    (h : (network P ids miners).system.Reach
      ((network P ids miners).Guard (Orderly miners)) w) : Votes miners w := by
  refine Protocol.invariant ?_ ?_ h
  · refine ⟨?_, ?_, ?_, ?_, ?_⟩
    · rintro i view ⟨r, hr, -⟩
      cases hr
    · rintro j i view ⟨r, hr, -⟩
      cases hr
    · rintro j i i' view ⟨r, hr, -⟩
      cases hr
    · rintro j i view ⟨r, hr, -⟩
      cases hr
    · intro i
      refine ⟨⟨rfl, rfl⟩, ?_, nofun⟩
      intro j hj
      exact absurd hj Std.ExtTreeSet.not_mem_empty
  · intro w rest i input hreach _ hx hok hw
    have hprov := Protocol.provenance hreach
    obtain ⟨hreq, hgrant, hunique, hown⟩ := votes_log_grants hprov hx hok hw
    refine ⟨hreq, hgrant, hunique, hown, ?_⟩
    intro j
    by_cases hj : j = i
    · subst hj
      rw [Protocol.log_node_self]
      exact mandate_log hsize hprov hx hok hw
    · rw [Protocol.log_node_of_ne hj]
      exact (hw.mandate j).log fun hji => absurd hji hj

/-- The voters of a leader, with itself, are a majority that voted for it in its
view. -/
theorem majority_of_leader (hw : Votes miners w) (hi : i ∈ miners)
    (hlead : (w.node i).isLeader = true) :
    ∃ Q, Majority (finset miners) Q ∧ ∀ j ∈ Q, Granted w j i (w.node i).currentView ∨
      (j = i ∧ Requested w i (w.node i).currentView) := by
  have hmandate := hw.mandate i
  obtain ⟨hreq, hmajority⟩ := hmandate.leader hlead
  have hself : i ∉ finset (w.node i).voted := by
    intro hmem
    exact (hmandate.voted i (mem_finset.mp hmem)).1 rfl
  refine ⟨insert i (finset (w.node i).voted), ⟨?_, ?_⟩, ?_⟩
  · intro j hj
    rcases Finset.mem_insert.mp hj with rfl | hj
    · exact mem_finset.mpr hi
    · exact mem_finset.mpr (hmandate.voted j (mem_finset.mp hj)).2.1
  · rw [Finset.card_insert_of_notMem hself, card_finset, card_finset]
    have hvoted : miners.size / 2 < 1 + (w.node i).voted.size := hmajority
    omega
  · intro j hj
    rcases Finset.mem_insert.mp hj with rfl | hj
    · exact .inr ⟨rfl, hreq⟩
    · left
      obtain ⟨-, -, view, hgrant, hlast⟩ := hmandate.voted j (mem_finset.mp hj)
      -- The last request is the one for the current view.
      have hle : (w.node i).currentView ≤ view := hlast _ hreq
      have hge := (hw.requested i view (hw.granted j i view hgrant).2).1
      have hview : view = (w.node i).currentView := by omega
      exact hview ▸ hgrant

end Run

/-- **Along every orderly run of at least two miners, two nodes that lead in the
same view are the same node.** -/
theorem one_leader_per_view (P : Prims) (ids : List NodeID) (miners : NodeSet)
    (hids : ∀ i ∈ ids, i ∈ miners) (hsize : 2 ≤ miners.size) {w : World}
    (h : (network P ids miners).system.Reach
      ((network P ids miners).Guard (Orderly miners)) w)
    {i j : NodeID} (hi : i ∈ ids) (hj : j ∈ ids)
    (hleadi : (w.node i).isLeader = true) (hleadj : (w.node j).isLeader = true)
    (hview : (w.node i).currentView = (w.node j).currentView) : i = j := by
  have hw := votes hsize h
  obtain ⟨Qi, hQi, hbacki⟩ := majority_of_leader hw (hids i hi) hleadi
  obtain ⟨Qj, hQj, hbackj⟩ := majority_of_leader hw (hids j hj) hleadj
  rw [← hview] at hbackj
  refine hQi.agree hQj (fun k c => Granted w k c (w.node i).currentView ∨
    (k = c ∧ Requested w c (w.node i).currentView)) ?_ hbacki hbackj
  intro k hk hk'
  rcases hk with hgrant | ⟨rfl, hreq⟩
  · rcases hk' with hgrant' | ⟨rfl, hreq'⟩
    · exact hw.unique k i j _ hgrant hgrant'
    · exact absurd hreq' (hw.own k i _ hgrant)
  · rcases hk' with hgrant' | ⟨rfl, -⟩
    · exact absurd hreq (hw.own k j _ hgrant')
    · rfl

/-- After `proposalRun` node 1 leads in view 1, and no other node does. -/
theorem one_leader_per_view_three :
    ∃ w, threeNodes.system.Reach (threeNodes.Guard (Orderly threeMiners)) w ∧
      (w.node 1).isLeader = true ∧ ∀ j ∈ [1, 2, 3], (w.node j).isLeader = true →
        (w.node j).currentView = (w.node 1).currentView → j = 1 := by
  have hrun : ∃ w, threeNodes.system.Reach (threeNodes.Guard (Orderly threeMiners)) w ∧
      (w.node 1).isLeader = true :=
    System.Reach.exists_of_check proposalRun (.init rfl) (by decide +kernel) (by decide +kernel)
  obtain ⟨w, hw, hlead⟩ := hrun
  have hall : [1, 2, 3].all threeMiners.contains = true := by decide +kernel
  refine ⟨w, hw, hlead, ?_⟩
  intro j hj hleadj hview
  exact one_leader_per_view Prims.sample [1, 2, 3] threeMiners (List.all_eq_true.mp hall)
    (by decide +kernel) hw hj List.mem_cons_self hleadj hlead hview

/-- Node 1 of two leads in view 1.  Node 2 stands for view 2, node 1 grants it,
takes over view 2 and goes on leading, and the grant makes node 2 leader too. -/
theorem two_leaders_in_one_view :
    ∃ w, twoNodes.system.Reach (twoNodes.Guard fun _ _ _ => True) w ∧
      ((w.node 1).isLeader && (w.node 2).isLeader &&
        (w.node 1).currentView == (w.node 2).currentView) = true :=
  System.Reach.exists_of_check
    [.input 1 (.tick 20000000), .deliver 0 (20000001, 0), .deliver 0 (20000002, 0),
      .input 2 (.tick 40000000), .deliver 0 (40000001, 0), .deliver 0 (40000002, 0)]
    (.init rfl) (by decide +kernel) (by decide +kernel)

end Qpos

end CppSwc
