import Mathlib
import CppSwc.P2p.Delivery
import CppSwc.P2p.Stages

/-!
# The handshake of two hosts

In every run of a handshake what an end has written is what its stage says, and what is on the
connection is what the other end has not read yet (`Handshakes.Inv`).  If both ends have
started sessions, then these are the ends of a `Link` whose capabilities have sent what they
send when they are made (`Handshakes.reach_link`).  If nothing fails, then the twelve reads and
writes of a handshake can be done in any order, and there is always one that can be done next
(`Handshakes.progress`).
-/

namespace CppSwc

open Lib RLPXFrameCoder

namespace Handshakes

variable {P : HandshakeCiphers} {ends : Side → HandshakeEnd} {ok : Side → Peering → Prop}
  {side : Side} {n m : ℕ} {h : RLPXHandshake} {extra : Bytes}

/-! ## What an end has written -/

theorem stage_session (side : Side) (n : ℕ) : (stage P ends side n).session = none := by
  match n with
  | 0 | 1 | 2 | 3 | 4 | _ + 5 => cases side <;> rfl

theorem stage_assertFailed (side : Side) (n : ℕ) :
    (stage P ends side n).assertFailed = false := by
  match n with
  | 0 | 1 | 2 | 3 | 4 | _ + 5 => cases side <;> rfl

theorem At.le (hat : At P ends ok side n h extra) : n ≤ 6 := by
  cases hat with
  | stage hn _ => omega
  | failed hn _ => exact hn
  | done _ _ => exact le_refl 6

theorem At.assertFailed (hat : At P ends ok side n h extra) : h.assertFailed = false := by
  cases hat with
  | stage _ _ => exact stage_assertFailed _ _
  | failed _ hfailed => exact hfailed.assertFailed
  | done _ _ => rfl

/-- An end that has no session fails when it is cancelled. -/
theorem At.cancel (hat : At P ends ok side n h extra) (hsession : h.session = none) :
    At P ends ok side n h.cancel [] ∧ extra = [] := by
  cases hat with
  | stage hn _ => exact ⟨.failed (by omega) ⟨rfl, stage_session _ _, stage_assertFailed _ _⟩, rfl⟩
  | failed hn hfailed => exact ⟨.failed hn ⟨rfl, hfailed.session, hfailed.assertFailed⟩, rfl⟩
  | done _ _ => cases hsession

/-- Only an end with a session has written more than its `Hello`. -/
theorem At.extra_eq_nil (hat : At P ends ok side n h extra) (hn : n < 6) : extra = [] := by
  cases hat with
  | stage _ _ => rfl
  | failed _ _ => rfl
  | done _ _ => omega

theorem written_of_le (side : Side) (hn : 3 ≤ n) : written P ends side n = total P ends side := by
  obtain ⟨k, rfl⟩ := Nat.exists_eq_add_of_le' hn
  cases side <;> rfl

theorem written_prefix (side : Side) (n : ℕ) : written P ends side n <+: total P ends side := by
  match n with
  | 0 => exact List.nil_prefix
  | 1 =>
      cases side with
      | left => exact List.prefix_append _ _
      | right => exact List.nil_prefix
  | 2 => cases side <;> exact List.prefix_append _ _
  | n + 3 => exact ⟨[], by rw [List.append_nil, written_of_le side (Nat.le_add_left 3 n)]⟩

/-- The bytes that an end reads next are those of the whole that the other one writes. -/
theorem At.take_drop (hat : At P ends ok side n h extra) {a k : ℕ}
    (hle : a + k ≤ (written P ends side n ++ extra).length) (htotal : a + k ≤ (total P ends side).length) :
    ((written P ends side n ++ extra).drop a).take k = ((total P ends side).drop a).take k := by
  by_cases hn : n < 6
  · obtain ⟨rest, hrest⟩ := written_prefix (P := P) side n
    rw [hat.extra_eq_nil hn, List.append_nil] at hle ⊢
    rw [← hrest, List.drop_append_of_le_length (by omega), List.take_append_of_le_length]
    rw [List.length_drop]
    omega
  · rw [written_of_le side (by omega), List.drop_append_of_le_length (by omega),
      List.take_append_of_le_length]
    rw [List.length_drop]
    omega

theorem consumed_le_total (hproper : Proper P ends) (hn : n ≤ 5)
    (hcoder : 4 ≤ n → (coder P ends side).isSome) :
    consumed P ends side (n + 1) ≤ (total P ends side.other).length := by
  have hframe : 4 ≤ n → 32 ≤ (frame P ends side.other).length := by
    intro h
    obtain ⟨w, c, io, hcoders⟩ := exists_coders hproper (hcoder h)
    have := (hcoders side.other).length
    omega
  have hauth := auth_length hproper
  have hack := ack_length hproper
  rw [total, List.length_append]
  cases side with
  | left =>
      change _ ≤ (ack P ends).length + (frame P ends .right).length
      match n, hn with
      | 0, _ | 1, _ => exact Nat.zero_le _
      | 2, _ | 3, _ => exact hack ▸ Nat.le_add_right _ _
      | 4, _ => exact hack ▸ Nat.add_le_add_left (hframe (le_refl 4)) 210
      | 5, _ => exact hack ▸ le_refl _
  | right =>
      change _ ≤ (auth P ends).length + (frame P ends .left).length
      match n, hn with
      | 0, _ => exact Nat.zero_le _
      | 1, _ | 2, _ | 3, _ => exact hauth ▸ Nat.le_add_right _ _
      | 4, _ => exact hauth ▸ Nat.add_le_add_left (hframe (le_refl 4)) 307
      | 5, _ => exact hauth ▸ le_refl _

/-- An end that is as far as the other one has written what that one reads next. -/
theorem consumed_le_written (hproper : Proper P ends) (hn : n ≤ 5) (hm : n ≤ m)
    (hcoder : 4 ≤ n → (coder P ends side).isSome) :
    consumed P ends side (n + 1) ≤ (written P ends side.other m).length := by
  by_cases hlate : 3 ≤ m
  · rw [written_of_le side.other hlate]
    exact consumed_le_total hproper hn hcoder
  · have hauth := auth_length hproper
    have hack := ack_length hproper
    obtain rfl | ⟨rfl, rfl⟩ | ⟨rfl, rfl⟩ | ⟨rfl, rfl⟩ :
        n = 0 ∨ n = 2 ∧ m = 2 ∨ n = 1 ∧ m = 1 ∨ n = 1 ∧ m = 2 := by omega
    · cases side <;> exact Nat.zero_le _
    all_goals cases side
    all_goals first | exact Nat.zero_le _ | exact hauth.ge | exact hack.ge

/-! ## Runs -/

variable {l l' : Handshakes} {stages : Side → ℕ} {extras : Side → Bytes}

variable (P ends ok) in
/-- Each end is at a stage, and the connection has what the other end has not read yet. -/
structure Inv (stages : Side → ℕ) (extras : Side → Bytes) (l : Handshakes) : Prop where
  at_ : ∀ side, At P ends ok side (stages side) (l.handshake side) (extras side)
  le : ∀ side, consumed P ends side.other (stages side.other) ≤
    (written P ends side (stages side) ++ extras side).length
  wire : ∀ side, l.wire side = (written P ends side (stages side) ++ extras side).drop
    (consumed P ends side.other (stages side.other))

theorem inv_initial : Inv P ends ok (fun _ => 0) (fun _ => []) (initial P ends) where
  at_ _ := .stage (by decide) nofun
  le side := by cases side <;> exact Nat.zero_le _
  wire side := by cases side <;> rfl

/-- One end goes on: it reads, and it writes. -/
theorem Inv.change (hinv : Inv P ends ok stages extras l) (side : Side) {h : RLPXHandshake}
    {out : Bytes} {need n : ℕ} {extra : Bytes} (hat : At P ends ok side n h extra)
    (hneed : need ≤ (l.wire side.other).length)
    (hconsumed : consumed P ends side (stages side) + need = consumed P ends side n)
    (hwritten : written P ends side (stages side) ++ extras side ++ out =
      written P ends side n ++ extra) :
    Inv P ends ok (Function.update stages side n) (Function.update extras side extra)
      (update side (h, out)
        { l with wire := Function.update l.wire side.other ((l.wire side.other).drop need) }) := by
  have hle := hinv.le side
  have hleOther := hinv.le side.other
  have hwire := hinv.wire side
  have hwireOther := hinv.wire side.other
  rw [Side.other_other] at hleOther hwireOther
  rw [hwireOther, List.length_drop] at hneed
  refine ⟨fun s => ?_, fun s => ?_, fun s => ?_⟩
  · rcases Side.eq_or side s with rfl | rfl
    · simpa only [update, Function.update_self] using hat
    · simpa only [update, Function.update_of_ne side.other_ne] using hinv.at_ side.other
  · rcases Side.eq_or side s with rfl | rfl
    · simp only [Function.update_self, Function.update_of_ne s.other_ne]
      rw [← hwritten, List.length_append]
      omega
    · simp only [Side.other_other, Function.update_self, Function.update_of_ne side.other_ne]
      omega
  · rcases Side.eq_or side s with rfl | rfl
    · simp only [update, Function.update_self, Function.update_of_ne s.other_ne,
        Function.update_of_ne s.other_ne.symm]
      rw [hwire, ← hwritten, ← List.drop_append_of_le_length hle]
    · simp only [update, Side.other_other, Function.update_self, Function.update_of_ne side.other_ne]
      rw [hwireOther, List.drop_drop, hconsumed]

/-- An end fails. -/
theorem Inv.cancel (hinv : Inv P ends ok stages extras l) (side : Side)
    (hsession : (l.handshake side).session = none) :
    Inv P ends ok stages extras (update side ((l.handshake side).cancel, []) l) := by
  obtain ⟨hat, hnil⟩ := (hinv.at_ side).cancel hsession
  have hchange := hinv.change side hat (Nat.zero_le _) (Nat.add_zero _)
    (show _ ++ [] = _ by rw [List.append_nil, hnil])
  have hextras : Function.update extras side [] = extras := by
    rw [← hnil, Function.update_eq_self]
  rwa [List.drop_zero, Function.update_eq_self, Function.update_eq_self, hextras] at hchange

/-- A read or a write ends. -/
theorem inv_finish (hproper : Proper P ends) (hinv : Inv P ends ok stages extras l) {side : Side}
    {peering : Peering} (hok : ok side peering) (hstep : step P l (.finish side peering) = some l') :
    ∃ extra, Inv P ends ok (Function.update stages side (stages side + 1))
        (Function.update extras side extra) l' ∧
      ((l'.handshake side).Failed →
        1024 < (hello P ends side.other).length ∨ (coder P ends side).isSome = false) := by
  rw [step] at hstep
  split at hstep
  · rename_i hcan
    obtain ⟨hwaiting, hneed⟩ := hcan
    cases hstep
    have hat := hinv.at_ side
    have hother := hinv.at_ side.other
    have hle := hinv.le side.other
    have hwire := hinv.wire side.other
    rw [Side.other_other] at hle hwire
    generalize hh : l.handshake side = h at hat hwaiting hneed
    generalize hn : stages side = n at hat hle hwire
    generalize he : extras side = extra at hat
    cases hat with
    | failed _ hfailed =>
        rw [hfailed.waiting] at hwaiting
        cases hwaiting
    | done _ _ => cases hwaiting
    | stage hn' hcoder =>
        have hconsumed := stage_need hproper hn' hcoder
        have htotal : consumed P ends side n + (stage P ends side n).need ≤
            (total P ends side.other).length := by
          rw [hconsumed]
          exact consumed_le_total hproper hn' hcoder
        have hio : (l.wire side.other).take (stage P ends side n).need =
            ((total P ends side.other).drop (consumed P ends side n)).take
              (stage P ends side n).need := by
          rw [hwire, List.length_drop] at hneed
          rw [hwire]
          exact hother.take_drop (by omega) htotal
        obtain ⟨extra, hat', hwritten, hfailed⟩ :=
          finish_stage hproper hn' hcoder hwaiting hok hio
        refine ⟨extra, ?_, ?_⟩
        · refine hinv.change side hat' hneed (by rwa [hn]) ?_
          rw [hn, he, List.append_nil]
          exact hwritten
        · simpa only [update, Function.update_self] using hfailed
  · cases hstep

/-- What an end waits for before it has a session. -/
theorem At.session_eq_none (hat : At P ends ok side n h extra) (hwaiting : h.waiting.isSome = true) :
    h.session = none := by
  cases hat with
  | stage _ _ => exact stage_session _ _
  | failed _ hfailed => exact hfailed.session
  | done _ _ => cases hwaiting

/-- The host of an end knows `ok` of the other one. -/
def Op.Knows (ok : Side → Peering → Prop) : Op → Prop
  | .finish side peering => ok side peering
  | _ => True

instance [∀ side peering, Decidable (ok side peering)] : ∀ op : Op, Decidable (op.Knows ok)
  | .finish side peering => inferInstanceAs (Decidable (ok side peering))
  | .error _ | .timeout _ => .isTrue trivial

theorem inv_reach (hproper : Proper P ends)
    (hreach : (system P ends).Reach (fun _ op => op.Knows ok) l) :
    ∃ stages extras, Inv P ends ok stages extras l := by
  refine hreach.invariant (I := fun l => ∃ stages extras, Inv P ends ok stages extras l) ?_ ?_
  · rintro _ rfl
    exact ⟨_, _, inv_initial⟩
  · rintro l op l' - ⟨stages, extras, hinv⟩ hok hstep
    cases op with
    | finish side peering =>
        obtain ⟨extra, hinv', -⟩ := inv_finish hproper hinv hok hstep
        exact ⟨_, _, hinv'⟩
    | error side =>
        change step P l (.error side) = some l' at hstep
        rw [step] at hstep
        split at hstep
        · rename_i hwaiting
          cases hstep
          exact ⟨_, _, hinv.cancel side ((hinv.at_ side).session_eq_none hwaiting)⟩
        · cases hstep
    | timeout side =>
        change step P l (.timeout side) = some l' at hstep
        rw [step] at hstep
        split at hstep
        · cases hstep
        · rename_i hsession
          cases hstep
          exact ⟨_, _, hinv.cancel side (Option.not_isSome_iff_eq_none.mp hsession)⟩

/-- The session that a host has started with another one. -/
theorem started_of_meet {host peer : HandshakeHost} {peering : Peering} {io : RLPXFrameCoder}
    {s : Session} (h : (host.meet peer P peering io).1 = .started s) :
    ({ m_io := io, m_capabilities := host.m_capabilities.negotiate peer.m_capabilities.caps } :
      Session).startAfter P.toCiphers
        (peering.greetings (host.m_capabilities.negotiate peer.m_capabilities.caps)) =
      (s, (host.meet peer P peering io).2) := by
  rw [HandshakeHost.meet] at h ⊢
  dsimp only at h ⊢
  split_ifs at h ⊢ with h₁ h₂ h₃ h₄
  all_goals cases h
  rfl

/-! ## What the capabilities send at once -/

/-- The capabilities of the hosts. -/
def capabilities (ends : Side → HandshakeEnd) (side : Side) : CapabilityMap :=
  (ends side).m_host.m_capabilities

/-- The capabilities of a session of an end. -/
def negotiated (ends : Side → HandshakeEnd) (side : Side) : List Capability :=
  (capabilities ends side).negotiate (capabilities ends side.other).caps

/-- What the capabilities of an end send when they are made. -/
def greetings (ends : Side → HandshakeEnd) (side : Side) (peering : Peering) : List Greeting :=
  peering.greetings (negotiated ends side)

/-- What the capabilities of an end send when they are made is of their own, each a list of bounded
length. -/
def Greets (ends : Side → HandshakeEnd) (side : Side) (peering : Peering) : Prop :=
  ∀ g ∈ greetings ends side peering, g.id < g.sender.messageCount ∧ g.data ≠ [] ∧
    RLP.ofBytes g.data = some g.data ∧ g.data.length + 1 < 2 ^ 24

instance (peering : Peering) : Decidable (Greets ends side peering) :=
  inferInstanceAs (Decidable (∀ g ∈ greetings ends side peering, _ ∧ _ ∧ _ ∧ _))

section Greetings

variable {C : Ciphers} {maps : Side → CapabilityMap} {io : Side → RLPXFrameCoder} {link : Link}
  {gs : List Greeting}

theorem sender_mem_of_mem_greetings {peering : Peering} {m_capabilities : List Capability}
    {g : Greeting} (h : g ∈ peering.greetings m_capabilities) : g.sender ∈ m_capabilities := by
  obtain ⟨c, hc, h⟩ := List.mem_flatMap.mp h
  obtain ⟨p, -, rfl⟩ := List.mem_map.mp h
  exact hc

/-- The capabilities of an end send packets. -/
theorem reach_sendAll (hreach : (Link.system C maps).Reach Link.Allowed link)
    (hopen : (link.session side).isOpen = true)
    (hfind : ∀ c ∈ (link.session side).m_capabilities,
      ((link.session side).m_capabilities.find? fun c' => c'.desc = c.desc) = some c)
    (hgs : ∀ g ∈ gs, g.sender ∈ (link.session side).m_capabilities ∧
      g.id < g.sender.messageCount ∧ g.data ≠ [] ∧ RLP.ofBytes g.data = some g.data ∧
        g.data.length + 1 < 2 ^ 24) :
    (Link.system C maps).Reach Link.Allowed
      { link.update side ((link.session side).sendAll C (gs.map Greeting.bytes)) with
        sent := Function.update link.sent side
          (link.sent side ++ gs.map Greeting.toCapPacket) } := by
  induction gs generalizing link with
  | nil =>
      have hsame : ({ link.update side ((link.session side).sendAll C []) with
          sent := Function.update link.sent side (link.sent side ++ []) } : Link) = link := by
        simp [Link.update, Session.sendAll]
      rw [List.map_nil, List.map_nil, hsame]
      exact hreach
  | cons g gs ih =>
      obtain ⟨⟨hsender, hid, hdata⟩, hrest⟩ := List.forall_mem_cons.mp hgs
      have hallowed : link.Allowed (.sealAndSend side g.toCapPacket) := by
        refine ⟨fun c hc hdesc => ?_, hdata⟩
        have hsame := hfind c hc
        rw [show c.desc = g.sender.desc from hdesc, hfind _ hsender] at hsame
        rw [← Option.some.inj hsame]
        exact hid
      have hstep : Link.step C link (.sealAndSend side g.toCapPacket) =
          some { link.update side ((link.session side).send C g.bytes) with
            sent := Function.update link.sent side (link.sent side ++ [g.toCapPacket]) } := by
        have hfound : ((link.session side).m_capabilities.find? fun c =>
            c.desc = g.toCapPacket.desc) = some g.sender := hfind _ hsender
        rw [Link.step, hfound]
        dsimp only
        rw [if_pos hopen]
        rfl
      have hsends := Session.sends_send (C := C) g.bytes (link.session side)
      have hsame := Session.sameEnd_send (C := C) g.bytes (link.session side)
      have hnext := ih (hreach.step hallowed hstep)
        (by simpa [Link.update] using hsame.isOpen.trans hopen)
        (by simpa [Link.update, hsends.capabilities] using hfind)
        (by simpa [Link.update, hsends.capabilities] using hrest)
      simpa [Link.update, Session.sendAll] using hnext

/-- An end is started after its capabilities have sent packets. -/
theorem reach_startAfter (side : Side) (hreach : (Link.system C maps).Reach Link.Allowed link)
    (hopen : (link.session side).isOpen = true) (hidle : (link.session side).reading = .idle)
    (hfind : ∀ c ∈ (link.session side).m_capabilities,
      ((link.session side).m_capabilities.find? fun c' => c'.desc = c.desc) = some c)
    (hgs : ∀ g ∈ gs, g.sender ∈ (link.session side).m_capabilities ∧
      g.id < g.sender.messageCount ∧ g.data ≠ [] ∧ RLP.ofBytes g.data = some g.data ∧
        g.data.length + 1 < 2 ^ 24) :
    (Link.system C maps).Reach Link.Allowed
      { link.update side ((link.session side).startAfter C gs) with
        sent := Function.update link.sent side
          (link.sent side ++ gs.map Greeting.toCapPacket) } := by
  have hsame := Session.sameEnd_sendAll (C := C) (gs.map Greeting.bytes) (link.session side)
  have hsent := reach_sendAll hreach hopen hfind hgs
  refine hsent.step (a := Link.Op.start side) trivial ?_
  change Link.step C _ (.start side) = _
  simp [Link.step, Link.update, hsame.reading, hidle, Session.startAfter]

/-- Two sessions that have been started, with what they have written. -/
theorem reach_started (hmirror : ∀ side, Mirrored (io side) (io side.other))
    {gs : Side → List Greeting}
    (hgs : ∀ side, ∀ g ∈ gs side, g.sender ∈ (maps side).negotiate (maps side.other).caps ∧
      g.id < g.sender.messageCount ∧ g.data ≠ [] ∧ RLP.ofBytes g.data = some g.data ∧
        g.data.length + 1 < 2 ^ 24)
    {f : Side → Session × Bytes}
    (hf : ∀ side, ((Link.initial maps io).session side).startAfter C (gs side) = f side) :
    (Link.system C maps).Reach Link.Allowed
      ⟨fun side => (f side).1, fun side => (f side).2,
        fun side => (gs side).map Greeting.toCapPacket, fun _ => []⟩ := by
  have hstart : (Link.system C maps).Reach Link.Allowed (Link.initial maps io) :=
    .init ⟨io, hmirror, rfl⟩
  have hleft := reach_startAfter .left hstart rfl rfl
    (fun c hc => CapabilityMap.find?_negotiate _ _ hc) (hgs .left)
  have hright := reach_startAfter .right hleft rfl rfl
    (fun c hc => CapabilityMap.find?_negotiate _ _ hc) (hgs .right)
  refine Eq.mp (congrArg _ ?_) hright
  have hother : ({ (Link.initial maps io).update .left
      (((Link.initial maps io).session .left).startAfter C (gs .left)) with
        sent := Function.update (Link.initial maps io).sent .left
          ((Link.initial maps io).sent .left ++ (gs .left).map Greeting.toCapPacket) } :
        Link).session .right = (Link.initial maps io).session .right := rfl
  rw [hother, hf, hf]
  simp only [Link.update]
  congr 1
  · funext side
    cases side <;> rfl
  · funext side
    cases side <;> rfl
  · funext side
    cases side <;> rfl

end Greetings

theorem consumed_six (hproper : Proper P ends) (side : Side) :
    consumed P ends side 6 = (total P ends side.other).length := by
  rw [total, List.length_append]
  cases side with
  | left => exact congrArg (· + _) (ack_length hproper).symm
  | right => exact congrArg (· + _) (auth_length hproper).symm

/-- The coders with which sessions begin. -/
theorem exists_io (hproper : Proper P ends) :
    ∃ io : Side → RLPXFrameCoder, (∀ side, Mirrored (io side) (io side.other)) ∧
      ∀ side c, coderHello P ends side = some c → c = io side := by
  by_cases hcoder : ∃ side, (coder P ends side).isSome
  · obtain ⟨side, hcoder⟩ := hcoder
    obtain ⟨w, c, io, hcoders⟩ := exists_coders hproper hcoder
    refine ⟨io, fun side => (hcoders side).mirrored, fun side c' hc' => ?_⟩
    exact Option.some.inj (hc'.symm.trans (hcoders side).coderHello_eq)
  · refine ⟨fun _ => ⟨0, 0, 0, 0, 0, [], []⟩, fun _ => ⟨rfl, rfl, rfl, rfl⟩, fun side c hc => ?_⟩
    rw [not_exists] at hcoder
    have hnone := Option.not_isSome_iff_eq_none.mp (hcoder side)
    rw [coderHello, coderHeader, coderWritten, hnone] at hc
    cases hc

/-- An end that has a session. -/
theorem At.of_session (hat : At P ends ok side n h extra) {p : PeerSession}
    (hp : h.session = some p) : n = 6 ∧ ∃ peering c, ok side peering ∧
      coderHello P ends side = some c ∧ h = (settled P ends side peering c).1 ∧
        extra = (settled P ends side peering c).2 := by
  cases hat with
  | stage _ _ =>
      rw [stage_session] at hp
      cases hp
  | failed _ hfailed =>
      rw [hfailed.session] at hp
      cases hp
  | done hok hc => exact ⟨rfl, _, _, hok, hc, rfl, rfl⟩

/-- Ciphers for runs on fixed inputs. -/
def sampleCiphers : HandshakeCiphers where
  toCiphers :=
    { Link.sampleCiphers with agree := fun secret pub => some (secret ^^^ pub.setWidth 256) }
  IsSecret _ := True
  toPublic secret := secret.setWidth 512
  sign secret hash := (secret ^^^ hash).setWidth 520
  recover sig hash := (sig.setWidth 256 ^^^ hash).setWidth 512
  encryptECIES random key _ plain := bigEndian 64 key.toNat ++ plain ++ bigEndian 49 random
  decryptECIES secret _ cipher :=
    if cipher.take 64 = bigEndian 64 (secret.setWidth 512).toNat ∧ 113 ≤ cipher.length then
      some ((cipher.drop 64).take (cipher.length - 113))
    else none
  agree_comm a b _ _ := by
    change some (a ^^^ (b.setWidth 512).setWidth 256) = some (b ^^^ (a.setWidth 512).setWidth 256)
    rw [BitVec.setWidth_setWidth_of_le _ (by decide), BitVec.setWidth_setWidth_of_le _ (by decide),
      BitVec.setWidth_eq, BitVec.setWidth_eq, BitVec.xor_comm]
  recover_sign secret hash _ := by
    rw [BitVec.setWidth_setWidth_of_le _ (by decide), BitVec.setWidth_eq, BitVec.xor_assoc,
      BitVec.xor_self, BitVec.xor_zero]
  decrypt_encrypt random secret mac plain _ _ := by
    have hlength : (bigEndian 64 (secret.setWidth 512).toNat).length = 64 := bigEndian_length _ _
    have hall : (bigEndian 64 (secret.setWidth 512).toNat ++ (plain ++ bigEndian 49 random)).length =
        113 + plain.length := by
      rw [List.length_append, List.length_append, hlength, bigEndian_length]
      omega
    rw [List.append_assoc, List.take_left' hlength, List.drop_left' hlength, hall,
      Nat.add_sub_cancel_left, List.take_left, if_pos ⟨rfl, Nat.le_add_right _ _⟩]
  encrypt_length random secret mac plain _ _ := by
    simp only [List.length_append, bigEndian_length]
    omega

theorem caps_fit_of_all {caps : List CapDesc} (h : (caps.all fun d =>
      ((ofLex d).1.toList.all fun c => decide (c.toNat < 256)) &&
        decide ((ofLex d).2 < 2 ^ 256)) = true) :
    ∀ d ∈ caps, (∀ c ∈ (ofLex d).1.toList, c.toNat < 256) ∧ (ofLex d).2 < 2 ^ 256 := by
  simpa only [List.all_eq_true, Bool.and_eq_true, decide_eq_true_eq] using h

theorem sample_caps_fit (side : Side) : ∀ d ∈ (Link.sampleCapabilities side).caps,
    (∀ c ∈ (ofLex d).1.toList, c.toNat < 256) ∧ (ofLex d).2 < 2 ^ 256 :=
  caps_fit_of_all (by cases side <;> decide +kernel)

/-- Two hosts with capabilities in common. -/
def sampleEnd (side : Side) : HandshakeEnd where
  m_host :=
    { m_alias := if side = .left then 11 else 12
      m_clientVersion := [1, 2, 3]
      m_capabilities := Link.sampleCapabilities side
      listenPort := 30303
      caps_fit := sample_caps_fit side }
  m_ecdheLocal := if side = .left then 13 else 14
  m_nonce := if side = .left then 15 else 16
  random := 0

theorem sample_proper : Proper sampleCiphers sampleEnd where
  alias_ _ := trivial
  ecdhe _ := trivial
  hello side := by cases side <;> decide +kernel

/-- A peer that is wanted, and to whom each capability sends a packet. -/
def samplePeering : Peering where
  isUnexpected := false
  isDuplicate := false
  peerSlotsAvailable := true
  newPeerCapability d := if d = toLex ("eth", 63) then [(0, [0xc1, 0x3f])] else [(0, [0xc0])]

/-- The ends do their steps in turn. -/
def sampleOps : List Op :=
  [.left, .right, .left, .right, .right, .left, .left, .right, .right, .left, .left, .right].map
    (Op.finish · samplePeering)

/-- The session of an end, if it has been started. -/
def startedSession (l : Handshakes) (side : Side) : Option Session :=
  match (l.handshake side).session with
  | some (.started s) => some s
  | _ => none

/-- In every run of a handshake an end starts a session with the host whose identity it has been
told, or that it has been called by, and with what that host has sent of itself.  No assertion
fails.  Both sessions are the ends of a link with coders that fit each other, and what they have
put on the connection is the packets that their capabilities have sent when they were made, and
a ping. -/
theorem reach_link (hproper : Proper P ends) :
    ∃ io : Side → RLPXFrameCoder, (∀ side, Mirrored (io side) (io side.other)) ∧
      ∀ (ok : Side → Peering → Prop) (l : Handshakes),
        (system P ends).Reach (fun _ op => op.Knows ok) l →
          (∀ side, (l.handshake side).assertFailed = false ∧
            ∀ p, (l.handshake side).session = some p → (l.handshake side).m_remote =
              (ends side.other).m_host.id P ∧ ∃ peering, ok side peering ∧
                p = ((ends side).m_host.meet (ends side.other).m_host P peering (io side)).1) ∧
          ((∀ side peering, ok side peering → Greets ends side peering) →
            ∀ s : Side → Session,
              (∀ side, (l.handshake side).session = some (.started (s side))) →
                ∃ peering : Side → Peering, (∀ side, ok side (peering side) ∧
                  .started (s side) = ((ends side).m_host.meet (ends side.other).m_host P
                    (peering side) (io side)).1) ∧
                  (Link.system P.toCiphers (capabilities ends)).Reach Link.Allowed
                    ⟨s, l.wire,
                      fun side => (greetings ends side (peering side)).map Greeting.toCapPacket,
                      fun _ => []⟩) := by
  obtain ⟨io, hmirror, hio⟩ := exists_io hproper
  refine ⟨io, hmirror, fun ok l hreach => ?_⟩
  obtain ⟨stages, extras, hinv⟩ := inv_reach hproper hreach
  refine ⟨fun side => ⟨(hinv.at_ side).assertFailed, fun p hp => ?_⟩, fun hgreets s hs => ?_⟩
  · obtain ⟨-, peering, c, hok, hc, hover, -⟩ := (hinv.at_ side).of_session hp
    rw [hover] at hp ⊢
    rw [← hio side c hc]
    exact ⟨rfl, peering, hok, (Option.some.inj hp).symm⟩
  · have hside : ∀ side, ∃ peering, stages side = 6 ∧ ok side peering ∧
        .started (s side) = ((ends side).m_host.meet (ends side.other).m_host P
          peering (io side)).1 ∧
        ((Link.initial (capabilities ends) io).session side).startAfter P.toCiphers
          (greetings ends side peering) = (s side, extras side) := by
      intro side
      obtain ⟨hsix, peering, c, hok, hc, hover, hextra⟩ := (hinv.at_ side).of_session (hs side)
      have hstarted := hs side
      rw [hover] at hstarted
      rw [hextra, hio side c hc] at *
      have hmeet := Option.some.inj hstarted
      exact ⟨peering, hsix, hok, hmeet.symm, started_of_meet hmeet⟩
    choose peering hsix hok hmeet hstarted using hside
    have hwire : ∀ side, l.wire side = extras side := by
      intro side
      have hconsumed := consumed_six hproper side.other
      rw [Side.other_other] at hconsumed
      rw [hinv.wire side, hsix side, hsix side.other, hconsumed, written_of_le side (by decide),
        List.drop_left]
    refine ⟨peering, fun side => ⟨hok side, hmeet side⟩, ?_⟩
    rw [show l.wire = extras from funext hwire]
    exact reach_started hmirror (f := fun side => (s side, extras side))
      (fun side g hg => ⟨sender_mem_of_mem_greetings hg, hgreets side _ (hok side) g hg⟩) hstarted

theorem reach_link_sample : ∃ (s : Side → Session) (wire : Side → Bytes),
    (Link.system sampleCiphers.toCiphers (capabilities sampleEnd)).Reach Link.Allowed
      ⟨s, wire, fun _ => [⟨toLex ("eth", 63), 0, [0xc1, 0x3f]⟩, ⟨toLex ("qpos", 1), 0, [0xc0]⟩],
        fun _ => []⟩ := by
  obtain ⟨io, -, hall⟩ := reach_link sample_proper
  have hstart : (system sampleCiphers sampleEnd).Reach (fun _ op => op.Knows fun side peering =>
      greetings sampleEnd side peering = greetings sampleEnd side samplePeering)
        (initial sampleCiphers sampleEnd) := .init rfl
  obtain ⟨l, hreach, hl⟩ := hstart.exists_of_check sampleOps
    (p := fun l : Handshakes => (startedSession l .left).isSome && (startedSession l .right).isSome)
    (by decide +kernel) (by decide +kernel)
  rw [Bool.and_eq_true, Option.isSome_iff_exists, Option.isSome_iff_exists] at hl
  have hstarted : ∀ side, ∃ s, (l.handshake side).session = some (.started s) := by
    intro side
    have hside : ∃ s, startedSession l side = some s := by
      cases side with
      | left => exact hl.1
      | right => exact hl.2
    obtain ⟨s, hs⟩ := hside
    rw [startedSession] at hs
    split at hs
    · exact ⟨_, ‹_›⟩
    · cases hs
  have hgreets : ∀ side peering, greetings sampleEnd side peering =
      greetings sampleEnd side samplePeering → Greets sampleEnd side peering := by
    intro side peering hsame
    have hsample : Greets sampleEnd side samplePeering := by cases side <;> decide +kernel
    rw [Greets, hsame]
    exact hsample
  choose s hs using hstarted
  obtain ⟨peering, hok, hlink⟩ := (hall _ l hreach).2 hgreets s hs
  have hsent : (fun side => (greetings sampleEnd side (peering side)).map Greeting.toCapPacket) =
      fun _ => [⟨toLex ("eth", 63), 0, [0xc1, 0x3f]⟩, ⟨toLex ("qpos", 1), 0, [0xc0]⟩] := by
    funext side
    rw [(hok side).1]
    cases side <;> decide +kernel
  rw [hsent] at hlink
  exact ⟨s, l.wire, hlink⟩

/-! ## Runs in which nothing fails -/

/-- What a host knows of a peer that it wants. -/
def Willing (peering : Peering) : Prop :=
  peering.isUnexpected = false ∧ peering.isDuplicate = false ∧ peering.peerSlotsAvailable = true

theorem exists_started_of_willing {host peer : HandshakeHost} {peering : Peering}
    (hcommon : host.m_capabilities.negotiate peer.m_capabilities.caps ≠ [])
    (hpeering : Willing peering) (io : RLPXFrameCoder) :
    ∃ s, (host.meet peer P peering io).1 = .started s := by
  obtain ⟨hexpected, hnew, hslots⟩ := hpeering
  rw [HandshakeHost.meet, if_neg hcommon, hexpected, hnew, hslots]
  exact ⟨_, rfl⟩

theorem stage_waiting (hcoder : (coder P ends side).isSome) (n : ℕ) :
    (stage P ends side n).waiting.isSome = true := by
  match n with
  | 0 => rfl
  | 1 | 2 => cases side <;> rfl
  | 3 =>
      have hwrite : (stage P ends side 3).waiting = .write := if_pos hcoder
      rw [hwrite]
      rfl
  | 4 | _ + 5 => rfl

theorem finish_other {peering : Peering} (hstep : step P l (.finish side peering) = some l') :
    l'.handshake side.other = l.handshake side.other := by
  rw [step] at hstep
  split at hstep
  · cases hstep
    exact Function.update_of_ne side.other_ne _ _
  · cases hstep

/-- Every read and every write that ends takes one end one stage further. -/
theorem inv_exec (hproper : Proper P ends) (hhello : ∀ side, (hello P ends side).length ≤ 1024)
    (hcoder : ∀ side, (coder P ends side).isSome) {ops : List Op}
    (hops : ∀ op ∈ ops, ∃ side peering, ok side peering ∧ op = .finish side peering)
    (hinv : Inv P ends ok stages extras l) (hgood : ∀ side, ¬(l.handshake side).Failed)
    (hexec : (system P ends).exec l ops = some l') :
    ∃ stages' extras', Inv P ends ok stages' extras' l' ∧
      (∀ side, ¬(l'.handshake side).Failed) ∧
      stages' .left + stages' .right = stages .left + stages .right + ops.length := by
  induction ops generalizing l stages extras with
  | nil =>
      cases hexec
      exact ⟨stages, extras, hinv, hgood, rfl⟩
  | cons op ops ih =>
      obtain ⟨side, peering, hok, rfl⟩ := hops op List.mem_cons_self
      obtain ⟨l₁, hstep, hexec⟩ := Option.bind_eq_some_iff.mp hexec
      obtain ⟨extra, hinv₁, hfailed⟩ := inv_finish hproper hinv hok hstep
      have hgood₁ : ∀ s, ¬(l₁.handshake s).Failed := by
        intro s
        rcases Side.eq_or side s with rfl | rfl
        · intro h
          rcases hfailed h with hlong | hnone
          · exact absurd hlong (not_lt.mpr (hhello _))
          · rw [hcoder] at hnone
            cases hnone
        · rw [finish_other hstep]
          exact hgood side.other
      obtain ⟨stages', extras', hinv', hgood', hsum⟩ :=
        ih (fun op hop => hops op (List.mem_cons_of_mem _ hop)) hinv₁ hgood₁ hexec
      refine ⟨stages', extras', hinv', hgood', ?_⟩
      have hone : Function.update stages side (stages side + 1) .left +
          Function.update stages side (stages side + 1) .right =
            stages .left + stages .right + 1 := by
        cases side with
        | left => exact Nat.add_right_comm _ _ _
        | right => rfl
      rw [hsum, hone, List.length_cons]
      omega

/-- The end that is not further than the other one can go on. -/
theorem Inv.enabled (hproper : Proper P ends) (hcoder : ∀ side, (coder P ends side).isSome)
    (hinv : Inv P ends ok stages extras l) (hgood : ∀ side, ¬(l.handshake side).Failed)
    (hle : stages side ≤ stages side.other) (hlast : stages side ≤ 5) (peering : Peering) :
    (step P l (.finish side peering)).isSome = true := by
  have hwire := hinv.wire side.other
  rw [Side.other_other] at hwire
  have hat := hinv.at_ side
  have hgood := hgood side
  generalize hh : l.handshake side = h at hat hgood
  generalize hn : stages side = n at hat hle hlast hwire
  generalize extras side = extra at hat
  cases hat with
  | failed _ hfailed => exact absurd hfailed hgood
  | done _ _ => omega
  | stage hn' hcoder' =>
      have hneed := stage_need hproper hn' hcoder'
      have henough := consumed_le_written hproper hn' hle hcoder'
      have hcan : (l.handshake side).waiting.isSome = true ∧
          (l.handshake side).need ≤ (l.wire side.other).length := by
        rw [hh, hwire, List.length_drop, List.length_append]
        exact ⟨stage_waiting (hcoder side) n, by omega⟩
      rw [step, if_pos hcan]
      rfl

/-- If nothing fails, then a handshake has twelve steps.  As long as not all of them are done
one can be done, and after them both ends have a session, whatever their order is. -/
theorem progress (hproper : Proper P ends) (hhello : ∀ side, (hello P ends side).length ≤ 1024)
    (hagree : (P.agree (ends .left).m_ecdheLocal
      (P.toPublic (ends .right).m_ecdheLocal)).isSome)
    (hcommon : ∀ side,
      (capabilities ends side).negotiate (capabilities ends side.other).caps ≠ [])
    {ops : List Op} (hops : ∀ op ∈ ops, ∃ side peering, Willing peering ∧ op = .finish side peering)
    (hexec : (system P ends).exec (initial P ends) ops = some l) :
    ops.length ≤ 12 ∧
      (ops.length = 12 → ∃ s : Side → Session, ∀ side,
        (l.handshake side).session = some (.started (s side))) ∧
      (ops.length < 12 → ∃ side, ∀ peering, (step P l (.finish side peering)).isSome = true) := by
  have hcoder : ∀ side, (coder P ends side).isSome := by
    have hleft : (coder P ends .left).isSome := Option.isSome_map.trans hagree
    obtain ⟨c, hc⟩ := exists_coder hproper hleft
    exact fun side => Option.isSome_of_eq_some (hc side).1
  have hstart : ∀ side, ¬((initial P ends).handshake side).Failed := by
    intro side h
    cases h.waiting
  obtain ⟨stages, extras, hinv, hgood, hsum⟩ :=
    inv_exec hproper hhello hcoder hops inv_initial hstart hexec
  have hsix : ∀ side, stages side ≤ 6 := fun side => (hinv.at_ side).le
  have hleft := hsix .left
  have hright := hsix .right
  refine ⟨by omega, fun hall => ?_, fun hless => ?_⟩
  · have hover : ∀ side, ∃ s, (l.handshake side).session = some (.started s) := by
      intro side
      have hlast : stages side = 6 := by cases side <;> omega
      have hat := hinv.at_ side
      have hnot := hgood side
      generalize l.handshake side = h at hat hnot
      rw [hlast] at hat
      generalize extras side = extra at hat
      generalize hn : 6 = n at hat
      cases hat with
      | stage hn' _ => omega
      | failed _ hfailed => exact absurd hfailed hnot
      | done hok hc =>
          obtain ⟨s, hs⟩ := exists_started_of_willing (P := P) (hcommon side) hok _
          exact ⟨s, congrArg some hs⟩
    choose s hs using hover
    exact ⟨s, hs⟩
  · rcases Nat.le_total (stages .left) (stages .right) with hle | hle
    · exact ⟨.left, hinv.enabled hproper hcoder hgood hle (by omega)⟩
    · exact ⟨.right, hinv.enabled hproper hcoder hgood hle (by omega)⟩

theorem progress_sample : ∃ l, (system sampleCiphers sampleEnd).exec
    (initial sampleCiphers sampleEnd) sampleOps = some l ∧ ∃ s : Side → Session, ∀ side,
      (l.handshake side).session = some (.started (s side)) := by
  have hexec : ((system sampleCiphers sampleEnd).exec (initial sampleCiphers sampleEnd)
      sampleOps).isSome = true := by decide +kernel
  obtain ⟨l, hl⟩ := Option.isSome_iff_exists.mp hexec
  refine ⟨l, hl, (progress sample_proper ?_ rfl ?_ ?_ hl).2.1 rfl⟩
  · intro side
    cases side <;> decide +kernel
  · intro side
    cases side <;> decide +kernel
  · intro op hop
    obtain ⟨side, -, rfl⟩ := List.mem_map.mp hop
    exact ⟨side, _, ⟨rfl, rfl, rfl⟩, rfl⟩

end Handshakes

end CppSwc
