import CppSwc.P2p.FrameCoder
import CppSwc.Lib.Run
import Mathlib.Data.List.Sort
import Mathlib.Data.Prod.Lex
import Mathlib.Data.String.Basic

/-!
# Sessions

A `Session` is one end of a connection between two hosts.  The capabilities that both hosts
have get numbers of their own for their packets, one range after the other from `UserPacket`
on, and each end works these numbers out by itself (`startPeerSession`).  Packets wait in
`m_writeQueue` until they are written as frames, and a packet that is read goes to the
capability whose range its first byte is in.

* A function gives the session and the bytes it has put on the connection.
* What a capability makes of a packet is not in the model, but for whether it throws.
* The ratings of a peer, the times and the logs are left out.

`Link` is a connection with its two ends.
-/

namespace CppSwc

open Lib

/-! ## Capabilities -/

/-- `CapDesc`, a name and a version, in the order of `std::pair`. -/
abbrev CapDesc := String ×ₗ ℕ

/-- The capabilities of a host with their `messageCount`, as a map. -/
structure CapabilityMap where
  entries : List (CapDesc × ℕ)
  sorted : (entries.map Prod.fst).Pairwise (· < ·)

namespace CapabilityMap

/-- `Host::caps`. -/
def caps (m : CapabilityMap) : List CapDesc := m.entries.map Prod.fst

/-- `haveCapability`. -/
def haveCapability (m : CapabilityMap) (d : CapDesc) : Bool := decide (d ∈ m.caps)

/-- `messageCount` of a capability. -/
def messageCount (m : CapabilityMap) (d : CapDesc) : ℕ :=
  ((m.entries.find? fun e => e.1 = d).map Prod.snd).getD 0

end CapabilityMap

/-- A capability is dropped if the host does not have it, or if there is a higher version of it
that the host has. -/
def dropsCapability (have_ : CapDesc → Bool) (caps : List CapDesc) (r : CapDesc) : Bool :=
  !have_ r || caps.any fun o =>
    decide ((ofLex r).1 = (ofLex o).1 ∧ (ofLex r).2 < (ofLex o).2) && have_ o

/-- `std::remove_if` with `dropsCapability`, which looks at the vector that is being changed:
what has been kept, what is left behind it, and what comes.  A name that has been moved is
empty. -/
def removeCapabilities (have_ : CapDesc → Bool) (kept left : List CapDesc) :
    List CapDesc → List CapDesc
  | [] => kept
  | r :: rest =>
      if dropsCapability have_ (kept ++ left ++ r :: rest) r then
        removeCapabilities have_ kept (left ++ [r]) rest
      else
        match left with
        | [] => removeCapabilities have_ (kept ++ [r]) [] rest
        | _ :: left => removeCapabilities have_ (kept ++ [r]) (left ++ [toLex ("", (ofLex r).2)]) rest

/-- `Capability`, with the `messageCount` of its host. -/
structure Capability where
  desc : CapDesc
  m_idOffset : ℕ
  messageCount : ℕ
  m_enabled : Bool := true
deriving DecidableEq

/-- `UserPacket`. -/
def UserPacket : ℕ := 0x10

/-- The loop of `startPeerSession` that makes the capabilities. -/
def newPeerCapabilities (count : CapDesc → ℕ) : ℕ → List CapDesc → List Capability
  | _, [] => []
  | offset, d :: caps =>
      { desc := d, m_idOffset := offset, messageCount := count d } ::
        newPeerCapabilities count (offset + count d) caps

/-- The capabilities of a session with a peer that has sent its capabilities. -/
def CapabilityMap.negotiate (m : CapabilityMap) (caps : List CapDesc) : List Capability :=
  newPeerCapabilities m.messageCount UserPacket (removeCapabilities m.haveCapability [] [] caps)

/-! ### Both ends have the same numbers -/

section Negotiation

variable {have_ : CapDesc → Bool} {r o : CapDesc} {xs caps : List CapDesc}

/-- A higher version of a capability. -/
def Higher (r o : CapDesc) : Prop := (ofLex r).1 = (ofLex o).1 ∧ (ofLex r).2 < (ofLex o).2

instance : Decidable (Higher r o) := inferInstanceAs (Decidable (_ ∧ _))

theorem Higher.lt (h : Higher r o) : r < o := Prod.Lex.lt_iff.mpr (.inr h)

theorem dropsCapability_append (h : ∀ o ∈ xs, ¬Higher r o) :
    dropsCapability have_ (xs ++ caps) r = dropsCapability have_ caps r := by
  have hxs : (xs.any fun o => decide (Higher r o) && have_ o) = false := by
    simp only [List.any_eq_false, Bool.and_eq_true, decide_eq_true_eq, not_and]
    exact fun o ho hhigher => absurd hhigher (h o ho)
  have hany : ((xs ++ caps).any fun o => decide (Higher r o) && have_ o) =
      caps.any fun o => decide (Higher r o) && have_ o := by
    rw [List.any_append, hxs, Bool.false_or]
  exact congrArg (!have_ r || ·) hany

theorem dropsCapability_eq_false :
    dropsCapability have_ caps r = false ↔ have_ r = true ∧ ∀ o ∈ caps, Higher r o → have_ o = false := by
  rw [dropsCapability, Bool.or_eq_false_iff, Bool.not_eq_false']
  refine and_congr_right fun _ => ?_
  simp only [List.any_eq_false, Bool.and_eq_true, decide_eq_true_eq, not_and, Bool.not_eq_true]
  exact Iff.rfl

/-- What stands before a capability in the vector is no higher version of it. -/
theorem not_higher_of_before {before rest : List CapDesc} {o : CapDesc}
    (hsorted : (before ++ r :: rest).Pairwise (· < ·))
    (ho : ∃ p ∈ before, o = p ∨ o = toLex ("", (ofLex p).2)) : ¬Higher r o := by
  obtain ⟨p, hp, ho⟩ := ho
  have hlt : p < r := (List.pairwise_append.mp hsorted).2.2 p hp r List.mem_cons_self
  rcases ho with rfl | rfl
  · exact fun hhigher => lt_asymm hlt hhigher.lt
  · -- then the name is empty, and the versions are in order
    rintro ⟨hname, hversion⟩
    rcases Prod.Lex.lt_iff.mp hlt with hless | ⟨-, hless⟩
    · rw [hname, String.lt_iff_toList_lt] at hless
      simp at hless
    · exact lt_asymm hless hversion

/-- Of a sorted vector `remove_if` leaves what it would leave if nothing changed meanwhile. -/
theorem removeCapabilities_eq {kept left before rest : List CapDesc}
    (hsorted : (before ++ rest).Pairwise (· < ·))
    (hbefore : ∀ o ∈ kept ++ left, ∃ p ∈ before, o = p ∨ o = toLex ("", (ofLex p).2))
    (hkept : kept = before.filter fun r => !dropsCapability have_ (before ++ rest) r) :
    removeCapabilities have_ kept left rest =
      (before ++ rest).filter fun r => !dropsCapability have_ (before ++ rest) r := by
  induction rest generalizing kept left before with
  | nil =>
      rw [List.append_nil] at hkept ⊢
      exact hkept
  | cons r rest ih =>
      have hsame : dropsCapability have_ (kept ++ left ++ r :: rest) r =
          dropsCapability have_ (before ++ r :: rest) r := by
        rw [dropsCapability_append fun o ho => not_higher_of_before hsorted (hbefore o ho),
          dropsCapability_append fun o ho => not_higher_of_before hsorted ⟨o, ho, .inl rfl⟩]
      have hsplit : before ++ r :: rest = (before ++ [r]) ++ rest := by simp
      have hgrow : ∀ o, (∃ p ∈ before, o = p ∨ o = toLex ("", (ofLex p).2)) →
          ∃ p ∈ before ++ [r], o = p ∨ o = toLex ("", (ofLex p).2) := by
        rintro o ⟨p, hp, ho⟩
        exact ⟨p, List.mem_append_left _ hp, ho⟩
      have hself : ∀ o, o = r ∨ o = toLex ("", (ofLex r).2) →
          ∃ p ∈ before ++ [r], o = p ∨ o = toLex ("", (ofLex p).2) := fun o ho =>
        ⟨r, List.mem_append_right _ (List.mem_singleton_self r), ho⟩
      rw [removeCapabilities.eq_def]
      dsimp only
      rw [hsame]
      split
      · rename_i hdrops
        rw [hsplit] at hsorted hdrops ⊢
        refine ih hsorted ?_ ?_
        · intro o ho
          rw [← List.append_assoc, List.mem_append, List.mem_singleton] at ho
          exact ho.elim (fun ho => hgrow o (hbefore o ho)) fun ho => hself o (.inl ho)
        · rw [List.filter_append, ← hsplit, ← hkept]
          simpa using hdrops
      · rename_i hdrops
        have hnext : kept ++ [r] = (before ++ [r]).filter fun x =>
            !dropsCapability have_ ((before ++ [r]) ++ rest) x := by
          rw [List.filter_append, ← hsplit, ← hkept]
          simp [hdrops]
        cases left with
        | nil =>
            dsimp only
            rw [hsplit] at hsorted ⊢
            refine ih hsorted ?_ hnext
            intro o ho
            rw [List.append_nil, List.mem_append, List.mem_singleton] at ho
            exact ho.elim (fun ho => hgrow o (hbefore o (List.mem_append_left _ ho))) fun ho =>
              hself o (.inl ho)
        | cons l left =>
            dsimp only
            rw [hsplit] at hsorted ⊢
            refine ih hsorted ?_ hnext
            intro o ho
            simp only [List.mem_append, List.mem_singleton] at ho
            rcases ho with (ho | ho) | ho | ho
            · exact hgrow o (hbefore o (List.mem_append_left _ ho))
            · exact hself o (.inl ho)
            · exact hgrow o (hbefore o (List.mem_append_right _ (List.mem_cons_of_mem l ho)))
            · exact hself o (.inr ho)

theorem newPeerCapabilities_congr {count count' : CapDesc → ℕ} (h : ∀ d ∈ caps, count d = count' d)
    (offset : ℕ) : newPeerCapabilities count offset caps = newPeerCapabilities count' offset caps := by
  induction caps generalizing offset with
  | nil => rfl
  | cons d caps ih =>
      rw [newPeerCapabilities, newPeerCapabilities, h d List.mem_cons_self,
        ih fun d hd => h d (List.mem_cons_of_mem _ hd)]

theorem desc_mem_of_newPeerCapabilities {count : CapDesc → ℕ} {offset : ℕ} {c : Capability}
    (h : c ∈ newPeerCapabilities count offset caps) : c.desc ∈ caps := by
  induction caps generalizing offset with
  | nil => cases h
  | cons d caps ih =>
      rw [newPeerCapabilities, List.mem_cons] at h
      rcases h with rfl | h
      · exact List.mem_cons_self
      · exact List.mem_cons_of_mem d (ih h)

/-- A capability is found by its name and version. -/
theorem find?_newPeerCapabilities {count : CapDesc → ℕ} {offset : ℕ} {c : Capability}
    (hsorted : caps.Pairwise (· < ·)) (h : c ∈ newPeerCapabilities count offset caps) :
    ((newPeerCapabilities count offset caps).find? fun c' => c'.desc = c.desc) = some c := by
  induction caps generalizing offset with
  | nil => cases h
  | cons d caps ih =>
      obtain ⟨hd, hsorted⟩ := List.pairwise_cons.mp hsorted
      rw [newPeerCapabilities, List.mem_cons] at h
      rw [newPeerCapabilities]
      rcases h with rfl | h
      · exact List.find?_cons_of_pos (decide_eq_true rfl)
      · have hne : d ≠ c.desc := (hd _ (desc_mem_of_newPeerCapabilities h)).ne
        rw [List.find?_cons_of_neg (by simpa using hne)]
        exact ih hsorted h

/-- The capabilities that two hosts have in common, each in its highest version. -/
def common (a b : CapabilityMap) (d : CapDesc) : Prop :=
  d ∈ a.caps ∧ d ∈ b.caps ∧ ∀ o, o ∈ a.caps → o ∈ b.caps → ¬Higher d o

theorem removeCapabilities_caps (a b : CapabilityMap) :
    removeCapabilities a.haveCapability [] [] b.caps =
      b.caps.filter fun r => !dropsCapability a.haveCapability b.caps r :=
  removeCapabilities_eq (show ([] ++ b.caps).Pairwise (· < ·) from b.sorted) (by simp) rfl

theorem mem_removeCapabilities (a b : CapabilityMap) (d : CapDesc) :
    d ∈ removeCapabilities a.haveCapability [] [] b.caps ↔ common a b d := by
  rw [removeCapabilities_caps, List.mem_filter, Bool.not_eq_true', dropsCapability_eq_false, common]
  simp only [CapabilityMap.haveCapability, decide_eq_true_eq, decide_eq_false_iff_not]
  constructor
  · rintro ⟨hb, ha, hhighest⟩
    exact ⟨ha, hb, fun o hoa hob hhigher => hhighest o hob hhigher hoa⟩
  · rintro ⟨ha, hb, hhighest⟩
    exact ⟨hb, ha, fun o hob hhigher hoa => hhighest o hoa hob hhigher⟩

theorem common_comm {a b : CapabilityMap} {d : CapDesc} (h : common a b d) : common b a d :=
  ⟨h.2.1, h.1, fun o ho ho' => h.2.2 o ho' ho⟩

theorem removeCapabilities_sorted (a b : CapabilityMap) :
    (removeCapabilities a.haveCapability [] [] b.caps).Pairwise (· < ·) := by
  rw [removeCapabilities_caps]
  exact b.sorted.filter _

/-- A session has no capability twice. -/
theorem CapabilityMap.find?_negotiate (a b : CapabilityMap) {c : Capability}
    (h : c ∈ a.negotiate b.caps) :
    ((a.negotiate b.caps).find? fun c' => c'.desc = c.desc) = some c :=
  find?_newPeerCapabilities (removeCapabilities_sorted a b) h

/-- Both hosts number the packets of a connection alike. -/
theorem CapabilityMap.negotiate_comm {a b : CapabilityMap}
    (hcount : ∀ d ∈ a.caps, d ∈ b.caps → a.messageCount d = b.messageCount d) :
    a.negotiate b.caps = b.negotiate a.caps := by
  have hsame : removeCapabilities a.haveCapability [] [] b.caps =
      removeCapabilities b.haveCapability [] [] a.caps := by
    apply (removeCapabilities_sorted a b).eq_of_mem_iff (removeCapabilities_sorted b a)
    intro d
    rw [mem_removeCapabilities, mem_removeCapabilities]
    exact ⟨common_comm, common_comm⟩
  rw [CapabilityMap.negotiate, CapabilityMap.negotiate, ← hsame]
  refine newPeerCapabilities_congr (fun d hd => ?_) _
  have hcommon := (mem_removeCapabilities a b d).mp hd
  exact hcount d hcommon.1 hcommon.2.1

end Negotiation

/-! ## One end -/

/-- `DisconnectReason`, as far as a session uses it by itself. -/
inductive DisconnectReason where
  | disconnectRequested
  | tcpError
  | badProtocol
  /-- Another number. -/
  | other (reason : UInt16)
deriving DecidableEq

/-- The number of a reason. -/
def DisconnectReason.toNat : DisconnectReason → ℕ
  | .disconnectRequested => 0
  | .tcpError => 1
  | .badProtocol => 2
  | .other reason => reason.toNat

/-- What `doRead` is at. -/
inductive ReadState where
  /-- `start` has not been called. -/
  | idle
  | waiting (reading : Reading)
  /-- Nothing is read any more. -/
  | stopped

/-- `Session`. -/
structure Session where
  m_io : RLPXFrameCoder
  m_capabilities : List Capability
  /-- The first packet is being written, and has been replaced by its frame. -/
  m_writeQueue : List Bytes := []
  reading : ReadState := .idle
  /-- The socket is open. -/
  isOpen : Bool := true
  m_dropped : Bool := false
  m_lastDisconnect : Option DisconnectReason := none

/-- A packet of a capability: the capability, the number and the data. -/
structure CapPacket where
  desc : CapDesc
  id : ℕ
  data : Bytes
deriving DecidableEq

/-- What a session has done with a packet of a capability. -/
structure Handled where
  packet : CapPacket
  /-- `Capability::interpret` was called. -/
  interpreted : Bool
  threw : Bool

namespace Session

variable (C : Ciphers)

/-- `prep` of a session. -/
def prep (_id : ℕ) (args : Bytes) : Bytes := RLP.appendInt _id ++ RLP.appendList args

/-- The packets of a session itself. -/
def pingPacket : Bytes := prep 2 []

def pongPacket : Bytes := prep 3 []

def disconnectPacket (_reason : DisconnectReason) : Bytes := prep 1 (RLP.appendInt _reason.toNat)

/-- `checkPacket`, `none` where an exception leaves it. -/
def checkPacket : Bytes → Option Bool
  | [] => none
  | b :: body =>
      if 0x7f < b.toNat ∨ (b :: body).length < 2 then some false
      else do
        let r ← RLP.ofBytes body
        let size ← RLP.actualSize r
        return decide (size + 1 = (b :: body).length)

/-- `write`. -/
def write (s : Session) : Session × Bytes :=
  match s.m_writeQueue with
  | [] => (s, [])
  | msg :: rest =>
      let (out, io) := s.m_io.writeSingleFramePacket C msg
      ({ s with m_io := io, m_writeQueue := out :: rest }, if s.isOpen then out else [])

/-- `send`. -/
def send (msg : Bytes) (s : Session) : Session × Bytes :=
  if !s.isOpen then (s, [])
  else if s.m_writeQueue = [] then { s with m_writeQueue := [msg] }.write C
  else ({ s with m_writeQueue := s.m_writeQueue ++ [msg] }, [])

/-- Packets are sent one after the other. -/
def sendAll : List Bytes → Session → Session × Bytes
  | [], s => (s, [])
  | msg :: msgs, s =>
      let (s, out) := s.send C msg
      let (s, out') := sendAll msgs s
      (s, out ++ out')

/-- The end of a write. -/
def written (s : Session) : Session × Bytes :=
  { s with m_writeQueue := s.m_writeQueue.tail }.write C

/-- `drop`. -/
def drop (_reason : DisconnectReason) (s : Session) : Session :=
  if s.m_dropped then s
  else { s with isOpen := false, m_lastDisconnect := some _reason, m_dropped := true }

/-- `disconnect`. -/
def disconnect (_reason : DisconnectReason) (s : Session) : Session × Bytes :=
  let (s, out) := s.send C (disconnectPacket _reason)
  (s.drop _reason, out)

/-- `doRead`. -/
def doRead (s : Session) : Session :=
  if s.m_dropped then { s with reading := .stopped } else { s with reading := .waiting .header }

/-- `start`. -/
def start (s : Session) : Session × Bytes :=
  let (s, out) := s.send C pingPacket
  (s.doRead, out)

/-- `interpret`.  An exception disconnects the peer. -/
def interpret (_t : ℕ) (_r : Bytes) (s : Session) : Session × Bytes :=
  match _t with
  | 1 =>
      match (RLP.item _r 0).bind (RLP.toInt 4) with
      | none => s.disconnect C .badProtocol
      | some _ => (s.drop .disconnectRequested, [])
  | 2 => s.send C pongPacket
  | _ => (s, [])

/-- The capability whose range a number is in. -/
def capabilityOf (_t : ℕ) (capabilities : List Capability) : Option Capability :=
  capabilities.find? fun i => decide (i.m_idOffset ≤ _t ∧ _t - i.m_idOffset < i.messageCount)

/-- `readPacket`, where a capability that is called may throw. -/
def readPacket (throws : Bool) (_capId _t : ℕ) (_r : Bytes) (s : Session) :
    Session × Bytes × Option Handled :=
  if _capId = 0 ∧ _t < UserPacket then
    let (s, out) := s.interpret C _t _r
    (s, out, none)
  else
    match capabilityOf _t s.m_capabilities with
    | none => (s, [], none)
    | some i =>
        let packet : CapPacket := ⟨i.desc, _t - i.m_idOffset, _r⟩
        if i.m_enabled && throws then
          let (s, out) := s.disconnect C .badProtocol
          (s, out, some ⟨packet, true, true⟩)
        else (s, [], some ⟨packet, i.m_enabled, false⟩)

/-- What `doRead` does with a frame.  An exception leaves it without a further read. -/
def readFrame (throws : Bool) (hProtocolId : ℕ) (frame : Bytes) (s : Session) :
    Session × Bytes × Option Handled :=
  match checkPacket frame with
  | none => ({ s with reading := .stopped }, [], none)
  | some false =>
      let (s, out) := s.disconnect C .badProtocol
      ({ s with reading := .stopped }, out, none)
  | some true =>
      match RLP.toInt 4 (frame.take 1) with
      | none => ({ s with reading := .stopped }, [], none)
      | some packetType =>
          let (s, out, handled) := s.readPacket C throws hProtocolId packetType (frame.drop 1)
          (s.doRead, out, handled)

/-- The end of a read that got its bytes. -/
def read (throws : Bool) (reading : Reading) (io : Bytes) (s : Session) :
    Session × Bytes × Option Handled :=
  match RLPXFrameCoder.readNext C (s.m_io, reading) io with
  | none => ({ s.drop .badProtocol with reading := .stopped }, [], none)
  | some (none, c, reading) => ({ s with m_io := c, reading := .waiting reading }, [], none)
  | some (some (info, frame), c, _) => { s with m_io := c }.readFrame C throws info.protocolId frame

end Session

/-- `Capability::prep`, with the list that follows. -/
def Capability.packet (c : Capability) (_id : ℕ) (data : Bytes) : Bytes :=
  UInt8.ofNat (_id + c.m_idOffset) :: data

/-! ## Both ends -/

/-- An end of a connection. -/
inductive Side where
  | left
  | right
deriving DecidableEq

/-- The other end. -/
def Side.other : Side → Side
  | .left => .right
  | .right => .left

@[simp]
theorem Side.other_other (side : Side) : side.other.other = side := by cases side <;> rfl

theorem Side.other_ne (side : Side) : side.other ≠ side := by cases side <;> decide

theorem Side.eq_or (side side' : Side) : side' = side ∨ side' = side.other := by
  cases side <;> cases side' <;> simp [Side.other]

/-- A connection with its two ends. -/
structure Link where
  session : Side → Session
  /-- The bytes on their way from an end to the other one. -/
  wire : Side → Bytes
  /-- What the capabilities of an end have sent. -/
  sent : Side → List CapPacket
  /-- What an end has read for its capabilities. -/
  handled : Side → List Handled

namespace Link

/-- What happens next at an end. -/
inductive Op where
  | start (side : Side)
  | ping (side : Side)
  /-- A capability sends a packet. -/
  | sealAndSend (side : Side) (packet : CapPacket)
  /-- A write ends. -/
  | written (side : Side)
  /-- A read ends, and the capability it may call throws or not. -/
  | read (side : Side) (throws : Bool)
  /-- A read or a write fails. -/
  | error (side : Side)
  | disconnect (side : Side) (_reason : DisconnectReason)
  /-- A capability is disabled. -/
  | disable (side : Side) (desc : CapDesc)
  /-- What is behind these bytes is lost after an end has closed its socket. -/
  | lose (side : Side) (left : ℕ)

/-- The connection after a session has changed and put bytes on it. -/
def update (side : Side) (r : Session × Bytes) (l : Link) : Link :=
  { l with
    session := Function.update l.session side r.1
    wire := Function.update l.wire side (l.wire side ++ r.2) }

/-- One step, `none` where it is not possible. -/
def step (C : Ciphers) (l : Link) : Op → Option Link
  | .start side =>
      match (l.session side).reading with
      | .idle => some (l.update side ((l.session side).start C))
      | _ => none
  | .ping side => some (l.update side ((l.session side).send C Session.pingPacket))
  | .sealAndSend side packet =>
      match (l.session side).m_capabilities.find? fun c => c.desc = packet.desc with
      | none => none
      | some c =>
          let now := if (l.session side).isOpen then l.sent side ++ [packet] else l.sent side
          let l := l.update side ((l.session side).send C (c.packet packet.id packet.data))
          some { l with sent := Function.update l.sent side now }
  | .written side =>
      if (l.session side).m_writeQueue = [] then none
      else some (l.update side ((l.session side).written C))
  | .read side throws =>
      match (l.session side).reading with
      | .waiting reading =>
          if reading.need ≤ (l.wire side.other).length then
            let (s, out, handled) := (l.session side).read C throws reading
              ((l.wire side.other).take reading.need)
            let rest := (l.wire side.other).drop reading.need
            let l := { l with wire := Function.update l.wire side.other rest }
            let l := l.update side (s, out)
            let now := l.handled side ++ handled.toList
            some { l with handled := Function.update l.handled side now }
          else none
      | _ => none
  | .error side => some (l.update side ((l.session side).drop .tcpError, []))
  | .disconnect side reason => some (l.update side ((l.session side).disconnect C reason))
  | .disable side desc =>
      let s := l.session side
      some (l.update side ({ s with m_capabilities := s.m_capabilities.map fun c =>
        if c.desc = desc then { c with m_enabled := false } else c }, []))
  | .lose side left =>
      if (l.session side).isOpen then none
      else some { l with wire := Function.update l.wire side ((l.wire side).take left) }

/-- The connection of two hosts after the handshake. -/
def initial (capabilities : Side → CapabilityMap) (io : Side → RLPXFrameCoder) : Link where
  session side :=
    { m_io := io side
      m_capabilities := (capabilities side).negotiate (capabilities side.other).caps }
  wire _ := []
  sent _ := []
  handled _ := []

/-- All runs of a connection. -/
def system (C : Ciphers) (capabilities : Side → CapabilityMap) : System Link Op where
  init l := ∃ io : Side → RLPXFrameCoder,
    (∀ side, RLPXFrameCoder.Mirrored (io side) (io side.other)) ∧ l = initial capabilities io
  step := step C

end Link

end CppSwc
