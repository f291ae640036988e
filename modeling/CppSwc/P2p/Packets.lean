import CppSwc.P2p.Session
import Mathlib.Data.List.Basic

/-!
# The packets of a session

What one end of a connection does, as the other end sees it.  A coder that writes reads as
before and the other way round.  A byte is in the range of one capability only, so that both
ends name the capability of a packet alike (`Session.decode`).  `Session.Sends` says what
`send`, a finished write and `disconnect` put on the connection, and `Session.Handles` what a
session does with a packet that it reads.
-/

namespace CppSwc

open Lib

/-! ## Reading and writing at the same time -/

namespace RLPXFrameCoder

variable {C : Ciphers} {c c' w : RLPXFrameCoder} {reading : Reading} {io : Bytes}

/-- A coder that has written something else. -/
def withEgress (c : RLPXFrameCoder) (key : H256) (position : ℕ) (mac : Bytes) : RLPXFrameCoder :=
  { c with frameEncKey := key, frameEnc := position, egressMac := mac }

/-- The second coder reads as the first one. -/
def ReadsAs (c c' : RLPXFrameCoder) : Prop := ∃ key position mac, c' = c.withEgress key position mac

/-- The second coder writes as the first one. -/
structure WritesAs (c c' : RLPXFrameCoder) : Prop where
  key : c'.frameEncKey = c.frameEncKey
  position : c'.frameEnc = c.frameEnc
  macKey : c'.macEncKey = c.macEncKey
  mac : c'.egressMac = c.egressMac

theorem ReadsAs.refl (c : RLPXFrameCoder) : ReadsAs c c := ⟨_, _, _, rfl⟩

theorem ReadsAs.trans {c'' : RLPXFrameCoder} (h : ReadsAs c c') (h' : ReadsAs c' c'') :
    ReadsAs c c'' := by
  obtain ⟨_, _, _, rfl⟩ := h
  obtain ⟨_, _, _, rfl⟩ := h'
  exact ⟨_, _, _, rfl⟩

theorem readsAs_writeFrame (_header _payload : Bytes) (c : RLPXFrameCoder) :
    ReadsAs c (c.writeFrame C _header _payload).2 := ⟨_, _, _, rfl⟩

theorem authAndDecryptHeader_withEgress (key : H256) (position : ℕ) (mac : Bytes) :
    (c.withEgress key position mac).authAndDecryptHeader C io =
      (c.authAndDecryptHeader C io).map fun r => (r.1, r.2.withEgress key position mac) := by
  by_cases hmac : (io.drop 16).take 16 =
      C.digest (C.updateMAC c.macEncKey c.ingressMac (io.take 16))
  · rw [authAndDecryptHeader, authAndDecryptHeader, if_pos hmac]
    exact if_pos hmac
  · rw [authAndDecryptHeader, authAndDecryptHeader, if_neg hmac]
    exact if_neg hmac

theorem authAndDecryptFrame_withEgress (key : H256) (position : ℕ) (mac : Bytes) :
    (c.withEgress key position mac).authAndDecryptFrame C io =
      (c.authAndDecryptFrame C io).map fun r => (r.1, r.2.withEgress key position mac) := by
  by_cases hmac : io.drop (io.length - 16) =
      C.digest (C.updateMAC c.macEncKey (c.ingressMac ++ io.take (io.length - 16)) [])
  · rw [authAndDecryptFrame, authAndDecryptFrame, if_pos hmac]
    exact if_pos hmac
  · rw [authAndDecryptFrame, authAndDecryptFrame, if_neg hmac]
    exact if_neg hmac

/-- A read does not look at what is written. -/
theorem readNext_withEgress (key : H256) (position : ℕ) (mac : Bytes) :
    readNext C (c.withEgress key position mac, reading) io =
      (readNext C (c, reading) io).map fun r => (r.1, r.2.1.withEgress key position mac, r.2.2) := by
  cases reading with
  | header =>
      simp only [readNext, authAndDecryptHeader_withEgress]
      cases c.authAndDecryptHeader C io with
      | none => rfl
      | some r =>
          simp only [Option.map_some, Option.bind_eq_bind, Option.bind_some]
          cases RLPXFrameInfo.ofHeader r.1 <;> rfl
  | frame info =>
      simp only [readNext, authAndDecryptFrame_withEgress]
      cases c.authAndDecryptFrame C io <;> rfl

theorem writesAs_of_authAndDecryptHeader {r : Bytes × RLPXFrameCoder}
    (h : c.authAndDecryptHeader C io = some r) : WritesAs c r.2 := by
  rw [authAndDecryptHeader] at h
  split at h
  · cases h
    exact ⟨rfl, rfl, rfl, rfl⟩
  · cases h

theorem writesAs_of_authAndDecryptFrame {r : Bytes × RLPXFrameCoder}
    (h : c.authAndDecryptFrame C io = some r) : WritesAs c r.2 := by
  rw [authAndDecryptFrame] at h
  split at h
  · cases h
    exact ⟨rfl, rfl, rfl, rfl⟩
  · cases h

/-- A read does not change what is written next. -/
theorem writesAs_of_readNext {o : Option (RLPXFrameInfo × Bytes)} {r : RLPXFrameCoder × Reading}
    (h : readNext C (c, reading) io = some (o, r)) : WritesAs c r.1 := by
  cases reading with
  | header =>
      simp only [readNext, Option.bind_eq_bind, Option.bind_eq_some_iff] at h
      obtain ⟨x, hx, info, -, heq⟩ := h
      cases heq
      exact writesAs_of_authAndDecryptHeader hx
  | frame info =>
      simp only [readNext, Option.bind_eq_bind, Option.bind_eq_some_iff] at h
      obtain ⟨x, hx, heq⟩ := h
      cases heq
      exact writesAs_of_authAndDecryptFrame hx

/-- What is on its way is read by a coder that has written in between. -/
theorem delivers_of_readsAs {bs : Bytes} {ms : List (RLPXFrameInfo × Bytes)}
    (h : (transport C).Delivers Sync (c, reading) bs ms w) (hc : ReadsAs c c') :
    (transport C).Delivers Sync (c', reading) bs ms w := by
  obtain ⟨key, position, mac, rfl⟩ := hc
  refine h.of_reader (R := fun r r' => r' = (r.1.withEgress key position mac, r.2)) ?_ ?_ ?_ rfl
  · rintro r _ rfl
    rfl
  · rintro r _ bs o s rfl hfeed
    refine ⟨(s.1.withEgress key position mac, s.2), ?_, rfl⟩
    change readNext C _ _ = _ at hfeed ⊢
    rw [readNext_withEgress, hfeed]
    rfl
  · rintro r _ rfl ⟨hmirror, hheader⟩
    exact ⟨⟨hmirror.key, hmirror.position, hmirror.macKey, hmirror.mac⟩, hheader⟩

/-- What is on its way has left the writer where it is after a read. -/
theorem delivers_of_writesAs {bs : Bytes} {ms : List (RLPXFrameInfo × Bytes)}
    (h : (transport C).Delivers Sync (c, reading) bs ms w) {w' : RLPXFrameCoder}
    (hw : WritesAs w w') : (transport C).Delivers Sync (c, reading) bs ms w' := by
  refine h.of_writer ?_
  rintro r ⟨hmirror, hheader⟩
  exact ⟨⟨hw.key.trans hmirror.key, hw.position.trans hmirror.position,
    hw.macKey.trans hmirror.macKey, hw.mac.trans hmirror.mac⟩, hheader⟩

end RLPXFrameCoder

/-! ## The ranges of the capabilities -/

/-- What both ends know of a capability. -/
def Capability.port (c : Capability) : CapDesc × ℕ × ℕ := (c.desc, c.m_idOffset, c.messageCount)

/-- The ranges follow each other. -/
def Consecutive : ℕ → List Capability → Prop
  | _, [] => True
  | offset, c :: cs => c.m_idOffset = offset ∧ Consecutive (offset + c.messageCount) cs

section Ranges

variable {cs cs' : List Capability} {c : Capability} {offset t : ℕ}

theorem consecutive_newPeerCapabilities (count : CapDesc → ℕ) (offset : ℕ) (caps : List CapDesc) :
    Consecutive offset (newPeerCapabilities count offset caps) := by
  induction caps generalizing offset with
  | nil => trivial
  | cons d caps ih => exact ⟨rfl, ih _⟩

theorem Consecutive.le (h : Consecutive offset cs) (hc : c ∈ cs) : offset ≤ c.m_idOffset := by
  induction cs generalizing offset with
  | nil => cases hc
  | cons c' cs ih =>
      rcases List.mem_cons.mp hc with rfl | hc
      · exact h.1.ge
      · exact (Nat.le_add_right _ _).trans (ih h.2 hc)

/-- A number is in one range only. -/
theorem Consecutive.capabilityOf (h : Consecutive offset cs) (hc : c ∈ cs)
    (hlo : c.m_idOffset ≤ t) (hhi : t - c.m_idOffset < c.messageCount) :
    Session.capabilityOf t cs = some c := by
  induction cs generalizing offset with
  | nil => cases hc
  | cons c' cs ih =>
      rcases List.mem_cons.mp hc with rfl | hc
      · exact List.find?_cons_of_pos (by simp [hlo, hhi])
      · have hle := h.2.le hc
        have hfirst := h.1
        have hnot : ¬(c'.m_idOffset ≤ t ∧ t - c'.m_idOffset < c'.messageCount) := by omega
        rw [Session.capabilityOf, List.find?_cons_of_neg (by simpa using hnot)]
        exact ih h.2 hc

theorem capabilityOf_port (h : cs.map Capability.port = cs'.map Capability.port) (t : ℕ) :
    (Session.capabilityOf t cs).map Capability.port =
      (Session.capabilityOf t cs').map Capability.port := by
  have hfind : ∀ l : List Capability, (Session.capabilityOf t l).map Capability.port =
      (l.map Capability.port).find? fun p => decide (p.2.1 ≤ t ∧ t - p.2.1 < p.2.2) := by
    intro l
    rw [List.find?_map]
    rfl
  rw [hfind, hfind, h]

end Ranges

/-! ## Packets -/

namespace Session

variable {C : Ciphers} {s s' : Session} {p : Bytes} {caps : List Capability}

/-- The packet of a capability that a packet is. -/
def decode (caps : List Capability) : Bytes → Option CapPacket
  | [] => none
  | b :: data =>
      if b.toNat < UserPacket then none
      else (capabilityOf b.toNat caps).map fun i => ⟨i.desc, b.toNat - i.m_idOffset, data⟩

/-- A packet that a session does not refuse. -/
structure Sound (p : Bytes) : Prop where
  short : p.length < 2 ^ 24
  check : checkPacket p = some true
  head : ∀ b data, p = b :: data → 0 < b.toNat ∧
    (b = 1 → ((RLP.item data 0).bind (RLP.toInt 4)).isSome)

theorem decode_port {caps caps' : List Capability}
    (h : caps.map Capability.port = caps'.map Capability.port) (p : Bytes) :
    decode caps p = decode caps' p := by
  cases p with
  | nil => rfl
  | cons b data =>
      have hport := capabilityOf_port h b.toNat
      rw [decode, decode]
      split
      · rfl
      · have hmap : ∀ o : Option Capability,
            (o.map fun i => (⟨i.desc, b.toNat - i.m_idOffset, data⟩ : CapPacket)) =
              (o.map Capability.port).map fun q => ⟨q.1, b.toNat - q.2.1, data⟩ := by
          intro o
          cases o <;> rfl
        rw [hmap, hmap, hport]

theorem checkPacket_cons {b : UInt8} {body : Bytes} (hb : b.toNat ≤ 0x7f) (hne : body ≠ [])
    (hbody : RLP.ofBytes body = some body) : checkPacket (b :: body) = some true := by
  have hpos := List.length_pos_of_ne_nil hne
  have hsize : RLP.actualSize body = some body.length := by
    simp only [RLP.ofBytes, Option.bind_eq_some_iff] at hbody
    obtain ⟨k, hk, hif⟩ := hbody
    split at hif
    · rename_i heq
      rw [hk, heq]
    · cases hif
  rw [checkPacket, if_neg (by rw [List.length_cons]; omega), hbody]
  simp [hsize]

theorem ofBytes_appendList {x : Bytes} (hx : x.length < RLP.maxLength) :
    RLP.ofBytes (RLP.appendList x) = some (RLP.appendList x) := by
  have hread := (RLP.read_appendList hx []).1
  rw [List.append_nil] at hread
  rw [RLP.ofBytes, hread, Option.bind_some, if_pos rfl]

theorem sound_ping : Sound pingPacket := by
  refine ⟨by decide, by decide, ?_⟩
  rintro b data heq
  cases heq
  exact ⟨by decide, nofun⟩

theorem sound_pong : Sound pongPacket := by
  refine ⟨by decide, by decide, ?_⟩
  rintro b data heq
  cases heq
  exact ⟨by decide, nofun⟩

theorem sound_disconnect (_reason : DisconnectReason) : Sound (disconnectPacket _reason) := by
  have hn : _reason.toNat < 256 ^ 2 := by
    cases _reason with
    | other reason => exact reason.toNat_lt
    | _ => decide
  have hlength := RLP.appendInt_length hn (by decide)
  have hmax : (RLP.appendInt _reason.toNat).length < RLP.maxLength := by
    rw [RLP.maxLength]
    omega
  have hpacket : disconnectPacket _reason = 1 :: RLP.appendList (RLP.appendInt _reason.toNat) := rfl
  refine ⟨?_, ?_, ?_⟩
  · rw [hpacket, List.length_cons, RLP.appendList, RLP.lengthPrefix, if_pos (by omega),
      List.length_append, List.length_singleton]
    omega
  · rw [hpacket]
    exact checkPacket_cons (by decide) (RLP.appendList_ne_nil _) (ofBytes_appendList hmax)
  · rintro b data heq
    rw [hpacket] at heq
    cases heq
    refine ⟨by decide, fun _ => ?_⟩
    have hwhole : ∀ x ∈ [RLP.appendInt _reason.toNat], RLP.framing.Whole x := by
      simpa using RLP.whole_appendInt hn (by decide)
    have hsplit : RLP.framing.split (RLP.appendInt _reason.toNat) =
        some [RLP.appendInt _reason.toNat] := by simpa using Framing.split_flatten hwhole
    rw [RLP.item_appendList hmax hsplit]
    simp [RLP.toInt_appendInt (show _reason.toNat < 256 ^ 4 by omega) (by decide)]

/-! ### What a session puts on the connection -/

/-- The packets of the queue that no write has begun with. -/
def pending (s : Session) : List Bytes := s.m_writeQueue.tail

/-- The bytes of a packet, if one is written. -/
def emit (C : Ciphers) (c : RLPXFrameCoder) : Option Bytes → Bytes × RLPXFrameCoder
  | none => ([], c)
  | some msg => c.writeSingleFramePacket C msg

/-- The session has these packets to send, and has put these bytes on the connection. -/
structure Sends (C : Ciphers) (s s' : Session) (out : Bytes) (news : List Bytes) : Prop where
  closed : s.isOpen = false → out = [] ∧ s'.isOpen = false
  opened : s.isOpen = true →
    ∃ msg, s.pending ++ news = msg.toList ++ s'.pending ∧ (out, s'.m_io) = emit C s.m_io msg
  reads : RLPXFrameCoder.ReadsAs s.m_io s'.m_io
  capabilities : s'.m_capabilities = s.m_capabilities

theorem sends_self (s : Session) : Sends C s s [] [] where
  closed h := ⟨rfl, h⟩
  opened _ := ⟨none, by simp, rfl⟩
  reads := .refl _
  capabilities := rfl

theorem sends_send (msg : Bytes) (s : Session) :
    Sends C s (s.send C msg).1 (s.send C msg).2 [msg] := by
  by_cases hopen : s.isOpen = true
  · by_cases hqueue : s.m_writeQueue = []
    · have hsend : s.send C msg = { s with m_writeQueue := [msg] }.write C := by
        rw [send, hopen, if_neg (by decide), if_pos hqueue]
      rw [hsend]
      refine ⟨fun h => absurd (hopen.symm.trans h) (by decide), fun _ => ⟨some msg, ?_, ?_⟩,
        RLPXFrameCoder.readsAs_writeFrame _ _ _, rfl⟩
      · rw [pending, hqueue]
        rfl
      · rw [write]
        dsimp only
        rw [hopen, if_pos rfl]
        rfl
    · have hsend : s.send C msg = ({ s with m_writeQueue := s.m_writeQueue ++ [msg] }, []) := by
        rw [send, hopen, if_neg (by decide), if_neg hqueue]
      rw [hsend]
      refine ⟨fun h => absurd (hopen.symm.trans h) (by decide), fun _ => ⟨none, ?_, rfl⟩,
        .refl _, rfl⟩
      rw [pending, pending, List.tail_append_of_ne_nil hqueue]
      rfl
  · rw [Bool.not_eq_true] at hopen
    have hsend : s.send C msg = (s, []) := by
      rw [send, hopen]
      rfl
    rw [hsend]
    exact ⟨fun h => ⟨rfl, h⟩, fun h => absurd (hopen.symm.trans h) (by decide), .refl _, rfl⟩

theorem sends_written (s : Session) : Sends C s (s.written C).1 (s.written C).2 [] := by
  rw [written, write]
  dsimp only
  split
  · rename_i hqueue
    refine ⟨fun h => ⟨rfl, h⟩, fun _ => ⟨none, ?_, rfl⟩, .refl _, rfl⟩
    rw [pending, pending, hqueue]
    rfl
  · rename_i msg rest hqueue
    refine ⟨fun h => ⟨if_neg (by simp [h]), h⟩, fun h => ⟨some msg, ?_, ?_⟩,
      RLPXFrameCoder.readsAs_writeFrame _ _ _, rfl⟩
    · rw [pending, hqueue, List.append_nil]
      rfl
    · rw [h, if_pos rfl]
      rfl

/-- A session that is dropped afterwards has sent the same. -/
theorem Sends.drop {out : Bytes} {news : List Bytes} (h : Sends C s s' out news)
    (_reason : DisconnectReason) : Sends C s (s'.drop _reason) out news := by
  rw [Session.drop]
  split
  · exact h
  · exact ⟨fun hclosed => ⟨(h.closed hclosed).1, rfl⟩, h.opened, h.reads, h.capabilities⟩

theorem Sends.stop {out : Bytes} {news : List Bytes} (h : Sends C s s' out news)
    (reading : ReadState) : Sends C s { s' with reading := reading } out news :=
  ⟨h.closed, h.opened, h.reads, h.capabilities⟩

theorem Sends.doRead {out : Bytes} {news : List Bytes} (h : Sends C s s' out news) :
    Sends C s s'.doRead out news := by
  rw [Session.doRead]
  split <;> exact h.stop _

theorem sends_disconnect (_reason : DisconnectReason) (s : Session) :
    Sends C s (s.disconnect C _reason).1 (s.disconnect C _reason).2 [disconnectPacket _reason] :=
  (sends_send _ s).drop _reason

/-! ### What a session is told -/

/-- What the rest of a session is after it has sent something. -/
structure SameEnd (s s' : Session) : Prop where
  reading : s'.reading = s.reading
  isOpen : s'.isOpen = s.isOpen
  m_dropped : s'.m_dropped = s.m_dropped
  m_lastDisconnect : s'.m_lastDisconnect = s.m_lastDisconnect

theorem sameEnd_write (s : Session) : SameEnd s (s.write C).1 := by
  rw [write]
  split <;> exact ⟨rfl, rfl, rfl, rfl⟩

theorem sameEnd_send (msg : Bytes) (s : Session) : SameEnd s (s.send C msg).1 := by
  rw [send]
  split
  · exact ⟨rfl, rfl, rfl, rfl⟩
  · split
    · have h := sameEnd_write (C := C) { s with m_writeQueue := [msg] }
      exact ⟨h.reading, h.isOpen, h.m_dropped, h.m_lastDisconnect⟩
    · exact ⟨rfl, rfl, rfl, rfl⟩

theorem sameEnd_sendAll (msgs : List Bytes) (s : Session) : SameEnd s (s.sendAll C msgs).1 := by
  induction msgs generalizing s with
  | nil => exact ⟨rfl, rfl, rfl, rfl⟩
  | cons msg msgs ih =>
      have hsend := sameEnd_send (C := C) msg s
      have hrest := ih (s.send C msg).1
      exact ⟨hrest.reading.trans hsend.reading, hrest.isOpen.trans hsend.isOpen,
        hrest.m_dropped.trans hsend.m_dropped,
        hrest.m_lastDisconnect.trans hsend.m_lastDisconnect⟩

theorem sameEnd_written (s : Session) : SameEnd s (s.written C).1 := by
  have h := sameEnd_write (C := C) { s with m_writeQueue := s.m_writeQueue.tail }
  exact ⟨h.reading, h.isOpen, h.m_dropped, h.m_lastDisconnect⟩

/-- A packet of a session itself. -/
def Own (p : Bytes) : Prop := Sound p ∧ ∀ caps, decode caps p = none

theorem own_ping : Own pingPacket := ⟨sound_ping, fun _ => rfl⟩

theorem own_pong : Own pongPacket := ⟨sound_pong, fun _ => rfl⟩

theorem own_disconnect (_reason : DisconnectReason) : Own (disconnectPacket _reason) :=
  ⟨sound_disconnect _reason, fun _ => rfl⟩

/-- What a session has done with a packet. -/
structure Handles (C : Ciphers) (s s' : Session) (out : Bytes) (handled : Option Handled)
    (msg : Bytes) : Prop where
  packet : handled.map (·.packet) = decode s.m_capabilities msg
  sends : ∃ news, (∀ p ∈ news, Own p) ∧ Sends C s s' out news
  isOpen : s.m_dropped = !s.isOpen → s'.m_dropped = !s'.isOpen
  fault : s'.m_lastDisconnect = some .badProtocol →
    s.m_lastDisconnect = some .badProtocol ∨ ∃ e ∈ handled, e.threw = true
  interpreted : ∀ e ∈ handled, ∃ i ∈ s.m_capabilities,
    i.desc = e.packet.desc ∧ e.interpreted = i.m_enabled

theorem drop_isOpen {_reason : DisconnectReason} (h : s.m_dropped = !s.isOpen) :
    (s.drop _reason).m_dropped = !(s.drop _reason).isOpen := by
  rw [drop]
  split
  · exact h
  · rfl

theorem drop_reading (_reason : DisconnectReason) : (s.drop _reason).reading = s.reading := by
  rw [drop]
  split <;> rfl

theorem drop_fault {_reason : DisconnectReason} (hreason : _reason ≠ .badProtocol)
    (h : (s.drop _reason).m_lastDisconnect = some .badProtocol) :
    s.m_lastDisconnect = some .badProtocol := by
  rw [drop] at h
  split at h
  · exact h
  · exact absurd (Option.some.inj h) hreason

theorem disconnect_isOpen (_reason : DisconnectReason) (h : s.m_dropped = !s.isOpen) :
    (s.disconnect C _reason).1.m_dropped = !(s.disconnect C _reason).1.isOpen := by
  have hsame := sameEnd_send (C := C) (disconnectPacket _reason) s
  have hsend : (s.send C (disconnectPacket _reason)).1.m_dropped =
      !(s.send C (disconnectPacket _reason)).1.isOpen := by
    rw [hsame.m_dropped, hsame.isOpen, h]
  exact drop_isOpen hsend

theorem handles_interpret {b : UInt8} {data : Bytes} (h : Sound (b :: data))
    (hb : b.toNat < UserPacket) :
    Handles C s (s.interpret C b.toNat data).1 (s.interpret C b.toNat data).2 none (b :: data) := by
  have hdecode : none = decode s.m_capabilities (b :: data) := by rw [decode, if_pos hb]
  have hkeep : Handles C s s [] none (b :: data) :=
    ⟨hdecode, ⟨[], by simp, sends_self s⟩, id, .inl, nofun⟩
  rw [interpret.eq_def]
  split
  · rename_i hone
    obtain rfl : b = 1 := UInt8.toNat_inj.mp hone
    obtain ⟨r, hr⟩ := Option.isSome_iff_exists.mp ((h.head 1 data rfl).2 rfl)
    rw [hr]
    exact ⟨hdecode, ⟨[], by simp, (sends_self s).drop _⟩, drop_isOpen,
      fun hfault => .inl (drop_fault (by decide) hfault), nofun⟩
  · have hsame := sameEnd_send (C := C) pongPacket s
    refine ⟨hdecode, ⟨[pongPacket], by simpa using own_pong, sends_send _ s⟩, fun hs => ?_,
      fun hfault => .inl (hsame.m_lastDisconnect ▸ hfault), nofun⟩
    rw [hsame.m_dropped, hsame.isOpen, hs]
  · exact hkeep

theorem handles_readPacket {b : UInt8} {data : Bytes} (h : Sound (b :: data)) (throws : Bool) :
    Handles C s (s.readPacket C throws 0 b.toNat data).1 (s.readPacket C throws 0 b.toNat data).2.1
      (s.readPacket C throws 0 b.toNat data).2.2 (b :: data) := by
  rw [readPacket]
  by_cases hb : b.toNat < UserPacket
  · rw [if_pos ⟨rfl, hb⟩]
    exact handles_interpret h hb
  · rw [if_neg fun hboth => hb hboth.2]
    cases hcap : capabilityOf b.toNat s.m_capabilities with
    | none =>
        have hdecode : decode s.m_capabilities (b :: data) = none := by
          rw [decode, if_neg hb, hcap]
          rfl
        exact ⟨hdecode.symm, ⟨[], by simp, sends_self s⟩, id, .inl, nofun⟩
    | some i =>
        have hdecode : decode s.m_capabilities (b :: data) =
            some ⟨i.desc, b.toNat - i.m_idOffset, data⟩ := by
          rw [decode, if_neg hb, hcap]
          rfl
        have hmem : i ∈ s.m_capabilities := List.mem_of_find?_eq_some hcap
        dsimp only
        split
        · rename_i hthrows
          rw [Bool.and_eq_true] at hthrows
          refine ⟨hdecode.symm, ⟨_, ?_, sends_disconnect .badProtocol s⟩, disconnect_isOpen _,
            fun _ => .inr ⟨_, rfl, rfl⟩, ?_⟩
          · simpa using own_disconnect .badProtocol
          · intro e he
            cases he
            exact ⟨i, hmem, rfl, hthrows.1.symm⟩
        · refine ⟨hdecode.symm, ⟨[], by simp, sends_self s⟩, id, .inl, ?_⟩
          intro e he
          cases he
          exact ⟨i, hmem, rfl, rfl⟩

theorem doRead_spec (s : Session) :
    s.doRead.reading = (if s.m_dropped then .stopped else .waiting .header) ∧
      s.doRead.isOpen = s.isOpen ∧ s.doRead.m_dropped = s.m_dropped ∧
      s.doRead.m_lastDisconnect = s.m_lastDisconnect := by
  rw [doRead]
  split <;> exact ⟨rfl, rfl, rfl, rfl⟩

/-- A packet that no session refuses is handled, and the next one is read. -/
theorem handles_readFrame (h : Sound p) (throws : Bool) :
    Handles C s (s.readFrame C throws 0 p).1 (s.readFrame C throws 0 p).2.1
        (s.readFrame C throws 0 p).2.2 p ∧
      (s.readFrame C throws 0 p).1.reading =
        if (s.readFrame C throws 0 p).1.m_dropped then .stopped else .waiting .header := by
  rw [readFrame, h.check]
  cases p with
  | nil => exact absurd h.check (by decide)
  | cons b data =>
      have hlow : b.toNat < 0x80 := by
        have hcheck := h.check
        rw [checkPacket] at hcheck
        split at hcheck
        · cases hcheck
        · omega
      have htype : RLP.toInt 4 ((b :: data).take 1) = some b.toNat := by
        have hpos := (h.head b data rfl).1
        have hgood : b.toNat ≠ 0x81 := by omega
        simp [RLP.toInt, RLP.requireGood, RLP.isInt, RLP.payload, RLP.length, RLP.payloadOffset,
          RLP.cropped, fromBigEndian, hlow, hgood, hpos.ne']
      rw [htype]
      have hhandles := handles_readPacket (C := C) (s := s) h throws
      obtain ⟨hreading, hopen, hdropped, hlast⟩ :=
        doRead_spec (s.readPacket C throws 0 b.toNat data).1
      refine ⟨⟨hhandles.packet, ?_, fun hs => ?_, fun hfault => ?_, hhandles.interpreted⟩, ?_⟩
      · obtain ⟨news, hnews, hsends⟩ := hhandles.sends
        exact ⟨news, hnews, hsends.doRead⟩
      · exact hdropped.trans ((hhandles.isOpen hs).trans (congrArg _ hopen.symm))
      · exact hhandles.fault (hlast ▸ hfault)
      · exact hreading.trans (by rw [← hdropped]; rfl)

end Session

end CppSwc
