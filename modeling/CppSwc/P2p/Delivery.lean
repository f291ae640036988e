import CppSwc.P2p.Packets

/-!
# What is sent is handled

The capabilities of a session send packets, and the session of the other end hands each of
them to the capability of the same name and version, in the order in which they were sent.
No packet is changed, lost or handled twice, whatever the two ends do at the same time, until
one of them closes its socket.  What is handled then is a part of what was sent, from the
first packet on.

The invariant `Flow` is about one direction.  It says what the reader will make of the bytes
on the connection (`Transport.Delivers`), and that the packets on the way, those in the
write queue and those handled are what was sent.
-/

namespace CppSwc.Link

open Lib Session

variable {C : Ciphers} {caps : List Capability} {s s' t t' : Session} {wire out : Bytes}
  {sent : List CapPacket} {handled : List Handled} {news : List Bytes} {reading : Reading}

/-! ## One direction -/

/-- A packet, as it is read. -/
def seen (msg : Bytes) : RLPXFrameInfo × Bytes := (FrameHeader.single.info msg.length, msg)

/-- The packets on the connection from `s` to `t`, the bytes of theirs that are lost, the coder
that has written them, and what comes behind them. -/
structure FlowOf (C : Ciphers) (caps : List Capability) (s t : Session) (wire : Bytes)
    (sent : List CapPacket) (handled : List Handled) (reading : Reading) (msgs : List Bytes)
    (lost : Bytes) (w : RLPXFrameCoder) (later : List CapPacket) : Prop where
  sound : ∀ msg ∈ msgs, Sound msg
  delivers : (RLPXFrameCoder.transport C).Delivers RLPXFrameCoder.Sync (t.m_io, reading)
    (wire ++ lost) (msgs.map seen) w
  whole : s.isOpen = true → lost = [] ∧ w = s.m_io ∧ (∀ msg ∈ s.pending, Sound msg) ∧
    later = s.pending.filterMap (decode caps)
  sent : sent = handled.map (·.packet) ++ (msgs.filterMap (decode caps) ++ later)

/-- What was sent is handled, on its way or in the queue. -/
def Flow (C : Ciphers) (caps : List Capability) (s t : Session) (wire : Bytes)
    (sent : List CapPacket) (handled : List Handled) (reading : Reading) : Prop :=
  ∃ msgs lost w later, FlowOf C caps s t wire sent handled reading msgs lost w later

/-- What holds of a direction, by what its reader is at. -/
def Direction (C : Ciphers) (caps : List Capability) (s t : Session) (wire : Bytes)
    (sent : List CapPacket) (handled : List Handled) : Prop :=
  match t.reading with
  | .idle => Flow C caps s t wire sent handled .header
  | .waiting reading => Flow C caps s t wire sent handled reading
  | .stopped => handled.map (·.packet) <+: sent

theorem Flow.handled_sent (h : Flow C caps s t wire sent handled reading) :
    handled.map (·.packet) <+: sent := by
  obtain ⟨msgs, lost, w, later, h⟩ := h
  exact ⟨_, h.sent.symm⟩

/-- The sender goes on. -/
theorem Flow.sends (h : Flow C caps s t wire sent handled reading)
    (hsends : Sends C s s' out news) (hnews : ∀ p ∈ news, Sound p) :
    Flow C caps s' t (wire ++ out)
      (if s.isOpen then sent ++ news.filterMap (decode caps) else sent) handled reading := by
  obtain ⟨msgs, lost, w, later, h⟩ := h
  by_cases hopen : s.isOpen = true
  · obtain ⟨rfl, rfl, hpending, rfl⟩ := h.whole hopen
    obtain ⟨o, hqueue, hemit⟩ := hsends.opened hopen
    have hsound : ∀ p ∈ o.toList ++ s'.pending, Sound p := by
      intro p hp
      rw [← hqueue] at hp
      exact (List.mem_append.mp hp).elim (hpending p) (hnews p)
    have hdelivers : (RLPXFrameCoder.transport C).Delivers RLPXFrameCoder.Sync (t.m_io, reading)
        (wire ++ out) ((msgs ++ o.toList).map seen) s'.m_io := by
      have hdelivers := h.delivers
      rw [List.append_nil] at hdelivers
      cases o with
      | none =>
          obtain ⟨rfl, hio⟩ := Prod.mk.inj hemit
          rw [hio]
          simpa using hdelivers
      | some msg =>
          have hshort := (hsound msg (by simp)).short
          have hwrite := hdelivers.write (RLPXFrameCoder.lawful C) (m := (FrameHeader.single, msg))
            ⟨trivial, hshort⟩
          obtain ⟨hout, hio⟩ := Prod.mk.inj hemit
          rw [hout, hio, List.map_append]
          exact hwrite
    refine ⟨msgs ++ o.toList, [], s'.m_io, s'.pending.filterMap (decode caps), ?_, ?_, ?_, ?_⟩
    · intro p hp
      exact (List.mem_append.mp hp).elim (h.sound p) fun hp =>
        hsound p (List.mem_append_left _ hp)
    · rw [List.append_nil]
      exact hdelivers
    · exact fun _ => ⟨rfl, rfl, fun p hp => hsound p (List.mem_append_right _ hp), rfl⟩
    · rw [if_pos hopen, h.sent, List.filterMap_append, List.append_assoc, List.append_assoc,
        List.append_assoc, ← List.filterMap_append, hqueue, List.filterMap_append]
  · rw [Bool.not_eq_true] at hopen
    obtain ⟨rfl, hclosed⟩ := hsends.closed hopen
    rw [List.append_nil, if_neg (by rw [hopen]; decide)]
    exact ⟨msgs, lost, w, later, h.sound, h.delivers,
      fun h' => absurd (hclosed.symm.trans h') (by decide), h.sent⟩

/-- The reader writes something itself. -/
theorem Flow.of_reader (h : Flow C caps s t wire sent handled reading)
    (ht : RLPXFrameCoder.ReadsAs t.m_io t'.m_io) : Flow C caps s t' wire sent handled reading := by
  obtain ⟨msgs, lost, w, later, h⟩ := h
  exact ⟨msgs, lost, w, later, h.sound, RLPXFrameCoder.delivers_of_readsAs h.delivers ht, h.whole,
    h.sent⟩

/-- The sender reads something. -/
theorem Flow.of_writer (h : Flow C caps s t wire sent handled reading)
    (hs : RLPXFrameCoder.WritesAs s.m_io s'.m_io) (hopen : s'.isOpen = s.isOpen)
    (hqueue : s'.m_writeQueue = s.m_writeQueue) : Flow C caps s' t wire sent handled reading := by
  obtain ⟨msgs, lost, w, later, h⟩ := h
  by_cases hs' : s.isOpen = true
  · obtain ⟨hlost, rfl, hpending, hlater⟩ := h.whole hs'
    refine ⟨msgs, lost, s'.m_io, later, h.sound, RLPXFrameCoder.delivers_of_writesAs h.delivers hs,
      fun _ => ⟨hlost, rfl, ?_, ?_⟩, h.sent⟩
    · rw [pending, hqueue]
      exact hpending
    · rw [pending, hqueue]
      exact hlater
  · exact ⟨msgs, lost, w, later, h.sound, h.delivers, fun h' => absurd (hopen ▸ h') hs', h.sent⟩

/-- Bytes are lost after the sender has closed its socket. -/
theorem Flow.lose (h : Flow C caps s t wire sent handled reading) (hclosed : s.isOpen = false)
    (left : ℕ) : Flow C caps s t (wire.take left) sent handled reading := by
  obtain ⟨msgs, lost, w, later, h⟩ := h
  refine ⟨msgs, wire.drop left ++ lost, w, later, h.sound, ?_,
    fun h' => absurd (hclosed.symm.trans h') (by decide), h.sent⟩
  rw [← List.append_assoc, List.take_append_drop]
  exact h.delivers

/-- The packets that are left after one was handled. -/
theorem FlowOf.handle {msg : Bytes} {msgs : List Bytes} {lost : Bytes} {w : RLPXFrameCoder}
    {later : List CapPacket} {o : Option Handled}
    (h : FlowOf C caps s t wire sent handled reading (msg :: msgs) lost w later)
    (ho : o.map (·.packet) = decode caps msg) :
    sent = (handled ++ o.toList).map (·.packet) ++ (msgs.filterMap (decode caps) ++ later) := by
  rw [h.sent, List.map_append, List.append_assoc, List.filterMap_cons, ← ho]
  cases o <;> rfl

/-- What a read does. -/
structure Reads (C : Ciphers) (caps : List Capability) (s t t' : Session) (wire out : Bytes)
    (sent : List CapPacket) (handled : List Handled) (o : Option Handled) : Prop where
  handles : ∃ c msg, RLPXFrameCoder.WritesAs t.m_io c ∧ Handles C { t with m_io := c } t' out o msg
  direction : Direction C caps s t' wire sent (handled ++ o.toList)
  stopped : t'.reading = .stopped → t'.m_dropped = true

/-- The reader reads. -/
theorem Flow.read (h : Flow C caps s t wire sent handled reading)
    (hports : t.m_capabilities.map Capability.port = caps.map Capability.port)
    (hneed : reading.need ≤ wire.length) (throws : Bool) :
    Reads C caps s t (t.read C throws reading (wire.take reading.need)).1 (wire.drop reading.need)
      (t.read C throws reading (wire.take reading.need)).2.1 sent handled
      (t.read C throws reading (wire.take reading.need)).2.2 := by
  obtain ⟨msgs, lost, w, later, h⟩ := h
  obtain ⟨o, r, rest, hfeed, hmsgs, hdelivers⟩ := h.delivers.feed (RLPXFrameCoder.lawful C)
    (hneed.trans (by simp))
  change RLPXFrameCoder.readNext C (t.m_io, reading) ((wire ++ lost).take reading.need) = _ at hfeed
  change (RLPXFrameCoder.transport C).Delivers _ _ ((wire ++ lost).drop reading.need) _ _
    at hdelivers
  rw [List.take_append_of_le_length hneed] at hfeed
  rw [List.drop_append_of_le_length hneed] at hdelivers
  have hwrites := RLPXFrameCoder.writesAs_of_readNext hfeed
  rw [Session.read, hfeed]
  obtain ⟨c, reading'⟩ := r
  cases o with
  | none =>
      dsimp only
      refine ⟨⟨c, [], hwrites, rfl, ⟨[], by simp, (sends_self _).stop _⟩, id, .inl, nofun⟩, ?_, nofun⟩
      refine ⟨msgs, lost, w, later, h.sound, ?_, h.whole, ?_⟩
      · rw [hmsgs]
        exact hdelivers
      · rw [h.sent, Option.toList_none, List.append_nil]
  | some m =>
      have hheader : reading' = .header := by
        cases reading with
        | header => simp [RLPXFrameCoder.readNext, Option.bind_eq_some_iff] at hfeed
        | frame info =>
            simp only [RLPXFrameCoder.readNext, Option.bind_eq_bind, Option.bind_eq_some_iff] at hfeed
            obtain ⟨x, -, heq⟩ := hfeed
            cases heq
            rfl
      subst hheader
      obtain ⟨msg, msgs, rfl, hseen, rfl⟩ := List.map_eq_cons_iff.mp hmsgs
      subst hseen
      obtain ⟨hhandles, hreading⟩ := handles_readFrame (C := C) (s := { t with m_io := c })
        (h.sound msg List.mem_cons_self) throws
      have hpacket : ({ t with m_io := c }.readFrame C throws 0 msg).2.2.map Handled.packet =
          decode caps msg := hhandles.packet.trans (decode_port hports msg)
      have hsent := h.handle hpacket
      refine ⟨⟨c, msg, hwrites, hhandles⟩, ?_, ?_⟩
      · change Direction C caps s ({ t with m_io := c }.readFrame C throws 0 msg).1 _ _ _
        rw [Direction, hreading]
        obtain ⟨news, -, hsends⟩ := hhandles.sends
        split
        · rename_i hidle
          split at hidle <;> cases hidle
        · rename_i reading' hwaiting
          split at hwaiting
          · cases hwaiting
          · cases hwaiting
            exact ⟨msgs, lost, w, later, fun p hp => h.sound p (List.mem_cons_of_mem _ hp),
              RLPXFrameCoder.delivers_of_readsAs hdelivers hsends.reads, h.whole, hsent⟩
        · exact ⟨_, hsent.symm⟩
      · change ({ t with m_io := c }.readFrame C throws 0 msg).1.reading = _ →
          ({ t with m_io := c }.readFrame C throws 0 msg).1.m_dropped = _
        rw [hreading]
        split
        · exact fun _ => ‹_›
        · exact nofun

/-! ## What a step does to a direction -/

theorem Direction.handled_sent (h : Direction C caps s t wire sent handled) :
    handled.map (·.packet) <+: sent := by
  rw [Direction] at h
  split at h
  · exact h.handled_sent
  · exact h.handled_sent
  · exact h

theorem Direction.sends (h : Direction C caps s t wire sent handled)
    (hsends : Sends C s s' out news) (hnews : ∀ p ∈ news, Sound p) :
    Direction C caps s' t (wire ++ out)
      (if s.isOpen then sent ++ news.filterMap (decode caps) else sent) handled := by
  rw [Direction] at h ⊢
  split at h
  · exact h.sends hsends hnews
  · exact h.sends hsends hnews
  · split
    · exact h.trans (List.prefix_append _ _)
    · exact h

/-- The sender has nothing of a capability to send. -/
theorem Direction.sends_own (h : Direction C caps s t wire sent handled)
    (hsends : Sends C s s' out news) (hnews : ∀ p ∈ news, Own p) :
    Direction C caps s' t (wire ++ out) sent handled := by
  have hnone : news.filterMap (decode caps) = [] :=
    List.filterMap_eq_nil_iff.mpr fun p hp => (hnews p hp).2 caps
  have hdirection := h.sends hsends fun p hp => (hnews p hp).1
  rwa [hnone, List.append_nil, ite_self] at hdirection

theorem Direction.of_reader (h : Direction C caps s t wire sent handled)
    (ht : RLPXFrameCoder.ReadsAs t.m_io t'.m_io) (hreading : t'.reading = t.reading) :
    Direction C caps s t' wire sent handled := by
  rw [Direction] at h ⊢
  rw [hreading]
  split at h
  · exact h.of_reader ht
  · exact h.of_reader ht
  · exact h

theorem Direction.of_writer (h : Direction C caps s t wire sent handled)
    (hs : RLPXFrameCoder.WritesAs s.m_io s'.m_io) (hopen : s'.isOpen = s.isOpen)
    (hqueue : s'.m_writeQueue = s.m_writeQueue) : Direction C caps s' t wire sent handled := by
  rw [Direction] at h ⊢
  split at h
  · exact h.of_writer hs hopen hqueue
  · exact h.of_writer hs hopen hqueue
  · exact h

theorem Direction.lose (h : Direction C caps s t wire sent handled) (hclosed : s.isOpen = false)
    (left : ℕ) : Direction C caps s t (wire.take left) sent handled := by
  rw [Direction] at h ⊢
  split at h
  · exact h.lose hclosed left
  · exact h.lose hclosed left
  · exact h

/-- The reader reads on. -/
theorem Direction.doRead (h : Direction C caps s t wire sent handled) (hidle : t.reading = .idle) :
    Direction C caps s t.doRead wire sent handled := by
  have hpart := h.handled_sent
  rw [Direction, hidle] at h
  rw [Session.doRead]
  split
  · exact hpart
  · exact h.of_reader (.refl _)

/-! ## The capabilities of an end -/

/-- The packets that were not interpreted come after the capability was disabled. -/
def Ordered (s : Session) (handled : List Handled) (d : CapDesc) : Prop :=
  ∃ done ignored, handled.filter (fun e => e.packet.desc = d) = done ++ ignored ∧
    (∀ e ∈ done, e.interpreted = true) ∧ (∀ e ∈ ignored, e.interpreted = false) ∧
    (ignored ≠ [] → ∀ c ∈ s.m_capabilities, c.desc = d → c.m_enabled = false)

/-- What holds of one end. -/
structure EndOk (caps : List Capability) (s : Session) (handled : List Handled) : Prop where
  ports : s.m_capabilities.map Capability.port = caps.map Capability.port
  isOpen : s.m_dropped = !s.isOpen
  stopped : s.reading = .stopped → s.m_dropped = true
  fault : s.m_lastDisconnect = some .badProtocol → ∃ e ∈ handled, e.threw = true
  alike : ∀ c ∈ s.m_capabilities, ∀ c' ∈ s.m_capabilities, c.desc = c'.desc →
    c.m_enabled = c'.m_enabled
  ordered : ∀ d, Ordered s handled d

theorem Ordered.of_capabilities {d : CapDesc} (h : Ordered s handled d)
    (hs : s'.m_capabilities = s.m_capabilities) : Ordered s' handled d := by
  obtain ⟨done, ignored, hfilter, hdone, hignored, hdisabled⟩ := h
  exact ⟨done, ignored, hfilter, hdone, hignored, fun hne => hs ▸ hdisabled hne⟩

theorem EndOk.of_same (h : EndOk caps s handled) (hs : SameEnd s s')
    (hcapabilities : s'.m_capabilities = s.m_capabilities) : EndOk caps s' handled where
  ports := hcapabilities ▸ h.ports
  isOpen := by rw [hs.m_dropped, hs.isOpen, h.isOpen]
  stopped := by
    rw [hs.reading, hs.m_dropped]
    exact h.stopped
  fault := by
    rw [hs.m_lastDisconnect]
    exact h.fault
  alike := by
    rw [hcapabilities]
    exact h.alike
  ordered d := (h.ordered d).of_capabilities hcapabilities

theorem EndOk.drop (h : EndOk caps s handled) {_reason : DisconnectReason}
    (hreason : _reason ≠ .badProtocol) : EndOk caps (s.drop _reason) handled := by
  rw [Session.drop]
  split
  · exact h
  · exact ⟨h.ports, rfl, fun _ => rfl, fun hfault => absurd (Option.some.inj hfault) hreason,
      h.alike, fun d => (h.ordered d).of_capabilities rfl⟩

theorem EndOk.doRead (h : EndOk caps s handled) : EndOk caps s.doRead handled := by
  rw [Session.doRead]
  split
  · exact ⟨h.ports, h.isOpen, fun _ => ‹_›, h.fault, h.alike,
      fun d => (h.ordered d).of_capabilities rfl⟩
  · refine ⟨h.ports, h.isOpen, fun hstopped => ?_, h.fault, h.alike,
      fun d => (h.ordered d).of_capabilities rfl⟩
    cases hstopped

/-- A packet is handled after the others. -/
theorem Ordered.handle {d : CapDesc} (h : Ordered s handled d) {o : Option Handled}
    (halike : ∀ c ∈ s.m_capabilities, ∀ c' ∈ s.m_capabilities, c.desc = c'.desc →
      c.m_enabled = c'.m_enabled)
    (ho : ∀ e ∈ o, ∃ i ∈ s.m_capabilities, i.desc = e.packet.desc ∧ e.interpreted = i.m_enabled) :
    Ordered s (handled ++ o.toList) d := by
  cases o with
  | none => simpa using h
  | some e =>
      obtain ⟨i, hi, hdesc, hinterpreted⟩ := ho e rfl
      obtain ⟨done, ignored, hfilter, hdone, hignored, hdisabled⟩ := h
      by_cases hd : e.packet.desc = d
      · have hnow : (handled ++ (some e).toList).filter (fun e => e.packet.desc = d) =
            done ++ ignored ++ [e] := by
          rw [List.filter_append, hfilter]
          simp [hd]
        cases henabled : i.m_enabled with
        | true =>
            have hnone : ignored = [] := by
              by_contra hne
              have hfalse := hdisabled hne i hi (hdesc.trans hd)
              exact Bool.noConfusion (henabled.symm.trans hfalse)
            subst hnone
            refine ⟨done ++ [e], [], by simpa using hnow, ?_, by simp, fun hne => absurd rfl hne⟩
            intro x hx
            rcases List.mem_append.mp hx with hx | hx
            · exact hdone x hx
            · rw [List.mem_singleton.mp hx, hinterpreted, henabled]
        | false =>
            refine ⟨done, ignored ++ [e], by simpa using hnow, hdone, ?_, fun _ c hc hcd => ?_⟩
            · intro x hx
              rcases List.mem_append.mp hx with hx | hx
              · exact hignored x hx
              · rw [List.mem_singleton.mp hx, hinterpreted, henabled]
            · rw [halike c hc i hi (hcd.trans (hdesc.trans hd).symm), henabled]
      · refine ⟨done, ignored, ?_, hdone, hignored, hdisabled⟩
        rw [List.filter_append, hfilter]
        simp [hd]

/-- An end has handled a packet. -/
theorem EndOk.handle (h : EndOk caps s handled) {c : RLPXFrameCoder} {o : Option Handled}
    {msg : Bytes} (hhandles : Handles C { s with m_io := c } s' out o msg)
    (hstopped : s'.reading = .stopped → s'.m_dropped = true) :
    EndOk caps s' (handled ++ o.toList) := by
  obtain ⟨news, -, hsends⟩ := hhandles.sends
  have hcapabilities : s'.m_capabilities = s.m_capabilities := hsends.capabilities
  refine ⟨hcapabilities ▸ h.ports, hhandles.isOpen h.isOpen, hstopped, fun hfault => ?_, ?_,
    fun d => ?_⟩
  · rcases hhandles.fault hfault with hold | ⟨e, he, hthrew⟩
    · obtain ⟨e, he, hthrew⟩ := h.fault hold
      exact ⟨e, List.mem_append_left _ he, hthrew⟩
    · exact ⟨e, List.mem_append_right _ (Option.mem_toList.mpr he), hthrew⟩
  · rw [hcapabilities]
    exact h.alike
  · exact ((h.ordered d).handle h.alike hhandles.interpreted).of_capabilities hcapabilities

/-- A capability is disabled. -/
theorem EndOk.disable (h : EndOk caps s handled) (desc : CapDesc) :
    EndOk caps { s with m_capabilities := s.m_capabilities.map fun c =>
      if c.desc = desc then { c with m_enabled := false } else c } handled := by
  have hport : ∀ c : Capability,
      (if c.desc = desc then { c with m_enabled := false } else c).port = c.port := by
    intro c
    split <;> rfl
  have hdesc : ∀ c : Capability,
      (if c.desc = desc then { c with m_enabled := false } else c).desc = c.desc := fun c =>
    congrArg Prod.fst (hport c)
  have henabled : ∀ c : Capability,
      (if c.desc = desc then { c with m_enabled := false } else c).m_enabled =
        (c.m_enabled && decide (c.desc ≠ desc)) := by
    intro c
    split <;> simp_all
  refine ⟨?_, h.isOpen, h.stopped, h.fault, ?_, fun d => ?_⟩
  · rw [← h.ports, List.map_map]
    exact List.map_congr_left fun c _ => hport c
  · intro c hc c' hc' heq
    obtain ⟨x, hx, rfl⟩ := List.mem_map.mp hc
    obtain ⟨x', hx', rfl⟩ := List.mem_map.mp hc'
    rw [hdesc, hdesc] at heq
    rw [henabled, henabled, h.alike x hx x' hx' heq, heq]
  · obtain ⟨done, ignored, hfilter, hdone, hignored, hdisabled⟩ := h.ordered d
    refine ⟨done, ignored, hfilter, hdone, hignored, fun hne c hc hcd => ?_⟩
    obtain ⟨x, hx, rfl⟩ := List.mem_map.mp hc
    rw [hdesc] at hcd
    rw [henabled, hdisabled hne x hx hcd, Bool.false_and]

/-! ## Runs -/

/-- The invariant of a connection. -/
structure Inv (C : Ciphers) (caps : List Capability) (l : Link) : Prop where
  direction : ∀ side, Direction C caps (l.session side) (l.session side.other) (l.wire side)
    (l.sent side) (l.handled side.other)
  ends : ∀ side, EndOk caps (l.session side) (l.handled side)

variable {l l' : Link}

/-- One end has changed. -/
theorem Inv.change (h : Inv C caps l) (side : Side)
    (hother : l'.session side.other = l.session side.other)
    (hsent : l'.sent side.other = l.sent side.other)
    (hhandled : l'.handled side.other = l.handled side.other)
    (hout : Direction C caps (l'.session side) (l.session side.other) (l'.wire side) (l'.sent side)
      (l.handled side.other))
    (hin : Direction C caps (l.session side.other) (l'.session side) (l'.wire side.other)
      (l.sent side.other) (l'.handled side))
    (hend : EndOk caps (l'.session side) (l'.handled side)) : Inv C caps l' := by
  refine ⟨fun side' => ?_, fun side' => ?_⟩
  · rcases side.eq_or side' with rfl | rfl
    · rw [hother, hhandled]
      exact hout
    · rw [Side.other_other, hother, hsent]
      exact hin
  · rcases side.eq_or side' with rfl | rfl
    · exact hend
    · rw [hother, hhandled]
      exact h.ends _

/-- An end has sent something of its own. -/
theorem Inv.update_own (h : Inv C caps l) (side : Side)
    (hsends : Sends C (l.session side) s' out news) (hnews : ∀ p ∈ news, Own p)
    (hreading : s'.reading = (l.session side).reading) (hend : EndOk caps s' (l.handled side)) :
    Inv C caps (l.update side (s', out)) := by
  refine h.change side ?_ rfl rfl ?_ ?_ ?_
  · simp [update, Function.update_of_ne side.other_ne]
  · simp only [update, Function.update_self]
    exact (h.direction side).sends_own hsends hnews
  · simp only [update, Function.update_self, Function.update_of_ne side.other_ne]
    have hin := h.direction side.other
    rw [Side.other_other] at hin
    exact hin.of_reader hsends.reads hreading
  · simp only [update, Function.update_self]
    exact hend

/-- The condition for a step: a capability sends packets of its own, each a list of bounded length,
and the host does not disconnect for a bad packet. -/
def Allowed (l : Link) : Op → Prop
  | .sealAndSend side packet =>
      (∀ c ∈ (l.session side).m_capabilities, c.desc = packet.desc → packet.id < c.messageCount) ∧
        packet.data ≠ [] ∧ RLP.ofBytes packet.data = some packet.data ∧
        packet.data.length + 1 < 2 ^ 24
  | .disconnect _ _reason => _reason ≠ .badProtocol
  | _ => True

/-- All numbers of the capabilities are bytes that `checkPacket` lets pass. -/
def FitsByte (caps : List Capability) : Prop :=
  Consecutive UserPacket caps ∧ ∀ c ∈ caps, c.m_idOffset + c.messageCount ≤ 0x80

theorem consecutive_of_port {cs cs' : List Capability} {offset : ℕ}
    (h : cs.map Capability.port = cs'.map Capability.port) (hcs' : Consecutive offset cs') :
    Consecutive offset cs := by
  induction cs generalizing cs' offset with
  | nil => trivial
  | cons c cs ih =>
      cases cs' with
      | nil => cases h
      | cons c' cs' =>
          obtain ⟨hport, hrest⟩ := List.cons.inj h
          simp only [Capability.port, Prod.mk.injEq] at hport
          obtain ⟨-, hoffset, hcount⟩ := hport
          rw [Consecutive, hoffset, hcount]
          exact ⟨hcs'.1, ih hrest hcs'.2⟩

/-- The other end sees a packet of a capability as what it is. -/
theorem packet_spec (hfits : FitsByte caps)
    (hports : s.m_capabilities.map Capability.port = caps.map Capability.port) {c : Capability}
    (hc : c ∈ s.m_capabilities) {id : ℕ} {data : Bytes} (hid : id < c.messageCount)
    (hne : data ≠ []) (hdata : RLP.ofBytes data = some data) (hlength : data.length + 1 < 2 ^ 24) :
    Sound (c.packet id data) ∧ decode caps (c.packet id data) = some ⟨c.desc, id, data⟩ := by
  have hconsecutive := consecutive_of_port hports hfits.1
  have hlo : 0x10 ≤ c.m_idOffset := hconsecutive.le hc
  have hhi : c.m_idOffset + c.messageCount ≤ 0x80 := by
    have hmem : c.port ∈ caps.map Capability.port := hports ▸ List.mem_map_of_mem hc
    obtain ⟨c', hc', heq⟩ := List.mem_map.mp hmem
    simp only [Capability.port, Prod.mk.injEq] at heq
    rw [← heq.2.1, ← heq.2.2]
    exact hfits.2 c' hc'
  have hbyte : (UInt8.ofNat (id + c.m_idOffset)).toNat = id + c.m_idOffset := by
    rw [UInt8.toNat_ofNat']
    omega
  refine ⟨⟨?_, ?_, ?_⟩, ?_⟩
  · rwa [Capability.packet, List.length_cons]
  · exact checkPacket_cons (by omega) hne hdata
  · rintro b body heq
    cases heq
    refine ⟨by omega, fun hone => ?_⟩
    rw [hone] at hbyte
    change 1 = _ at hbyte
    omega
  · have hcap := hconsecutive.capabilityOf (t := id + c.m_idOffset) hc (by omega) (by omega)
    rw [← decode_port hports, Capability.packet, decode, hbyte, if_neg (by rw [UserPacket]; omega),
      hcap]
    simp

theorem inv_read (h : Inv C caps l) (side : Side) {reading : Reading}
    (hdirection : Flow C caps (l.session side.other) (l.session side) (l.wire side.other)
      (l.sent side.other) (l.handled side) reading)
    (hneed : reading.need ≤ (l.wire side.other).length) (throws : Bool)
    (hwire : l'.wire = Function.update
      (Function.update l.wire side.other ((l.wire side.other).drop reading.need)) side
      (l.wire side ++ ((l.session side).read C throws reading
        ((l.wire side.other).take reading.need)).2.1))
    (hsession : l'.session = Function.update l.session side
      ((l.session side).read C throws reading ((l.wire side.other).take reading.need)).1)
    (hsent : l'.sent = l.sent)
    (hhandled : l'.handled = Function.update l.handled side
      (l.handled side ++ ((l.session side).read C throws reading
        ((l.wire side.other).take reading.need)).2.2.toList)) : Inv C caps l' := by
  obtain ⟨⟨c, msg, hwrites, hhandles⟩, hread, hstopped⟩ :=
    hdirection.read (h.ends side).ports hneed throws
  have hend := (h.ends side).handle hhandles hstopped
  obtain ⟨news, hnews, hsends⟩ := hhandles.sends
  have hout : Direction C caps { l.session side with m_io := c } _ _ _ _ :=
    (h.direction side).of_writer hwrites rfl rfl
  refine h.change side ?_ ?_ ?_ ?_ ?_ ?_
  · rw [hsession, Function.update_of_ne side.other_ne]
  · rw [hsent]
  · rw [hhandled, Function.update_of_ne side.other_ne]
  · rw [hsession, hwire, hsent, Function.update_self, Function.update_self]
    exact hout.sends_own hsends hnews
  · rw [hsession, hwire, hhandled, Function.update_self, Function.update_self,
      Function.update_of_ne side.other_ne, Function.update_self]
    exact hread
  · rw [hsession, hhandled, Function.update_self, Function.update_self]
    exact hend

/-- Every step keeps the invariant. -/
theorem inv_step (hfits : FitsByte caps) (h : Inv C caps l) {op : Op} (hop : Allowed l op)
    (hstep : step C l op = some l') : Inv C caps l' := by
  cases op with
  | start side =>
      rw [step] at hstep
      split at hstep
      · rename_i hidle
        cases hstep
        have hsame := sameEnd_send (C := C) pingPacket (l.session side)
        have hsends := sends_send (C := C) pingPacket (l.session side)
        have hin := h.direction side.other
        rw [Side.other_other] at hin
        refine h.change side ?_ rfl rfl ?_ ?_ ?_
        · simp [update, Function.update_of_ne side.other_ne]
        · simp only [update, Function.update_self]
          exact (h.direction side).sends_own (hsends.doRead) (by simpa using own_ping)
        · simp only [update, Function.update_self, Function.update_of_ne side.other_ne]
          exact (hin.of_reader hsends.reads hsame.reading).doRead (hsame.reading.trans hidle)
        · simp only [update, Function.update_self]
          exact ((h.ends side).of_same hsame hsends.capabilities).doRead
      · cases hstep
  | ping side =>
      cases hstep
      have hsame := sameEnd_send (C := C) pingPacket (l.session side)
      have hsends := sends_send (C := C) pingPacket (l.session side)
      exact h.update_own side hsends (by simpa using own_ping) hsame.reading
        ((h.ends side).of_same hsame hsends.capabilities)
  | sealAndSend side packet =>
      rw [step] at hstep
      split at hstep
      · cases hstep
      · rename_i c hfind
        cases hstep
        have hmem := List.mem_of_find?_eq_some hfind
        have hdesc : c.desc = packet.desc := by simpa using List.find?_some hfind
        obtain ⟨hid, hne, hdata, hlength⟩ := hop
        obtain ⟨hsound, hdecode⟩ := packet_spec hfits (h.ends side).ports hmem (hid c hmem hdesc)
          hne hdata hlength
        have hsame := sameEnd_send (C := C) (c.packet packet.id packet.data) (l.session side)
        have hsends := sends_send (C := C) (c.packet packet.id packet.data) (l.session side)
        have hpacket : [c.packet packet.id packet.data].filterMap (decode caps) = [packet] := by
          rw [List.filterMap_cons, hdecode, hdesc]
          rfl
        have hin := h.direction side.other
        rw [Side.other_other] at hin
        refine h.change side ?_ ?_ rfl ?_ ?_ ?_
        · simp [update, Function.update_of_ne side.other_ne]
        · simp [update, Function.update_of_ne side.other_ne]
        · simp only [update, Function.update_self]
          have hout := (h.direction side).sends hsends (by simpa using hsound)
          rwa [hpacket] at hout
        · simp only [update, Function.update_self, Function.update_of_ne side.other_ne]
          exact hin.of_reader hsends.reads hsame.reading
        · simp only [update, Function.update_self]
          exact (h.ends side).of_same hsame hsends.capabilities
  | written side =>
      rw [step] at hstep
      split at hstep
      · cases hstep
      · cases hstep
        have hsame := sameEnd_written (C := C) (l.session side)
        have hsends := sends_written (C := C) (l.session side)
        exact h.update_own side hsends (by simp) hsame.reading
          ((h.ends side).of_same hsame hsends.capabilities)
  | read side throws =>
      rw [step] at hstep
      split at hstep
      · rename_i reading hreading
        split at hstep
        · rename_i hneed
          cases hstep
          have hin := h.direction side.other
          rw [Side.other_other, Direction, hreading] at hin
          have hother : Function.update l.wire side.other
              ((l.wire side.other).drop reading.need) side = l.wire side :=
            Function.update_of_ne side.other_ne.symm _ _
          exact inv_read h side hin hneed throws (congrArg (Function.update _ side) (congrArg (· ++ _) hother))
            rfl rfl rfl
        · cases hstep
      · cases hstep
  | error side =>
      cases hstep
      exact h.update_own side ((sends_self _).drop _) (by simp) (drop_reading _)
        ((h.ends side).drop (by decide))
  | disconnect side _reason =>
      cases hstep
      have hsame := sameEnd_send (C := C) (disconnectPacket _reason) (l.session side)
      have hsends := sends_send (C := C) (disconnectPacket _reason) (l.session side)
      exact h.update_own side (sends_disconnect _reason _) (by simpa using own_disconnect _reason)
        ((drop_reading _).trans hsame.reading)
        (((h.ends side).of_same hsame hsends.capabilities).drop hop)
  | disable side desc =>
      cases hstep
      have hin := h.direction side.other
      rw [Side.other_other] at hin
      refine h.change side ?_ rfl rfl ?_ ?_ ?_
      · simp [update, Function.update_of_ne side.other_ne]
      · simp only [update, Function.update_self, List.append_nil]
        exact (h.direction side).of_writer ⟨rfl, rfl, rfl, rfl⟩ rfl rfl
      · simp only [update, Function.update_self, Function.update_of_ne side.other_ne]
        exact hin.of_reader (.refl _) rfl
      · simp only [update, Function.update_self]
        exact (h.ends side).disable desc
  | lose side left =>
      rw [step] at hstep
      split at hstep
      · cases hstep
      · rename_i hclosed
        cases hstep
        rw [Bool.not_eq_true] at hclosed
        have hin := h.direction side.other
        rw [Side.other_other] at hin
        refine h.change side rfl rfl rfl ?_ ?_ (h.ends side)
        · simp only [Function.update_self]
          exact (h.direction side).lose hclosed left
        · simp only [Function.update_of_ne side.other_ne]
          exact hin

section Main

variable {capabilities : Side → CapabilityMap}

/-- Both hosts count the packets of the capabilities that they share alike. -/
def SameCounts (capabilities : Side → CapabilityMap) : Prop :=
  ∀ d ∈ (capabilities .left).caps, d ∈ (capabilities .right).caps →
    (capabilities .left).messageCount d = (capabilities .right).messageCount d

theorem inv_reach (hcounts : SameCounts capabilities)
    (hfits : ∀ c ∈ (capabilities .left).negotiate (capabilities .right).caps,
      c.m_idOffset + c.messageCount ≤ 0x80)
    (h : (system C capabilities).Reach Allowed l) :
    Inv C ((capabilities .left).negotiate (capabilities .right).caps) l := by
  refine h.invariant ?_ fun _ _ _ _ hinv hop hstep =>
    inv_step ⟨consecutive_newPeerCapabilities _ _ _, hfits⟩ hinv hop hstep
  rintro _ ⟨io, hmirror, rfl⟩
  have hsame : ∀ side, (capabilities side).negotiate (capabilities side.other).caps =
      (capabilities .left).negotiate (capabilities .right).caps := by
    intro side
    cases side with
    | left => rfl
    | right => exact (CapabilityMap.negotiate_comm hcounts).symm
  refine ⟨fun side => ?_, fun side => ?_⟩
  · exact ⟨[], [], io side, [], by simp, .done ⟨hmirror side, rfl⟩, fun _ => ⟨rfl, rfl, by simp [initial, pending], rfl⟩,
      rfl⟩
  · refine ⟨?_, rfl, fun h => ?_, fun h => ?_, ?_,
      fun d => ⟨[], [], rfl, by simp, by simp, fun hne => absurd rfl hne⟩⟩
    · exact congrArg _ (hsame side)
    · cases h
    · cases h
    · intro c hc c' hc' _
      have henabled : ∀ (count : CapDesc → ℕ) (offset : ℕ) (ds : List CapDesc),
          ∀ c ∈ newPeerCapabilities count offset ds, c.m_enabled = true := by
        intro count offset ds
        induction ds generalizing offset with
        | nil => simp [newPeerCapabilities]
        | cons d ds ih => simpa [newPeerCapabilities] using ih _
      rw [henabled _ _ _ c hc, henabled _ _ _ c' hc']

/-- Nothing is on its way if nothing is on the connection or in the queue. -/
theorem Direction.settled (h : Direction C caps s t wire sent handled) (hs : s.isOpen = true)
    (ht : t.reading ≠ .stopped) (hwire : wire = []) (hpending : s.pending = []) :
    handled.map (·.packet) = sent := by
  have hflow : ∃ reading, Flow C caps s t wire sent handled reading := by
    rw [Direction] at h
    split at h
    · exact ⟨_, h⟩
    · exact ⟨_, h⟩
    · exact absurd ‹_› ht
  obtain ⟨reading, msgs, lost, w, later, h⟩ := hflow
  obtain ⟨rfl, -, -, rfl⟩ := h.whole hs
  have hmsgs : msgs = [] := by
    have hdelivers := h.delivers
    rw [hwire] at hdelivers
    generalize hms : msgs.map seen = ms at hdelivers
    cases hdelivers with
    | done _ => exact List.map_eq_nil_iff.mp hms
    | read hneed _ _ =>
        exfalso
        change reading.need ≤ 0 at hneed
        cases reading <;> simp [Reading.need] at hneed
  rw [h.sent, hmsgs, hpending]
  simp

/-- In every run of a connection each end handles what the capabilities of the other end have
sent, packet by packet and in order, and each capability interprets what the capability of the
same name and version has sent, until it is disabled.  Nothing is missing when nothing is on its
way.  No end stops reading but after it was dropped, and it drops the other end for a bad
packet only if a capability has thrown. -/
theorem handled_in_order (hcounts : SameCounts capabilities)
    (hfits : ∀ c ∈ (capabilities .left).negotiate (capabilities .right).caps,
      c.m_idOffset + c.messageCount ≤ 0x80)
    (h : (system C capabilities).Reach Allowed l) (side : Side) :
    (l.handled side.other).map (·.packet) <+: l.sent side ∧
      (∀ d, ((l.handled side.other).filter fun e =>
          e.interpreted && decide (e.packet.desc = d)).map (·.packet) <+:
        (l.sent side).filter fun p => p.desc = d) ∧
      ((l.session side).isOpen = true → (l.session side.other).isOpen = true →
        l.wire side = [] → (l.session side).pending = [] →
          (l.handled side.other).map (·.packet) = l.sent side) ∧
      ((l.session side).reading = .stopped → (l.session side).m_dropped = true) ∧
      ((l.session side).m_lastDisconnect = some .badProtocol →
        ∃ e ∈ l.handled side, e.threw = true) := by
  have hinv := inv_reach hcounts hfits h
  have hpart := (hinv.direction side).handled_sent
  refine ⟨hpart, fun d => ?_, fun hs ht hwire hpending => ?_, (hinv.ends side).stopped,
    (hinv.ends side).fault⟩
  · obtain ⟨done, ignored, hfilter, hdone, hignored, -⟩ := (hinv.ends side.other).ordered d
    have hinterpreted : (l.handled side.other).filter (fun e =>
        e.interpreted && decide (e.packet.desc = d)) = done := by
      rw [← List.filter_filter, hfilter, List.filter_append, List.filter_eq_self.mpr hdone,
        List.filter_eq_nil_iff.mpr fun e he => by simp [hignored e he], List.append_nil]
    have hsame : ((l.handled side.other).map (·.packet)).filter (fun p => p.desc = d) =
        done.map (·.packet) ++ ignored.map (·.packet) := by
      rw [List.filter_map, ← List.map_append, ← hfilter]
      rfl
    rw [hinterpreted]
    refine (List.prefix_append _ (ignored.map (·.packet))).trans ?_
    rw [← hsame]
    exact hpart.filter _
  · refine (hinv.direction side).settled hs (fun hstopped => ?_) hwire hpending
    have hdropped := (hinv.ends side.other).stopped hstopped
    rw [(hinv.ends side.other).isOpen, ht] at hdropped
    cases hdropped

end Main

instance (l : Link) : ∀ op, Decidable (Allowed l op)
  | .sealAndSend _ _ => inferInstanceAs (Decidable (_ ∧ _ ∧ _ ∧ _))
  | .disconnect _ _ => inferInstanceAs (Decidable (_ ≠ _))
  | .start _ | .ping _ | .written _ | .read _ _ | .error _ | .disable _ _ | .lose _ _ =>
      .isTrue trivial

/-- Ciphers for runs on fixed inputs. -/
def sampleCiphers : Ciphers where
  sha3 m := BitVec.ofNat 256 (fromBigEndian (m.take 40) * 31 + m.length)
  agree secret _ := some secret
  keystream key position := UInt8.ofNat (key.toNat + position)
  encryptBlock key b := b.map (· ^^^ UInt8.ofNat key.toNat)
  encryptBlock_length _ _ h := by rw [List.length_map, h]

/-- The coders of both ends. -/
def sampleCoder : Side → RLPXFrameCoder
  | .left => RLPXFrameCoder.setupShared sampleCiphers true 2 1 [7, 7] [9] 5
  | .right => RLPXFrameCoder.setupShared sampleCiphers false 1 2 [7, 7] [9] 5

/-- Two capabilities in common, one of them in two versions at one end. -/
def sampleCapabilities : Side → CapabilityMap
  | .left => ⟨[(toLex ("eth", 62), 8), (toLex ("eth", 63), 17), (toLex ("qpos", 1), 9)], by decide⟩
  | .right => ⟨[(toLex ("eth", 63), 17), (toLex ("par", 1), 21), (toLex ("qpos", 1), 9)], by decide⟩

/-- The left end sends a packet of each capability and a ping. -/
def sampleRun : List Op :=
  [.sealAndSend .left ⟨toLex ("eth", 63), 2, [0xc1, 0x05]⟩, .start .right,
    .sealAndSend .left ⟨toLex ("qpos", 1), 3, [0xc0]⟩, .start .left, .read .right false,
    .read .right false, .written .left, .written .left, .written .left, .read .right false,
    .read .right false, .read .right false, .read .right false]

/-- The right end handles both packets. -/
theorem handled_in_order_two :
    ∃ l, (system sampleCiphers sampleCapabilities).Reach Allowed l ∧
      (l.handled .right).map (·.packet) =
        [⟨toLex ("eth", 63), 2, [0xc1, 0x05]⟩, ⟨toLex ("qpos", 1), 3, [0xc0]⟩] := by
  have hmirror : ∀ side, RLPXFrameCoder.Mirrored (sampleCoder side) (sampleCoder side.other) := by
    have hleft : RLPXFrameCoder.setup sampleCiphers true 0 2 5 1 [7, 7] [9] =
        some (sampleCoder .left) := rfl
    have hright : RLPXFrameCoder.setup sampleCiphers false 0 1 5 2 [7, 7] [9] =
        some (sampleCoder .right) := rfl
    have hboth := RLPXFrameCoder.mirrored_of_setup rfl hleft hright
    intro side
    cases side with
    | left => exact hboth.1
    | right => exact hboth.2
  have hstart : (system sampleCiphers sampleCapabilities).Reach Allowed
      (initial sampleCapabilities sampleCoder) := .init ⟨sampleCoder, hmirror, rfl⟩
  obtain ⟨l, hreach, hl⟩ := hstart.exists_of_check sampleRun
    (p := fun l : Link => (l.session .left).isOpen && (l.session .right).isOpen && (l.wire .left).isEmpty &&
      (l.session .left).pending.isEmpty && decide (l.sent .left =
        [⟨toLex ("eth", 63), 2, [0xc1, 0x05]⟩, ⟨toLex ("qpos", 1), 3, [0xc0]⟩]))
    (by decide +kernel) (by decide +kernel)
  simp only [Bool.and_eq_true, List.isEmpty_iff, decide_eq_true_eq] at hl
  obtain ⟨⟨⟨⟨hleft, hright⟩, hwire⟩, hpending⟩, hsent⟩ := hl
  have hcounts : SameCounts sampleCapabilities := by
    rw [SameCounts]
    decide +kernel
  have hall := handled_in_order hcounts (by decide +kernel) hreach .left
  exact ⟨l, hreach, (hall.2.2.1 hleft hright hwire hpending).trans hsent⟩

end CppSwc.Link
