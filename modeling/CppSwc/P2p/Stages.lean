import CppSwc.P2p.Hello
import CppSwc.P2p.Packets

/-!
# The stages of a handshake

Whatever the delays are, an end of a handshake is at one of seven stages, and what it has
read and written is the same in all runs (`Handshakes.stage`), unless it has failed.  So
both ends make coders that fit each other, and they start sessions as the two ends of a
`Link`.
-/

namespace CppSwc

open Lib RLPXFrameCoder

theorem cropped_append (a b d : Bytes) {start count : ℕ} (ha : a.length = start)
    (hb : b.length = count) : RLP.cropped (a ++ b ++ d) start count = b := by
  subst ha hb
  rw [RLP.cropped, if_pos (by simp), List.append_assoc, List.drop_left, List.take_left]

/-! ## One frame -/

namespace RLPXFrameCoder

variable {C : Ciphers} {w w' r r' : RLPXFrameCoder}

theorem WritesAs.trans (h : WritesAs w w') (h' : WritesAs w' r) : WritesAs w r :=
  ⟨h'.key.trans h.key, h'.position.trans h.position, h'.macKey.trans h.macKey, h'.mac.trans h.mac⟩

/-- A coder that has written reads as before. -/
theorem Mirrored.of_readsAs (h : Mirrored w r) (hr : ReadsAs r r') : Mirrored w r' := by
  obtain ⟨key, position, mac, rfl⟩ := hr
  exact ⟨h.key, h.position, h.macKey, h.mac⟩

/-- A coder that has read writes as before. -/
theorem Mirrored.of_writesAs (h : Mirrored w r) (hw : WritesAs w w') : Mirrored w' r :=
  ⟨hw.key.trans h.key, hw.position.trans h.position, hw.macKey.trans h.macKey, hw.mac.trans h.mac⟩

theorem writeSingleFramePacket_length (_packet : Bytes) (c : RLPXFrameCoder) :
    (c.writeSingleFramePacket C _packet).1.length =
      32 + (_packet.length + (16 - _packet.length % 16) % 16 + 16) := by
  rw [writeSingleFramePacket, writeFrame_eq, List.length_append, sealHeader_length,
    sealPayload_length]

/-- A packet is read in two parts. -/
theorem Mirrored.read (h : Mirrored w r) (_packet : Bytes) :
    ∃ c io : RLPXFrameCoder,
      (∃ digest, r.authAndDecryptHeader C ((w.writeSingleFramePacket C _packet).1.take 32) =
        some (headerBlock (FrameHeader.single.bytes _packet.length) ++ digest, c)) ∧
      (∃ digest, c.authAndDecryptFrame C ((w.writeSingleFramePacket C _packet).1.drop 32) =
        some (padded _packet ++ digest, io)) ∧
      WritesAs r io ∧ Mirrored (w.writeSingleFramePacket C _packet).2 io := by
  obtain ⟨c, hc, hmirror⟩ :=
    h.authAndDecryptHeader (C := C) (FrameHeader.single.bytes _packet.length)
  obtain ⟨io, hio, hmirror⟩ := hmirror.authAndDecryptFrame (C := C) _packet
  rw [writeSingleFramePacket, writeFrame_eq]
  refine ⟨c, io, ?_, ?_, ?_, hmirror⟩
  · rw [List.take_left' (sealHeader_length (FrameHeader.single.bytes _packet.length) w)]
    exact ⟨_, hc⟩
  · rw [List.drop_left' (sealHeader_length (FrameHeader.single.bytes _packet.length) w)]
    exact ⟨_, hio⟩
  · exact (writesAs_of_authAndDecryptHeader hc).trans (writesAs_of_authAndDecryptFrame hio)

end RLPXFrameCoder

namespace RLPXHandshake

/-- A handshake that goes no further. -/
structure Failed (h : RLPXHandshake) : Prop where
  waiting : h.waiting = .nothing
  session : h.session = none
  assertFailed : h.assertFailed = false

end RLPXHandshake

namespace Handshakes

variable (P : HandshakeCiphers) (ends : Side → HandshakeEnd)

/-! ## What the ends write -/

/-- The identity of an end. -/
def nodeId (side : Side) : NodeID := (ends side).m_host.id P

/-- A handshake before its start. -/
def fresh (side : Side) : RLPXHandshake := (initial P ends).handshake side

/-- The authentication packet. -/
def auth : Bytes := ((fresh P ends .left).writeAuth P).2

/-- A handshake that knows what the packet of the other end says. -/
def informed (side : Side) : RLPXHandshake :=
  { fresh P ends side with
    m_remote := nodeId P ends side.other
    m_ecdheRemote := P.toPublic (ends side.other).m_ecdheLocal
    m_remoteNonce := (ends side.other).m_nonce
    m_remoteVersion := 4
    m_authCipher := auth P ends }

/-- The answer. -/
def ack : Bytes := ((informed P ends .right).writeAck P).2

/-- The first packet of an end. -/
def packet : Side → Bytes
  | .left => auth P ends
  | .right => ack P ends

/-- A handshake after both packets. -/
def agreed (side : Side) : RLPXHandshake :=
  { informed P ends side with m_ackCipher := ack P ends }

/-- The coder of an end before its `Hello`, `none` where its constructor throws. -/
def coder (side : Side) : Option RLPXFrameCoder :=
  setup P.toCiphers (fresh P ends side).m_originated (P.toPublic (ends side.other).m_ecdheLocal)
    (ends side.other).m_nonce (ends side).m_ecdheLocal (ends side).m_nonce (ack P ends)
    (auth P ends)

/-- The `Hello` of an end. -/
def hello (side : Side) : Bytes := (ends side).m_host.hello P

/-- The frame of a `Hello`. -/
def frame (side : Side) : Bytes :=
  ((coder P ends side).map fun c =>
    (c.writeSingleFramePacket P.toCiphers (hello P ends side)).1).getD []

/-- The coder after its `Hello`. -/
def coderWritten (side : Side) : Option RLPXFrameCoder :=
  (coder P ends side).map fun c =>
    (c.writeSingleFramePacket P.toCiphers (hello P ends side)).2

/-- The coder after the header of the other `Hello`. -/
def coderHeader (side : Side) : Option RLPXFrameCoder := do
  let c ← coderWritten P ends side
  let r ← c.authAndDecryptHeader P.toCiphers ((frame P ends side.other).take 32)
  return r.2

/-- The coder after the other `Hello`. -/
def coderHello (side : Side) : Option RLPXFrameCoder := do
  let c ← coderHeader P ends side
  let r ← c.authAndDecryptFrame P.toCiphers ((frame P ends side.other).drop 32)
  return r.2

/-! ## Stages -/

/-- A handshake at a stage.  At the last one it has a session. -/
def stage (side : Side) : ℕ → RLPXHandshake
  | 0 => fresh P ends side
  | 1 =>
      match side with
      | .left =>
          { fresh P ends side with
            m_nextState := .ackAuth, m_authCipher := auth P ends, waiting := .write }
      | .right => { fresh P ends side with m_nextState := .ackAuth, waiting := .readAuth }
  | 2 =>
      match side with
      | .left =>
          { fresh P ends side with
            m_nextState := .writeHello, m_authCipher := auth P ends, waiting := .readAck }
      | .right => { agreed P ends side with m_nextState := .writeHello, waiting := .write }
  | 3 =>
      { agreed P ends side with
        m_nextState := .readHello
        m_io := coderWritten P ends side
        waiting := if (coder P ends side).isSome then .write else .nothing }
  | 4 =>
      { agreed P ends side with
        m_nextState := .startSession, m_io := coderWritten P ends side, waiting := .readHello }
  | _ =>
      { agreed P ends side with
        m_nextState := .startSession
        m_io := coderHeader P ends side
        waiting := .readHelloFrame (hello P ends side.other).length }

/-- How many bytes an end has read at a stage. -/
def consumed : Side → ℕ → ℕ
  | .left, 0 | .left, 1 | .left, 2 => 0
  | .left, 3 | .left, 4 => 210
  | .left, 5 => 242
  | .left, _ => 210 + (frame P ends .right).length
  | .right, 0 | .right, 1 => 0
  | .right, 2 | .right, 3 | .right, 4 => 307
  | .right, 5 => 339
  | .right, _ => 307 + (frame P ends .left).length

/-- What an end has written at a stage. -/
def written : Side → ℕ → Bytes
  | _, 0 => []
  | .left, 1 | .left, 2 => auth P ends
  | .right, 1 => []
  | .right, 2 => ack P ends
  | side, _ => packet P ends side ++ frame P ends side

/-- A handshake that has called `startPeerSession`, and what that has written. -/
def settled (side : Side) (peering : Peering) (c : RLPXFrameCoder) : RLPXHandshake × Bytes :=
  let r := (ends side).m_host.meet (ends side.other).m_host P peering c
  ({ agreed P ends side with
      m_nextState := .startSession, waiting := .nothing, session := some r.1 }, r.2)

/-- What an end can be at, with what it has written behind its `Hello`, if its host knows `ok`
of the other one. -/
inductive At (ok : Side → Peering → Prop) (side : Side) : ℕ → RLPXHandshake → Bytes → Prop where
  | stage {n : ℕ} (hn : n ≤ 5) (hcoder : 4 ≤ n → (coder P ends side).isSome) :
      At ok side n (stage P ends side n) []
  | failed {n : ℕ} {h : RLPXHandshake} (hn : n ≤ 6) (hfailed : h.Failed) : At ok side n h []
  | done {peering : Peering} (hok : ok side peering) {c : RLPXFrameCoder}
      (hc : coderHello P ends side = some c) :
      At ok side 6 (settled P ends side peering c).1 (settled P ends side peering c).2

/-- The secrets are of key pairs, and the lengths fit the headers. -/
structure Proper : Prop where
  alias_ : ∀ side, P.IsSecret (ends side).m_host.m_alias
  ecdhe : ∀ side, P.IsSecret (ends side).m_ecdheLocal
  hello : ∀ side, (hello P ends side).length < 2 ^ 24

variable {P ends}

/-! ## The coders of both ends -/

/-- One end makes a coder if and only if the other one does, and each reads what the other one
writes. -/
theorem exists_coder (hproper : Proper P ends) {side : Side} (h : (coder P ends side).isSome) :
    ∃ c : Side → RLPXFrameCoder, ∀ side, coder P ends side = some (c side) ∧
      Mirrored (c side) (c side.other) := by
  have hagree : P.agree (ends .left).m_ecdheLocal (P.toPublic (ends .right).m_ecdheLocal) =
      P.agree (ends .right).m_ecdheLocal (P.toPublic (ends .left).m_ecdheLocal) :=
    P.agree_comm _ _ (hproper.ecdhe .left) (hproper.ecdhe .right)
  have hsome : ∀ side, (coder P ends side).isSome =
      (P.agree (ends .left).m_ecdheLocal (P.toPublic (ends .right).m_ecdheLocal)).isSome := by
    intro side
    cases side with
    | left => exact Option.isSome_map
    | right => exact Option.isSome_map.trans (congrArg Option.isSome hagree.symm)
  rw [hsome side, ← hsome .left] at h
  have h' := h
  rw [hsome .left, ← hsome .right] at h'
  obtain ⟨l, hl⟩ := Option.isSome_iff_exists.mp h
  obtain ⟨r, hr⟩ := Option.isSome_iff_exists.mp h'
  have hmirror := mirrored_of_setup hagree hl hr
  refine ⟨fun side => match side with | .left => l | .right => r, fun side => ?_⟩
  cases side with
  | left => exact ⟨hl, hmirror.1⟩
  | right => exact ⟨hr, hmirror.2⟩

variable (P ends) in
/-- The coders of an end after its `Hello`, after the header of the other one, and after the
other one. -/
structure Coders (w c io : Side → RLPXFrameCoder) (side : Side) : Prop where
  written : coderWritten P ends side = some (w side)
  length : (frame P ends side).length = 32 + ((hello P ends side).length +
    (16 - (hello P ends side).length % 16) % 16 + 16)
  header : ∃ digest, (w side).authAndDecryptHeader P.toCiphers ((frame P ends side.other).take 32) =
    some (headerBlock (FrameHeader.single.bytes (hello P ends side.other).length) ++ digest, c side)
  payload : ∃ digest, (c side).authAndDecryptFrame P.toCiphers ((frame P ends side.other).drop 32) =
    some (padded (hello P ends side.other) ++ digest, io side)
  mirrored : Mirrored (io side) (io side.other)

theorem Coders.coderHeader_eq {w c io : Side → RLPXFrameCoder} {side : Side}
    (h : Coders P ends w c io side) : coderHeader P ends side = some (c side) := by
  obtain ⟨digest, hheader⟩ := h.header
  rw [coderHeader, h.written]
  simp [hheader]

theorem Coders.coderHello_eq {w c io : Side → RLPXFrameCoder} {side : Side}
    (h : Coders P ends w c io side) : coderHello P ends side = some (io side) := by
  obtain ⟨digest, hpayload⟩ := h.payload
  rw [coderHello, h.coderHeader_eq]
  simp [hpayload]

/-- Each end reads the `Hello` of the other one. -/
theorem exists_coders (hproper : Proper P ends) {side : Side} (h : (coder P ends side).isSome) :
    ∃ w c io : Side → RLPXFrameCoder, ∀ side, Coders P ends w c io side := by
  obtain ⟨c₀, hc₀⟩ := exists_coder hproper h
  have hframe : ∀ side, frame P ends side =
      ((c₀ side).writeSingleFramePacket P.toCiphers (hello P ends side)).1 := by
    intro side
    rw [frame, (hc₀ side).1]
    rfl
  have hread : ∀ side, Mirrored (c₀ side.other)
      ((c₀ side).writeSingleFramePacket P.toCiphers (hello P ends side)).2 := by
    intro side
    have hmirror := (hc₀ side.other).2
    rw [Side.other_other] at hmirror
    exact hmirror.of_readsAs (readsAs_writeFrame _ _ _)
  choose c io hheader hpayload hwrites hreads using fun side =>
    (hread side).read (C := P.toCiphers) (hello P ends side.other)
  refine ⟨fun side => ((c₀ side).writeSingleFramePacket P.toCiphers (hello P ends side)).2, c, io,
    fun side => ⟨?_, ?_, ?_, ?_, ?_⟩⟩
  · rw [coderWritten, (hc₀ side).1, Option.map_some]
  · rw [hframe, writeSingleFramePacket_length]
  · rw [hframe]
    exact hheader side
  · rw [hframe]
    exact hpayload side
  · have hmirror := hreads side.other
    rw [Side.other_other] at hmirror
    exact hmirror.of_writesAs (hwrites side)

/-! ## From one stage to the next -/

theorem auth_length (hproper : Proper P ends) : (auth P ends).length = 307 := by
  have hlength := P.encrypt_length (ends .left).random (ends .right).m_host.m_alias []
    (bigEndian 65 (P.sign (ends .left).m_ecdheLocal
      ((P.agree (ends .left).m_host.m_alias (nodeId P ends .right)).getD 0 ^^^
        (ends .left).m_nonce)).toNat ++
      bigEndian 32 (P.sha3 (bigEndian 64 (P.toPublic (ends .left).m_ecdheLocal).toNat)).toNat ++
      bigEndian 64 (nodeId P ends .left).toNat ++ bigEndian 32 (ends .left).m_nonce.toNat ++ [0])
    (hproper.alias_ .right) (by simp)
  simp only [List.length_append, bigEndian_length, List.length_singleton] at hlength
  exact hlength

theorem ack_length (hproper : Proper P ends) : (ack P ends).length = 210 := by
  have hlength := P.encrypt_length (ends .right).random (ends .left).m_host.m_alias []
    (bigEndian 64 (P.toPublic (ends .right).m_ecdheLocal).toNat ++
      bigEndian 32 (ends .right).m_nonce.toNat ++ [0]) (hproper.alias_ .left) (by simp)
  simp only [List.length_append, bigEndian_length, List.length_singleton] at hlength
  exact hlength

/-- The end that is called reads in the authentication packet who calls. -/
theorem onAuth_auth (hproper : Proper P ends) :
    (stage P ends .right 1).onAuth P (auth P ends) = (stage P ends .right 2, ack P ends) := by
  set static := (P.agree (ends .left).m_host.m_alias (nodeId P ends .right)).getD 0
  set sig := P.sign (ends .left).m_ecdheLocal (static ^^^ (ends .left).m_nonce)
  set hash := P.sha3 (bigEndian 64 (P.toPublic (ends .left).m_ecdheLocal).toNat)
  have hplain : P.decryptECIES (ends .right).m_host.m_alias [] (auth P ends) =
      some (bigEndian 65 sig.toNat ++ bigEndian 32 hash.toNat ++
        bigEndian 64 (nodeId P ends .left).toNat ++ bigEndian 32 (ends .left).m_nonce.toNat ++ [0]) :=
    P.decrypt_encrypt _ _ _ _ (hproper.alias_ .right) (by simp)
  have hstatic : (P.agree (ends .right).m_host.m_alias (nodeId P ends .left)).getD 0 = static :=
    congrArg (Option.getD · 0)
      (P.agree_comm _ _ (hproper.alias_ .right) (hproper.alias_ .left))
  have hrecover : P.recover sig (static ^^^ (ends .left).m_nonce) =
      P.toPublic (ends .left).m_ecdheLocal := P.recover_sign _ _ (hproper.ecdhe .left)
  have hsig := cropped_append [] (bigEndian 65 sig.toNat) (bigEndian 32 hash.toNat ++
    (bigEndian 64 (nodeId P ends .left).toNat ++ (bigEndian 32 (ends .left).m_nonce.toNat ++ [0])))
    List.length_nil (bigEndian_length 65 _)
  have hpubk := cropped_append (bigEndian 65 sig.toNat ++ bigEndian 32 hash.toNat)
    (bigEndian 64 (nodeId P ends .left).toNat) (bigEndian 32 (ends .left).m_nonce.toNat ++ [0])
    (by rw [List.length_append, bigEndian_length, bigEndian_length]) (bigEndian_length 64 _)
  have hnonce := cropped_append (bigEndian 65 sig.toNat ++ bigEndian 32 hash.toNat ++
      bigEndian 64 (nodeId P ends .left).toNat) (bigEndian 32 (ends .left).m_nonce.toNat) [0]
    (by rw [List.length_append, List.length_append, bigEndian_length, bigEndian_length,
      bigEndian_length]) (bigEndian_length 32 _)
  simp only [List.append_assoc, List.nil_append] at hplain hsig hpubk hnonce
  have hhost : (stage P ends .right 1).m_host = (ends .right).m_host := rfl
  simp only [RLPXHandshake.onAuth, hhost, hplain, RLPXHandshake.setAuthValues, hsig, hpubk, hnonce, hashOfBytes_bigEndian,
    hstatic, hrecover]
  rfl

/-- The end that calls reads the answer. -/
theorem onAck_ack (hproper : Proper P ends) :
    (stage P ends .left 2).onAck P (ack P ends) =
      { agreed P ends .left with m_nextState := .writeHello, waiting := .readAck }.transition P
        false := by
  have hplain : P.decryptECIES (ends .left).m_host.m_alias [] (ack P ends) =
      some (bigEndian 64 (P.toPublic (ends .right).m_ecdheLocal).toNat ++
        bigEndian 32 (ends .right).m_nonce.toNat ++ [0]) :=
    P.decrypt_encrypt _ _ _ _ (hproper.alias_ .left) (by simp)
  have hpubk := cropped_append [] (bigEndian 64 (P.toPublic (ends .right).m_ecdheLocal).toNat)
    (bigEndian 32 (ends .right).m_nonce.toNat ++ [0]) List.length_nil (bigEndian_length 64 _)
  have hnonce := cropped_append (bigEndian 64 (P.toPublic (ends .right).m_ecdheLocal).toNat)
    (bigEndian 32 (ends .right).m_nonce.toNat) [0] (bigEndian_length 64 _) (bigEndian_length 32 _)
  simp only [List.append_assoc, List.nil_append] at hplain hpubk hnonce
  have hhost : (stage P ends .left 2).m_host = (ends .left).m_host := rfl
  simp only [RLPXHandshake.onAck, hhost, hplain, hpubk, hnonce, hashOfBytes_bigEndian]
  rfl

/-- Both ends write their `Hello` alike. -/
theorem transition_writeHello (side : Side) (waiting : Waiting) :
    { agreed P ends side with m_nextState := .writeHello, waiting }.transition P false =
      (stage P ends side 3, frame P ends side) := by
  have hsetup : RLPXFrameCoder.setup P.toCiphers (agreed P ends side).m_originated
      (agreed P ends side).m_ecdheRemote (agreed P ends side).m_remoteNonce
      (agreed P ends side).m_ecdheLocal (agreed P ends side).m_nonce
      (agreed P ends side).m_ackCipher (agreed P ends side).m_authCipher = coder P ends side := rfl
  have htransition : { agreed P ends side with m_nextState := .writeHello, waiting }.transition P
      false = { agreed P ends side with m_nextState := .readHello, waiting }.writeHello P := rfl
  rw [htransition, RLPXHandshake.writeHello]
  simp only [hsetup, stage, coderWritten, frame]
  cases coder P ends side <;> rfl

/-- The header of a `Hello` is read, and one that is too long is not. -/
theorem onHelloHeader_frame (hproper : Proper P ends) (side : Side)
    (hcoder : (coder P ends side).isSome) :
    (stage P ends side 4).onHelloHeader P ((frame P ends side.other).take 32) =
      if 1024 < (hello P ends side.other).length then
        { stage P ends side 4 with m_io := coderHeader P ends side }.fail P
      else (stage P ends side 5, []) := by
  obtain ⟨w, c, io, hcoders⟩ := exists_coders hproper hcoder
  obtain ⟨digest, hheader⟩ := (hcoders side).header
  set header := headerBlock (FrameHeader.single.bytes (hello P ends side.other).length) ++ digest
  have hbind : (stage P ends side 4).m_io.bind (fun c => c.authAndDecryptHeader P.toCiphers
      ((frame P ends side.other).take 32)) = some (header, c side) := by
    change (coderWritten P ends side).bind _ = _
    rw [(hcoders side).written, Option.bind_some, hheader]
  have hsize : (header.getD 2 0).toNat + (header.getD 1 0).toNat * 2 ^ 8 +
      (header.getD 0 0).toNat * 2 ^ 16 = (hello P ends side.other).length := by
    have hlength := hproper.hello side.other
    change (UInt8.ofNat (hello P ends side.other).length).toNat +
      (UInt8.ofNat ((hello P ends side.other).length / 2 ^ 8)).toNat * 2 ^ 8 +
      (UInt8.ofNat ((hello P ends side.other).length / 2 ^ 16)).toNat * 2 ^ 16 = _
    simp only [UInt8.toNat_ofNat']
    omega
  simp only [RLPXHandshake.onHelloHeader, hbind, hsize, ← (hcoders side).coderHeader_eq]
  rfl

/-- The `Hello` is read, and the session made. -/
theorem onHello_frame (hproper : Proper P ends) (side : Side) (hcoder : (coder P ends side).isSome)
    (peering : Peering) :
    ∃ io, coderHello P ends side = some io ∧
      (stage P ends side 5).onHello P peering ((frame P ends side.other).drop 32) =
        settled P ends side peering io := by
  obtain ⟨w, c, io, hcoders⟩ := exists_coders hproper hcoder
  obtain ⟨digest, hframe⟩ := (hcoders side).payload
  refine ⟨io side, (hcoders side).coderHello_eq, ?_⟩
  have hbind : (stage P ends side 5).m_io.bind (fun c => c.authAndDecryptFrame P.toCiphers
      ((frame P ends side.other).drop 32)) =
        some (padded (hello P ends side.other) ++ digest, io side) := by
    change (coderHeader P ends side).bind _ = _
    rw [(hcoders side).coderHeader_eq, Option.bind_some, hframe]
  set rest := List.replicate ((16 - (hello P ends side.other).length % 16) % 16) 0 ++ digest
  have hcons : padded (hello P ends side.other) ++ digest =
      0x80 :: ((ends side.other).m_host.helloList P ++ rest) := by
    rw [padded, List.append_assoc]
    rfl
  have hmax : (hello P ends side.other).length < RLP.maxLength :=
    (hproper.hello side.other).trans (by decide)
  have hsize : RLP.sizeAsEncoded ((ends side.other).m_host.helloList P ++ rest) =
      some ((ends side.other).m_host.helloList P).length :=
    RLP.sizeAsEncoded_append
      (RLP.read_appendList ((ends side.other).m_host.helloItems_length hmax) rest).1
  have hpeer : (stage P ends side 5).m_host.startPeerSession P.toCiphers peering
      (stage P ends side 5).m_remote ((ends side.other).m_host.helloList P ++ rest) (io side) =
        some ((ends side).m_host.meet (ends side.other).m_host P peering (io side)) :=
    (ends side).m_host.startPeerSession_helloList (ends side.other).m_host hmax peering (io side)
      rest
  rw [RLPXHandshake.onHello, hbind]
  simp only [hcons, List.head?_cons, List.drop_succ_cons, List.drop_zero, hsize, hpeer]
  rfl

theorem stage_need (hproper : Proper P ends) {side : Side} {n : ℕ} (hn : n ≤ 5)
    (hcoder : 4 ≤ n → (coder P ends side).isSome) :
    consumed P ends side n + (stage P ends side n).need = consumed P ends side (n + 1) := by
  have hframe : 4 ≤ n → (frame P ends side.other).length = 32 + ((hello P ends side.other).length +
      (16 - (hello P ends side.other).length % 16) % 16 + 16) := by
    intro h
    obtain ⟨w, c, io, hcoders⟩ := exists_coders hproper (hcoder h)
    exact (hcoders side.other).length
  match n, hn with
  | 0, _ => cases side <;> rfl
  | 1, _ => cases side <;> rfl
  | 2, _ => cases side <;> rfl
  | 3, _ =>
      have hneed : (stage P ends side 3).need = 0 := by
        have hwaiting : (stage P ends side 3).waiting =
            if (coder P ends side).isSome then .write else .nothing := rfl
        rw [RLPXHandshake.need, hwaiting]
        cases (coder P ends side).isSome <;> rfl
      rw [hneed]
      cases side <;> rfl
  | 4, _ => cases side <;> rfl
  | 5, _ =>
      have hneed : (stage P ends side 5).need = (hello P ends side.other).length +
          (16 - (hello P ends side.other).length % 16) % 16 + 16 := rfl
      have hlength := hframe (by decide)
      rw [hneed]
      cases side with
      | left =>
          change (frame P ends .right).length = _ at hlength
          change 242 + _ = 210 + (frame P ends .right).length
          omega
      | right =>
          change (frame P ends .left).length = _ at hlength
          change 339 + _ = 307 + (frame P ends .left).length
          omega

variable (P ends) in
/-- All that an end writes before it has a session. -/
def total (side : Side) : Bytes := packet P ends side ++ frame P ends side

theorem total_drop (hproper : Proper P ends) (side : Side) :
    (total P ends side.other).drop (consumed P ends side 4) = frame P ends side.other := by
  cases side with
  | left => exact List.drop_left' (ack_length hproper)
  | right => exact List.drop_left' (auth_length hproper)

/-- The last part is what follows the header of the frame. -/
theorem last_part (hproper : Proper P ends) {side : Side} (hsome : (coder P ends side).isSome) :
    ((total P ends side.other).drop (consumed P ends side 5)).take (stage P ends side 5).need =
      (frame P ends side.other).drop 32 := by
  obtain ⟨w, c, io, hcoders⟩ := exists_coders hproper hsome
  have hlength := (hcoders side.other).length
  have hfive : consumed P ends side 5 = consumed P ends side 4 + 32 := by cases side <;> rfl
  rw [hfive, ← List.drop_drop, total_drop hproper]
  apply List.take_of_length_le
  rw [List.length_drop, hlength]
  exact le_of_eq (Nat.add_sub_cancel_left _ _)

/-- A stage is no failure where there is a coder. -/
theorem coder_of_failed {side : Side} {n : ℕ} (h : (stage P ends side n).Failed) :
    (coder P ends side).isSome = false := by
  have hwaiting := h.waiting
  match n with
  | 0 => cases hwaiting
  | 1 => cases side <;> cases hwaiting
  | 2 => cases side <;> cases hwaiting
  | 3 =>
      by_contra hcoder
      rw [Bool.not_eq_false] at hcoder
      have hwrite : (stage P ends side 3).waiting = .write := if_pos hcoder
      rw [hwrite] at hwaiting
      cases hwaiting
  | 4 => cases hwaiting
  | n + 5 => cases hwaiting

/-- What an end waits for at a stage is the next part of what the other one writes. -/
theorem finish_stage (hproper : Proper P ends) {ok : Side → Peering → Prop} {side : Side} {n : ℕ}
    (hn : n ≤ 5) (hcoder : 4 ≤ n → (coder P ends side).isSome)
    (hwaiting : (stage P ends side n).waiting.isSome = true) {peering : Peering}
    (hok : ok side peering)
    {io : Bytes}
    (hio : io = ((total P ends side.other).drop (consumed P ends side n)).take
      (stage P ends side n).need) :
    ∃ extra, At P ends ok side (n + 1) ((stage P ends side n).finish P peering io).1 extra ∧
      written P ends side n ++ ((stage P ends side n).finish P peering io).2 =
        written P ends side (n + 1) ++ extra ∧
      (((stage P ends side n).finish P peering io).1.Failed →
        1024 < (hello P ends side.other).length ∨ (coder P ends side).isSome = false) := by
  -- the next stage, with what has been written meanwhile
  have hnext : ∀ {r : RLPXHandshake × Bytes} (out : Bytes), n ≤ 4 →
      (4 ≤ n + 1 → (coder P ends side).isSome) → r = (stage P ends side (n + 1), out) →
      written P ends side n ++ out = written P ends side (n + 1) →
      ∃ extra, At P ends ok side (n + 1) r.1 extra ∧
        written P ends side n ++ r.2 = written P ends side (n + 1) ++ extra ∧
        (r.1.Failed →
          1024 < (hello P ends side.other).length ∨ (coder P ends side).isSome = false) := by
    rintro _ out hle hsome rfl hout
    exact ⟨[], .stage (by omega) hsome, by rw [hout, List.append_nil],
      fun h => .inr (coder_of_failed h)⟩
  match n, hn with
  | 0, _ =>
      cases side with
      | left => exact hnext (auth P ends) (by decide) nofun rfl rfl
      | right => exact hnext [] (by decide) nofun rfl rfl
  | 1, _ =>
      cases side with
      | left => exact hnext [] (by decide) nofun rfl (List.append_nil _)
      | right =>
          have hauth : io = auth P ends := by
            rw [hio]
            exact List.take_left' (auth_length hproper)
          subst hauth
          exact hnext _ (by decide) nofun (onAuth_auth hproper) rfl
  | 2, _ =>
      cases side with
      | left =>
          have hack : io = ack P ends := by
            rw [hio]
            exact List.take_left' (ack_length hproper)
          subst hack
          exact hnext _ (by decide) nofun
            ((onAck_ack hproper).trans (transition_writeHello .left .readAck)) rfl
      | right => exact hnext _ (by decide) nofun (transition_writeHello .right .write) rfl
  | 3, _ =>
      have hsome : (coder P ends side).isSome := by
        by_contra hnone
        have hnothing : (stage P ends side 3).waiting = .nothing := if_neg hnone
        rw [hnothing] at hwaiting
        cases hwaiting
      have hwrite : (stage P ends side 3).waiting = .write := if_pos hsome
      have hfinish : (stage P ends side 3).finish P peering io = (stage P ends side 4, []) := by
        rw [RLPXHandshake.finish, hwrite]
        rfl
      refine hnext _ (by decide) (fun _ => hsome) hfinish ?_
      cases side <;> exact List.append_nil _
  | 4, _ =>
      have hsome := hcoder (by decide)
      have hheader : io = (frame P ends side.other).take 32 := by
        rw [hio, total_drop hproper]
        rfl
      have hfinish : (stage P ends side 4).finish P peering io =
          (stage P ends side 4).onHelloHeader P io := rfl
      rw [hheader, onHelloHeader_frame hproper side hsome] at hfinish
      by_cases hlong : 1024 < (hello P ends side.other).length
      · rw [if_pos hlong] at hfinish
        rw [hheader, hfinish]
        refine ⟨[], .failed (by decide) ⟨rfl, rfl, rfl⟩, ?_, fun _ => .inl hlong⟩
        cases side <;> rfl
      · rw [if_neg hlong] at hfinish
        rw [hheader]
        refine hnext _ (by decide) (fun _ => hsome) hfinish ?_
        cases side <;> exact List.append_nil _
  | 5, _ =>
      have hsome := hcoder (by decide)
      have hframe : io = (frame P ends side.other).drop 32 := hio.trans (last_part hproper hsome)
      obtain ⟨c, hc, hover⟩ := onHello_frame hproper side hsome peering
      have hfinish : (stage P ends side 5).finish P peering io = settled P ends side peering c := by
        rw [hframe]
        exact hover
      rw [hfinish]
      refine ⟨_, .done hok hc, ?_, fun h => nomatch h.session⟩
      cases side <;> rfl

end Handshakes

end CppSwc
