import CppSwc.P2p.Session

/-!
# The handshake

An `RLPXHandshake` makes a session out of a socket.  The host that has opened it sends an
authentication packet and the other one an answer, both encrypted for the other host.  Each
makes a coder of what the two packets say, and sends a `Hello` as its first frame.  A host
starts a session when it has read the `Hello` of the other one (`startPeerSession`).

* Signatures and encryption are parameters, with what their libraries say of them.
* A `std::string` is the string of the characters of its bytes.
* A read takes its bytes at once, when all of them are there.
* The randomness of the encryption and of the padding is a number that a handshake has.
* An exception that leaves a handler ends the handshake where it is.
* What a capability sends when it is made for a session (`newPeerCapability`) is a list of packets.
* The `Peer` of a session, the table of sessions and the logs are left out.
-/

namespace CppSwc

open Lib

/-- The functions of the crypto libraries that a handshake uses. -/
structure HandshakeCiphers extends Ciphers where
  /-- The secret of a `KeyPair`. -/
  IsSecret : H256 → Prop
  /-- `toPublic`. -/
  toPublic : H256 → NodeID
  sign : H256 → H256 → Signature
  recover : Signature → H256 → NodeID
  /-- `encryptECIES`, with its randomness. -/
  encryptECIES : ℕ → NodeID → Bytes → Bytes → Bytes
  decryptECIES : H256 → Bytes → Bytes → Option Bytes
  agree_comm : ∀ a b, IsSecret a → IsSecret b → agree a (toPublic b) = agree b (toPublic a)
  recover_sign : ∀ secret hash, IsSecret secret → recover (sign secret hash) hash = toPublic secret
  decrypt_encrypt : ∀ random secret mac plain, IsSecret secret → plain ≠ [] →
    decryptECIES secret mac (encryptECIES random (toPublic secret) mac plain) = some plain
  /-- `c_eciesOverhead`. -/
  encrypt_length : ∀ random secret mac plain, IsSecret secret → plain ≠ [] →
    (encryptECIES random (toPublic secret) mac plain).length = plain.length + 113

/-- What a handshake asks of its host.  The names are bytes and the versions fit `u256`. -/
structure HandshakeHost where
  m_alias : H256
  m_clientVersion : Bytes
  m_capabilities : CapabilityMap
  listenPort : UInt16
  caps_fit : ∀ d ∈ m_capabilities.caps,
    (∀ c ∈ (ofLex d).1.toList, c.toNat < 256) ∧ (ofLex d).2 < 2 ^ 256

/-- `State` of a handshake. -/
inductive HandshakeState where
  | error
  | new
  | ackAuth
  | ackAuthEIP8
  | writeHello
  | readHello
  | startSession
deriving DecidableEq

/-- What a handshake waits for. -/
inductive Waiting where
  /-- `start`. -/
  | start
  | write
  | readAuth
  | readAuthEIP8 (size : ℕ)
  | readAck
  | readAckEIP8 (size : ℕ)
  | readHello
  | readHelloFrame (frameSize : ℕ)
  | nothing

/-- Whether a handshake waits for something. -/
def Waiting.isSome : Waiting → Bool
  | .nothing => false
  | _ => true

/-- `FixedHash` of bytes, which is zero if they are not as many as it has. -/
def hashOfBytes (size : ℕ) (_b : Bytes) : BitVec (8 * size) :=
  if _b.length = size then BitVec.ofNat _ (fromBigEndian _b) else 0

/-- A hash is read from its bytes. -/
theorem hashOfBytes_bigEndian {size : ℕ} (h : BitVec (8 * size)) :
    hashOfBytes size (bigEndian size h.toNat) = h := by
  have hlt : h.toNat < 256 ^ size := by
    have := h.isLt
    rwa [Nat.pow_mul] at this
  rw [hashOfBytes, if_pos (bigEndian_length _ _), fromBigEndian_bigEndian _ _ hlt,
    BitVec.ofNat_toNat, BitVec.setWidth_eq]

/-- The bytes of a hash that is read. -/
theorem bigEndian_hashOfBytes {size : ℕ} {b : Bytes} (h : b.length = size) :
    bigEndian size (hashOfBytes size b).toNat = b := by
  have hlt : fromBigEndian b < 2 ^ (8 * size) := by
    have := fromBigEndian_lt b
    rwa [h, show (256 : ℕ) = 2 ^ 8 from rfl, ← Nat.pow_mul] at this
  rw [hashOfBytes, if_pos h, BitVec.toNat_ofNat, Nat.mod_eq_of_lt hlt, ← h,
    bigEndian_fromBigEndian]

/-- `RLP::toHash` with the flags `Strict`. -/
def RLP.toHashStrict (size : ℕ) (d : Bytes) : Option (BitVec (8 * size)) :=
  if !RLP.requireGood d then none
  else (RLP.payload d).bind fun p =>
    if !RLP.isData d || size < p.length then none else some (BitVec.ofNat _ (fromBigEndian p))

/-- `c_protocolVersion`. -/
def c_protocolVersion : ℕ := 4

/-- `c_rlpxVersion`. -/
def c_rlpxVersion : ℕ := 4

/-- The bytes of a string. -/
def stringBytes (s : String) : Bytes := s.toList.map fun c => UInt8.ofNat c.toNat

/-- The string of bytes. -/
def stringOfBytes (b : Bytes) : String := String.ofList (b.map fun x => Char.ofNat x.toNat)

namespace RLP

/-- `toInt` with the flags `LaissezFaire`. -/
def toIntLax (size : ℕ) (d : Bytes) : Option ℕ :=
  if !requireGood d then none
  else if isList d then some 0
  else (payload d).map fun p => fromBigEndian p % 256 ^ size

/-- `toPair` of a `CapDesc` with the flags `LaissezFaire`. -/
def toCapDesc (d : Bytes) : Option CapDesc :=
  if !isList d then none
  else do
    let itemCount ← (items d).map List.length
    if itemCount ≠ 2 then return toLex ("", 0)
    let first ← (item d 0).bind toBytes
    let second ← (item d 1).bind (toIntLax 32)
    return toLex (stringOfBytes first, second)

/-- `toVector` of `CapDesc`. -/
def toCapDescs (d : Bytes) : Option (List CapDesc) := (items d).bind (List.mapM toCapDesc)

/-- `append` of a `CapDesc`. -/
def appendCapDesc (cap : CapDesc) : Bytes :=
  appendList (appendData (stringBytes (ofLex cap).1) ++ appendInt (ofLex cap).2)

end RLP

namespace DisconnectReason

def uselessPeer : DisconnectReason := .other 3

def tooManyPeers : DisconnectReason := .other 4

def duplicatePeer : DisconnectReason := .other 5

def incompatibleProtocol : DisconnectReason := .other 6

def unexpectedIdentity : DisconnectReason := .other 9

end DisconnectReason

/-- What a host knows of a peer when the handshake is over. -/
structure Peering where
  /-- `pin` is set, and the peer is not required. -/
  isUnexpected : Bool
  /-- The host has a connected session with the peer. -/
  isDuplicate : Bool
  peerSlotsAvailable : Bool
  /-- What `newPeerCapability` of a capability sends to the peer: the numbers and the data. -/
  newPeerCapability : CapDesc → List (ℕ × Bytes) := fun _ => []

/-- A packet that a capability sends when it is made for a session. -/
structure Greeting where
  sender : Capability
  id : ℕ
  data : Bytes
deriving DecidableEq

namespace Greeting

/-- The packet for the session. -/
def bytes (g : Greeting) : Bytes := g.sender.packet g.id g.data

/-- The packet for the capability of the other end. -/
def toCapPacket (g : Greeting) : CapPacket := ⟨g.sender.desc, g.id, g.data⟩

end Greeting

/-- What the capabilities of a session send when they are made, one after the other. -/
def Peering.greetings (peering : Peering) (m_capabilities : List Capability) : List Greeting :=
  m_capabilities.flatMap fun c => (peering.newPeerCapability c.desc).map fun p => ⟨c, p.1, p.2⟩

/-- A session is started after these packets have been sent. -/
def Session.startAfter (C : Ciphers) (greetings : List Greeting) (s : Session) : Session × Bytes :=
  let (s, out) := s.sendAll C (greetings.map Greeting.bytes)
  let (s, out') := s.start C
  (s, out ++ out')

/-- What `startPeerSession` does. -/
inductive PeerSession where
  | wrongId
  | disconnected (_reason : DisconnectReason) (session : Session)
  | started (session : Session)

namespace HandshakeHost

variable (P : HandshakeCiphers) (host : HandshakeHost)

/-- `Host::id`. -/
def id : NodeID := P.toPublic host.m_alias

/-- The list of a `Hello`. -/
def helloList : Bytes :=
  RLP.appendList ([RLP.appendInt c_protocolVersion, RLP.appendData host.m_clientVersion,
    RLP.appendList (host.m_capabilities.caps.map RLP.appendCapDesc).flatten,
    RLP.appendInt host.listenPort.toNat, RLP.appendHash 64 (host.id P)].flatten)

/-- The `Hello` of a host. -/
def hello : Bytes := RLP.appendInt 0 ++ host.helloList P

/-- `startPeerSession` and the bytes it puts on the connection, `none` where it throws. -/
def startPeerSession (C : Ciphers) (peering : Peering) (_id : NodeID) (_rlp : Bytes)
    (_io : RLPXFrameCoder) : Option (PeerSession × Bytes) := do
  let protocolVersion ← (RLP.item _rlp 0).bind (RLP.toInt 4)
  let _ ← (RLP.item _rlp 1).bind RLP.toBytes
  let caps ← (RLP.item _rlp 2).bind RLP.toCapDescs
  let _ ← (RLP.item _rlp 3).bind (RLP.toInt 2)
  let pub ← (RLP.item _rlp 4).bind (RLP.toHashStrict 64)
  if pub ≠ _id then return (.wrongId, [])
  let m_capabilities := host.m_capabilities.negotiate caps
  let ps : Session := { m_io := _io, m_capabilities := [] }
  let disconnect (reason : DisconnectReason) : PeerSession × Bytes :=
    let r := ps.disconnect C reason
    (.disconnected reason r.1, r.2)
  if protocolVersion < c_protocolVersion - 1 then return disconnect .incompatibleProtocol
  else if m_capabilities = [] then return disconnect .uselessPeer
  else if peering.isUnexpected then return disconnect .unexpectedIdentity
  else if peering.isDuplicate then return disconnect .duplicatePeer
  else if !peering.peerSlotsAvailable then return disconnect .tooManyPeers
  else
    let r := { ps with m_capabilities }.startAfter C (peering.greetings m_capabilities)
    return (.started r.1, r.2)

end HandshakeHost

/-- `RLPXHandshake`. -/
structure RLPXHandshake where
  m_host : HandshakeHost
  m_originated : Bool
  m_ecdheLocal : H256
  m_nonce : H256
  random : ℕ
  m_nextState : HandshakeState := .new
  m_cancel : Bool := false
  m_remote : NodeID
  m_ecdheRemote : NodeID := 0
  m_remoteNonce : H256 := 0
  m_remoteVersion : ℕ := 0
  m_authCipher : Bytes := []
  m_ackCipher : Bytes := []
  m_io : Option RLPXFrameCoder := none
  waiting : Waiting := .start
  session : Option PeerSession := none
  assertFailed : Bool := false

namespace RLPXHandshake

variable (P : HandshakeCiphers)

/-- `cancel`. -/
def cancel (h : RLPXHandshake) : RLPXHandshake :=
  { h with m_cancel := true, m_io := none, waiting := .nothing }

/-- `writeAuth`. -/
def writeAuth (h : RLPXHandshake) : RLPXHandshake × Bytes :=
  let staticShared := (P.agree h.m_host.m_alias h.m_remote).getD 0
  let sig := P.sign h.m_ecdheLocal (staticShared ^^^ h.m_nonce)
  let m_auth := bigEndian 65 sig.toNat ++
    bigEndian 32 (P.sha3 (bigEndian 64 (P.toPublic h.m_ecdheLocal).toNat)).toNat ++
    bigEndian 64 (h.m_host.id P).toNat ++ bigEndian 32 h.m_nonce.toNat ++ [0]
  let m_authCipher := P.encryptECIES h.random h.m_remote [] m_auth
  ({ h with m_authCipher, waiting := .write }, m_authCipher)

/-- `writeAck`. -/
def writeAck (h : RLPXHandshake) : RLPXHandshake × Bytes :=
  let m_ack := bigEndian 64 (P.toPublic h.m_ecdheLocal).toNat ++ bigEndian 32 h.m_nonce.toNat ++ [0]
  let m_ackCipher := P.encryptECIES h.random h.m_remote [] m_ack
  ({ h with m_ackCipher, waiting := .write }, m_ackCipher)

/-- `writeAckEIP8`. -/
def writeAckEIP8 (h : RLPXHandshake) : RLPXHandshake × Bytes :=
  let rlp := RLP.appendList (RLP.appendHash 64 (P.toPublic h.m_ecdheLocal) ++
    RLP.appendHash 32 h.m_nonce ++ RLP.appendInt c_rlpxVersion)
  let m_ack := rlp ++ List.replicate (h.random % 100 + 100) 0
  let prefix_ := bigEndian 2 (m_ack.length + 113)
  let m_ackCipher := prefix_ ++ P.encryptECIES h.random h.m_remote prefix_ m_ack
  ({ h with m_ackCipher, waiting := .write }, m_ackCipher)

/-- `setAuthValues`. -/
def setAuthValues (_sig : Signature) (_remotePubk : NodeID) (_remoteNonce : H256)
    (_remoteVersion : ℕ) (h : RLPXHandshake) : RLPXHandshake :=
  let sharedSecret := (P.agree h.m_host.m_alias _remotePubk).getD 0
  { h with
    m_remote := _remotePubk
    m_remoteNonce := _remoteNonce
    m_remoteVersion := _remoteVersion
    m_ecdheRemote := P.recover _sig (sharedSecret ^^^ _remoteNonce) }

/-- The part of `transition` that writes the `Hello`. -/
def writeHello (h : RLPXHandshake) : RLPXHandshake × Bytes :=
  match RLPXFrameCoder.setup P.toCiphers h.m_originated h.m_ecdheRemote h.m_remoteNonce
      h.m_ecdheLocal h.m_nonce h.m_ackCipher h.m_authCipher with
  | none => ({ h with waiting := .nothing }, [])
  | some io =>
      let (out, io) := io.writeSingleFramePacket P.toCiphers (h.m_host.hello P)
      ({ h with m_io := some io, waiting := .write }, out)

/-- `transition`. -/
def transition (_ech : Bool) (h : RLPXHandshake) : RLPXHandshake × Bytes :=
  if _ech || h.m_nextState = .error || h.m_cancel then (h.cancel, [])
  else
    match h.m_nextState with
    | .new =>
        let h := { h with m_nextState := .ackAuth }
        if h.m_originated then h.writeAuth P else ({ h with waiting := .readAuth }, [])
    | .ackAuth =>
        let h := { h with m_nextState := .writeHello }
        if h.m_originated then ({ h with waiting := .readAck }, []) else h.writeAck P
    | .ackAuthEIP8 =>
        let h := { h with m_nextState := .writeHello }
        if h.m_originated then ({ h with waiting := .readAck }, []) else h.writeAckEIP8 P
    | .writeHello => { h with m_nextState := .readHello }.writeHello P
    | .readHello => ({ h with m_nextState := .startSession, waiting := .readHello }, [])
    | .startSession => ({ h with assertFailed := true, waiting := .nothing }, [])
    | .error => (h, [])

/-- `m_nextState` becomes `Error`. -/
def fail (h : RLPXHandshake) : RLPXHandshake × Bytes :=
  { h with m_nextState := .error }.transition P false

/-- The end of the read of `readAuth`. -/
def onAuth (io : Bytes) (h : RLPXHandshake) : RLPXHandshake × Bytes :=
  let h := { h with m_authCipher := io }
  match P.decryptECIES h.m_host.m_alias [] io with
  | some data =>
      (h.setAuthValues P (hashOfBytes 65 (RLP.cropped data 0 65))
        (hashOfBytes 64 (RLP.cropped data 97 64)) (hashOfBytes 32 (RLP.cropped data 161 32))
        4).transition P false
  | none =>
      ({ h with waiting := .readAuthEIP8 ((io.getD 0 0).toNat * 256 + (io.getD 1 0).toNat) }, [])

/-- The end of the read of `readAuthEIP8`. -/
def onAuthEIP8 (size : ℕ) (io : Bytes) (h : RLPXHandshake) : RLPXHandshake × Bytes :=
  let ct := (h.m_authCipher ++ io).take (size + 2)
  let h := { h with m_authCipher := ct }
  match P.decryptECIES h.m_host.m_alias (ct.take 2) (ct.drop 2) with
  | none => h.fail P
  | some m_auth =>
      let values := do
        let _ ← RLP.sizeAsEncoded m_auth
        let sig ← (RLP.item m_auth 0).bind (RLP.toHashStrict 65)
        let remotePubk ← (RLP.item m_auth 1).bind (RLP.toHashStrict 64)
        let remoteNonce ← (RLP.item m_auth 2).bind (RLP.toHashStrict 32)
        let remoteVersion ← (RLP.item m_auth 3).bind (RLP.toInt 8)
        return h.setAuthValues P sig remotePubk remoteNonce remoteVersion
      match values with
      | none => ({ h with waiting := .nothing }, [])
      | some h => { h with m_nextState := .ackAuthEIP8 }.transition P false

/-- The end of the read of `readAck`. -/
def onAck (io : Bytes) (h : RLPXHandshake) : RLPXHandshake × Bytes :=
  let h := { h with m_ackCipher := io }
  match P.decryptECIES h.m_host.m_alias [] io with
  | some data =>
      { h with
        m_ecdheRemote := hashOfBytes 64 (RLP.cropped data 0 64)
        m_remoteNonce := hashOfBytes 32 (RLP.cropped data 64 32)
        m_remoteVersion := 4 }.transition P false
  | none =>
      ({ h with waiting := .readAckEIP8 ((io.getD 0 0).toNat * 256 + (io.getD 1 0).toNat) }, [])

/-- The end of the read of `readAckEIP8`. -/
def onAckEIP8 (size : ℕ) (io : Bytes) (h : RLPXHandshake) : RLPXHandshake × Bytes :=
  let ct := (h.m_ackCipher ++ io).take (size + 2)
  let h := { h with m_ackCipher := ct }
  match P.decryptECIES h.m_host.m_alias (ct.take 2) (ct.drop 2) with
  | none => h.fail P
  | some m_ack =>
      let values := do
        let _ ← RLP.sizeAsEncoded m_ack
        let ecdheRemote ← (RLP.item m_ack 0).bind (RLP.toHashStrict 64)
        let remoteNonce ← (RLP.item m_ack 1).bind (RLP.toHashStrict 32)
        let remoteVersion ← (RLP.item m_ack 2).bind (RLP.toInt 8)
        return { h with m_ecdheRemote := ecdheRemote, m_remoteNonce := remoteNonce,
                        m_remoteVersion := remoteVersion }
      match values with
      | none => ({ h with waiting := .nothing }, [])
      | some h => h.transition P false

/-- The end of the read of the header of the `Hello`. -/
def onHelloHeader (io : Bytes) (h : RLPXHandshake) : RLPXHandshake × Bytes :=
  match h.m_io.bind fun c => c.authAndDecryptHeader P.toCiphers io with
  | none => h.fail P
  | some (header, c) =>
      let h := { h with m_io := some c }
      let frameSize := (header.getD 2 0).toNat + (header.getD 1 0).toNat * 2 ^ 8 +
        (header.getD 0 0).toNat * 2 ^ 16
      if 1024 < frameSize then h.fail P else ({ h with waiting := .readHelloFrame frameSize }, [])

/-- The end of the read of the `Hello`. -/
def onHello (peering : Peering) (io : Bytes) (h : RLPXHandshake) : RLPXHandshake × Bytes :=
  match h.m_io.bind fun c => c.authAndDecryptFrame P.toCiphers io with
  | none => h.fail P
  | some (frame, c) =>
      let packetType := if frame.head? = some 0x80 then 0 else (frame.getD 0 0).toNat
      if packetType ≠ 0 then h.fail P
      else
        let started := do
          let _ ← RLP.sizeAsEncoded (frame.drop 1)
          h.m_host.startPeerSession P.toCiphers peering h.m_remote (frame.drop 1) c
        match started with
        | none => h.fail P
        | some (session, out) =>
            ({ h with m_io := none, waiting := .nothing, session := some session }, out)

/-- How many bytes a handshake waits for. -/
def need (h : RLPXHandshake) : ℕ :=
  match h.waiting with
  | .readAuth => 307
  | .readAuthEIP8 size => size + 2 - 307
  | .readAck => 210
  | .readAckEIP8 size => size + 2 - 210
  | .readHello => 32
  | .readHelloFrame frameSize => frameSize + (16 - frameSize % 16) % 16 + 16
  | _ => 0

/-- What a handshake waits for ends, with these bytes if it is a read. -/
def finish (peering : Peering) (io : Bytes) (h : RLPXHandshake) : RLPXHandshake × Bytes :=
  match h.waiting with
  | .start | .write => h.transition P false
  | .readAuth => h.onAuth P io
  | .readAuthEIP8 size => h.onAuthEIP8 P size io
  | .readAck => h.onAck P io
  | .readAckEIP8 size => h.onAckEIP8 P size io
  | .readHello => h.onHelloHeader P io
  | .readHelloFrame _ => h.onHello P peering io
  | .nothing => (h, [])

end RLPXHandshake

/-- A host with the secret, the nonce and the randomness of one handshake. -/
structure HandshakeEnd where
  m_host : HandshakeHost
  m_ecdheLocal : H256
  m_nonce : H256
  random : ℕ

/-- The two ends of a connection before there are sessions. -/
structure Handshakes where
  handshake : Side → RLPXHandshake
  /-- The bytes on their way from an end to the other one. -/
  wire : Side → Bytes

namespace Handshakes

variable (P : HandshakeCiphers)

/-- What happens next at an end. -/
inductive Op where
  | finish (side : Side) (peering : Peering)
  /-- What the end waits for fails. -/
  | error (side : Side)
  /-- The timer goes off. -/
  | timeout (side : Side)

/-- The ends after one of them has changed and put bytes on the connection. -/
def update (side : Side) (r : RLPXHandshake × Bytes) (l : Handshakes) : Handshakes where
  handshake := Function.update l.handshake side r.1
  wire := Function.update l.wire side (l.wire side ++ r.2)

/-- One step, `none` where it is not possible. -/
def step (l : Handshakes) : Op → Option Handshakes
  | .finish side peering =>
      let h := l.handshake side
      if h.waiting.isSome ∧ h.need ≤ (l.wire side.other).length then
        let r := h.finish P peering ((l.wire side.other).take h.need)
        let rest := (l.wire side.other).drop h.need
        some (update side r { l with wire := Function.update l.wire side.other rest })
      else none
  | .error side =>
      if (l.handshake side).waiting.isSome then
        some (l.update side ((l.handshake side).transition P true))
      else none
  | .timeout side =>
      if (l.handshake side).session.isSome then none
      else some (l.update side ((l.handshake side).cancel, []))

/-- The handshakes before `start`.  The host on the left calls the one on the right. -/
def initial (ends : Side → HandshakeEnd) : Handshakes where
  handshake side :=
    { m_host := (ends side).m_host
      m_originated := decide (side = .left)
      m_ecdheLocal := (ends side).m_ecdheLocal
      m_nonce := (ends side).m_nonce
      random := (ends side).random
      m_remote := if side = .left then (ends .right).m_host.id P else 0 }
  wire _ := []

/-- All runs of two handshakes. -/
def system (ends : Side → HandshakeEnd) : System Handshakes Op where
  init l := l = initial P ends
  step := step P

end Handshakes

end CppSwc
