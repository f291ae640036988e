import CppSwc.Core.RlpBytes
import CppSwc.Lib.Transport

/-!
# Frames

`RLPXFrameCoder` cuts a connection into frames.  A frame is a header of 16 bytes with the
length of the payload, a digest of 16 bytes, the payload with zeros up to a multiple of
16 bytes, and another digest.  Header and payload are encrypted, and the digests are over
all that was sent before.

* A Keccak state is the bytes that were given to it.
* A cipher in counter mode is its key and how many bytes it has processed.
* A coder is not used again after a digest that does not agree, and so it is not kept.
* What Crypto++ computes is a parameter.

Of two coders where the second reads what the first writes (`Mirrored`), the second gets
the frames of the first (`lawful`).
-/

namespace CppSwc

open Lib

/-- The functions of Crypto++ that a coder uses. -/
structure Ciphers where
  /-- Keccak-256. -/
  sha3 : Bytes → H256
  /-- `crypto::ecdh::agree`, `none` where it returns `false`. -/
  agree : H256 → NodeID → Option H256
  /-- The bytes that AES in counter mode adds, for a key and a position. -/
  keystream : H256 → ℕ → UInt8
  /-- AES on one block. -/
  encryptBlock : H256 → Bytes → Bytes
  encryptBlock_length : ∀ key b, b.length = 16 → (encryptBlock key b).length = 16

namespace Ciphers

variable (C : Ciphers)

/-- `ProcessData` from a position on. -/
def processData (key : H256) (position : ℕ) (data : Bytes) : Bytes :=
  data.mapIdx fun i b => b ^^^ C.keystream key (position + i)

/-- `TruncatedFinal`, the first half of the digest. -/
def digest (mac : Bytes) : Bytes := (bigEndian 32 (C.sha3 mac).toNat).take 16

/-- `updateMAC`, with an empty seed where the source has none. -/
def updateMAC (macEncKey : H256) (mac seed : Bytes) : Bytes :=
  let prevDigest := C.digest mac
  let encDigest := C.encryptBlock macEncKey prevDigest
  mac ++ encDigest.zipWith (· ^^^ ·) (if seed = [] then prevDigest else seed)

@[simp]
theorem processData_length (key : H256) (position : ℕ) (data : Bytes) :
    (C.processData key position data).length = data.length := by simp [processData]

@[simp]
theorem digest_length (mac : Bytes) : (C.digest mac).length = 16 := by
  rw [digest, List.length_take, bigEndian_length, Nat.min_eq_left (by decide)]

/-- What is processed twice is as before. -/
@[simp]
theorem processData_processData (key : H256) (position : ℕ) (data : Bytes) :
    C.processData key position (C.processData key position data) = data := by
  apply List.ext_getElem
  · simp
  · intro i _ _
    simp only [processData, List.getElem_mapIdx, UInt8.xor_assoc, UInt8.xor_self, UInt8.xor_zero]

/-- Data can be processed in parts. -/
theorem processData_append (key : H256) (position : ℕ) (data rest : Bytes) :
    C.processData key position (data ++ rest) =
      C.processData key position data ++ C.processData key (position + data.length) rest := by
  simp only [processData, List.mapIdx_append, Nat.add_comm, Nat.add_left_comm]

end Ciphers

/-- `RLPXFrameCoderImpl`. -/
structure RLPXFrameCoder where
  frameEncKey : H256
  frameEnc : ℕ
  frameDecKey : H256
  frameDec : ℕ
  macEncKey : H256
  egressMac : Bytes
  ingressMac : Bytes

/-- The headers that the overloads of `writeFrame` and `writeSingleFramePacket` write. -/
inductive FrameHeader where
  | single
  | frame (protocolType : ℕ)
  | continuation (protocolType seqId : ℕ)
  | first (protocolType seqId totalSize : ℕ)

/-- `RLPXFrameInfo`. -/
structure RLPXFrameInfo where
  length : ℕ
  padding : ℕ
  protocolId : ℕ
  multiFrame : Bool
  sequenceId : ℕ
  totalLength : ℕ
deriving DecidableEq

namespace RLPXFrameInfo

/-- The constructor, `none` where it throws. -/
def ofHeader (_header : Bytes) : Option RLPXFrameInfo := do
  let length := ((_header.getD 0 0).toNat * 256 + (_header.getD 1 0).toNat) * 256 +
    (_header.getD 2 0).toNat
  let header := _header.drop 3
  let _ ← RLP.sizeAsEncoded header
  let protocolId ← (RLP.item header 0).bind (RLP.toInt 2)
  let itemCount ← (RLP.items header).map List.length
  let sequenceId ← if 1 < itemCount then (RLP.item header 1).bind (RLP.toInt 2) else some 0
  let totalLength ← if itemCount = 3 then (RLP.item header 2).bind (RLP.toInt 4) else some 0
  return { length, padding := (16 - length % 16) % 16, protocolId,
           multiFrame := decide (1 < itemCount), sequenceId, totalLength }

end RLPXFrameInfo

namespace FrameHeader

/-- The list behind the length. -/
def rlp : FrameHeader → Bytes
  | .single => [0xc2, 0x80, 0x80]
  | .frame protocolType => RLP.appendList (RLP.appendInt protocolType)
  | .continuation protocolType seqId =>
      RLP.appendList (RLP.appendInt protocolType ++ RLP.appendInt seqId)
  | .first protocolType seqId totalSize =>
      RLP.appendList (RLP.appendInt protocolType ++ RLP.appendInt seqId ++ RLP.appendInt totalSize)

/-- The header of a payload. -/
def bytes (h : FrameHeader) (len : ℕ) : Bytes :=
  [UInt8.ofNat (len / 2 ^ 16), UInt8.ofNat (len / 2 ^ 8), UInt8.ofNat len] ++ h.rlp

end FrameHeader

namespace RLPXFrameCoder

variable (C : Ciphers)

/-- `setup` after the two ends have agreed on a secret. -/
def setupShared (_originated : Bool) (_remoteNonce _nonce : H256) (_ackCipher _authCipher : Bytes)
    (ephemeralShared : H256) : RLPXFrameCoder :=
  let leftNonce := if _originated then _remoteNonce else _nonce
  let rightNonce := if _originated then _nonce else _remoteNonce
  let keyMaterial (out : H256) : Bytes := bigEndian 32 ephemeralShared.toNat ++ bigEndian 32 out.toNat
  let nonces := C.sha3 (bigEndian 32 leftNonce.toNat ++ bigEndian 32 rightNonce.toNat)
  let sharedSecret := C.sha3 (keyMaterial nonces)
  let aesSecret := C.sha3 (keyMaterial sharedSecret)
  let macSecret := C.sha3 (keyMaterial aesSecret)
  let egressCipher := if _originated then _authCipher else _ackCipher
  let ingressCipher := if _originated then _ackCipher else _authCipher
  -- the second one is made from the first one
  let egressKey := macSecret ^^^ _remoteNonce
  let ingressKey := egressKey ^^^ _remoteNonce ^^^ _nonce
  { frameEncKey := aesSecret
    frameEnc := 0
    frameDecKey := aesSecret
    frameDec := 0
    macEncKey := macSecret
    egressMac := bigEndian 32 egressKey.toNat ++ egressCipher
    ingressMac := bigEndian 32 ingressKey.toNat ++ ingressCipher }

/-- `setup`, `none` where it throws. -/
def setup (_originated : Bool) (_remoteEphemeral : NodeID) (_remoteNonce ecdheSecret _nonce : H256)
    (_ackCipher _authCipher : Bytes) : Option RLPXFrameCoder :=
  (C.agree ecdheSecret _remoteEphemeral).map
    (setupShared C _originated _remoteNonce _nonce _ackCipher _authCipher)

/-- `writeFrame` with a header. -/
def writeFrame (_header _payload : Bytes) (c : RLPXFrameCoder) : Bytes × RLPXFrameCoder :=
  -- what does not fit into the first half is overwritten
  let header := (_header ++ List.replicate 32 0).take 16
  let headerCipher := C.processData c.frameEncKey c.frameEnc header
  let headerMac := C.updateMAC c.macEncKey c.egressMac headerCipher
  let padding := (16 - _payload.length % 16) % 16
  let packet := C.processData c.frameEncKey (c.frameEnc + 16) _payload
  let packetWithPadding := packet ++
    C.processData c.frameEncKey (c.frameEnc + 16 + _payload.length) (List.replicate padding 0)
  let frameMac := C.updateMAC c.macEncKey (headerMac ++ packetWithPadding) []
  (headerCipher ++ C.digest headerMac ++ packetWithPadding ++ C.digest frameMac,
    { c with frameEnc := c.frameEnc + 16 + _payload.length + padding, egressMac := frameMac })

/-- `writeSingleFramePacket`. -/
def writeSingleFramePacket (_packet : Bytes) (c : RLPXFrameCoder) : Bytes × RLPXFrameCoder :=
  c.writeFrame C (FrameHeader.single.bytes _packet.length) _packet

/-- `authAndDecryptHeader`, `none` where it returns `false`. -/
def authAndDecryptHeader (io : Bytes) (c : RLPXFrameCoder) : Option (Bytes × RLPXFrameCoder) :=
  let mac := C.updateMAC c.macEncKey c.ingressMac (io.take 16)
  if (io.drop 16).take 16 = C.digest mac then
    some (C.processData c.frameDecKey c.frameDec (io.take 16) ++ io.drop 16,
      { c with frameDec := c.frameDec + 16, ingressMac := mac })
  else none

/-- `authAndDecryptFrame`, `none` where it returns `false`. -/
def authAndDecryptFrame (io : Bytes) (c : RLPXFrameCoder) : Option (Bytes × RLPXFrameCoder) :=
  let cipherText := io.take (io.length - 16)
  let mac := C.updateMAC c.macEncKey (c.ingressMac ++ cipherText) []
  if io.drop (io.length - 16) = C.digest mac then
    some (C.processData c.frameDecKey c.frameDec cipherText ++ io.drop (io.length - 16),
      { c with frameDec := c.frameDec + (io.length - 16), ingressMac := mac })
  else none

end RLPXFrameCoder

/-- What the next read of a connection is for. -/
inductive Reading where
  /-- A header. -/
  | header
  /-- A frame with its padding and digest. -/
  | frame (info : RLPXFrameInfo)

/-- How many bytes the next read takes. -/
def Reading.need : Reading → ℕ
  | .header => 32
  | .frame info => info.length + info.padding + 16

namespace RLPXFrameCoder

/-- The end of a read of `Session::doRead`, `none` where the peer is dropped.  The frame comes
with what its header says. -/
def readNext (C : Ciphers) (r : RLPXFrameCoder × Reading) (io : Bytes) :
    Option (Option (RLPXFrameInfo × Bytes) × RLPXFrameCoder × Reading) :=
  match r.2 with
  | .header => do
      let (header, c) ← r.1.authAndDecryptHeader C io
      let info ← RLPXFrameInfo.ofHeader header
      return (none, c, .frame info)
  | .frame info => do
      let (frame, c) ← r.1.authAndDecryptFrame C io
      return (some (info, frame.take info.length), c, .header)

/-- Frames on a connection. -/
def transport (C : Ciphers) : Transport RLPXFrameCoder (RLPXFrameCoder × Reading)
    (FrameHeader × Bytes) (RLPXFrameInfo × Bytes) UInt8 where
  write c m := c.writeFrame C (m.1.bytes m.2.length) m.2
  need r := r.2.need
  feed := readNext C

end RLPXFrameCoder

/-! ## Headers -/

namespace RLP

theorem appendInt_length {n k : ℕ} (h : n < 256 ^ k) (hk : k < 56) :
    (appendInt n).length ≤ k + 1 := by
  have hbytes := bytesRequired_le h
  have hlength : (bigEndian (Rlp.bytesRequired n) n).length = Rlp.bytesRequired n := bigEndian_length _ _
  rw [appendInt]
  rcases appendData_cases (bigEndian (Rlp.bytesRequired n) n) with ⟨b, -, -, happend⟩ | ⟨happend, -⟩
  · rw [happend, List.length_singleton]
    omega
  · rw [happend, hlength, lengthPrefix, if_pos (by omega), List.length_append, hlength,
      List.length_singleton]
    omega

theorem whole_appendInt {n k : ℕ} (h : n < 256 ^ k) (hk : k < 56) : framing.Whole (appendInt n) := by
  apply whole_appendData
  rw [bigEndian_length, maxLength]
  have := bytesRequired_le h
  omega

/-- A number is read as it was written. -/
theorem toInt_appendInt {n k : ℕ} (h : n < 256 ^ k) (hk : k < 56) :
    toInt k (appendInt n) = some n := by
  have hbytes := bytesRequired_le h
  have hlength : (bigEndian (Rlp.bytesRequired n) n).length = Rlp.bytesRequired n := bigEndian_length _ _
  have hmax : (bigEndian (Rlp.bytesRequired n) n).length < maxLength := by
    rw [hlength, maxLength]
    omega
  rw [appendInt, toInt_appendData hmax, if_neg,
    fromBigEndian_bigEndian _ _ (Rlp.lt_pow_bytesRequired n)]
  rintro (hzero | hlong)
  · exact Rlp.head_bigEndian_ne n hzero
  · omega

end RLP

namespace FrameHeader

/-- The numbers of a header. -/
def fields : FrameHeader → List ℕ
  | .single => [0, 0]
  | .frame protocolType => [protocolType]
  | .continuation protocolType seqId => [protocolType, seqId]
  | .first protocolType seqId totalSize => [protocolType, seqId, totalSize]

/-- The numbers are of the types that `writeFrame` takes. -/
def Fits : FrameHeader → Prop
  | .single => True
  | .frame protocolType => protocolType < 2 ^ 16
  | .continuation protocolType seqId => protocolType < 2 ^ 16 ∧ seqId < 2 ^ 16
  | .first protocolType seqId totalSize =>
      protocolType < 2 ^ 16 ∧ seqId < 2 ^ 16 ∧ totalSize < 2 ^ 32

/-- What a reader finds in the header of a payload. -/
def info (h : FrameHeader) (len : ℕ) : RLPXFrameInfo where
  length := len
  padding := (16 - len % 16) % 16
  protocolId := h.fields.getD 0 0
  multiFrame := decide (1 < h.fields.length)
  sequenceId := h.fields.getD 1 0
  totalLength := h.fields.getD 2 0

variable {h : FrameHeader}

theorem rlp_eq : h.rlp = RLP.appendList ((h.fields.map RLP.appendInt).flatten) := by
  cases h with
  | single => decide
  | frame protocolType => simp [rlp, fields]
  | continuation protocolType seqId => simp [rlp, fields]
  | first protocolType seqId totalSize => simp [rlp, fields]

theorem Fits.fields_lt (hfits : h.Fits) : ∀ n ∈ h.fields, n < 256 ^ 4 := by
  cases h <;> simp only [Fits] at hfits <;> simp only [fields, List.mem_cons, List.not_mem_nil,
    or_false, forall_eq_or_imp, forall_eq] <;> omega

theorem Fits.rlp_length (hfits : h.Fits) : h.rlp.length ≤ 12 := by
  have hlist : ∀ s : Bytes, s.length ≤ 11 → (RLP.appendList s).length ≤ 12 := by
    intro s hs
    rw [RLP.appendList, RLP.lengthPrefix, if_pos (by omega), List.length_append,
      List.length_singleton]
    omega
  cases h with
  | single => decide
  | frame protocolType =>
      have hp := RLP.appendInt_length (k := 2) hfits (by decide)
      exact hlist _ (by omega)
  | continuation protocolType seqId =>
      have hp := RLP.appendInt_length (k := 2) hfits.1 (by decide)
      have hs := RLP.appendInt_length (k := 2) hfits.2 (by decide)
      apply hlist
      rw [List.length_append]
      omega
  | first protocolType seqId totalSize =>
      have hp := RLP.appendInt_length (k := 2) hfits.1 (by decide)
      have hs := RLP.appendInt_length (k := 2) hfits.2.1 (by decide)
      have ht := RLP.appendInt_length (k := 4) hfits.2.2 (by decide)
      apply hlist
      rw [List.length_append, List.length_append]
      omega

theorem Fits.bytes_length (hfits : h.Fits) (len : ℕ) : (h.bytes len).length ≤ 15 := by
  have := hfits.rlp_length
  rw [bytes, List.length_append]
  simp only [List.length_cons, List.length_nil]
  omega

/-- Reading a header gives what was written in it. -/
theorem ofHeader_bytes (hfits : h.Fits) {len : ℕ} (hlen : len < 2 ^ 24) (rest : Bytes) :
    RLPXFrameInfo.ofHeader (h.bytes len ++ rest) = some (h.info len) := by
  have hshort : ((h.fields.map RLP.appendInt).flatten).length < RLP.maxLength := by
    have hlength := hfits.rlp_length
    rw [rlp_eq, RLP.appendList, List.length_append] at hlength
    rw [RLP.maxLength]
    omega
  obtain ⟨hsize, hislist, hpayload⟩ := RLP.read_appendList hshort rest
  rw [← rlp_eq] at hsize hislist hpayload
  have hwhole : ∀ x ∈ h.fields.map RLP.appendInt, RLP.framing.Whole x := by
    intro x hx
    obtain ⟨n, hn, rfl⟩ := List.mem_map.mp hx
    exact RLP.whole_appendInt (hfits.fields_lt n hn) (by decide)
  have hitem (i : ℕ) : RLP.item (h.rlp ++ rest) i = some ((h.fields.map RLP.appendInt).getD i []) := by
    rw [RLP.item, hpayload, Option.bind_some, Framing.nth_flatten hwhole]
  have hitems : RLP.items (h.rlp ++ rest) = some (h.fields.map RLP.appendInt) := by
    rw [RLP.items, if_pos hislist, hpayload, Option.bind_some, Framing.split_flatten hwhole]
  have hfound : RLP.sizeAsEncoded (h.rlp ++ rest) = some h.rlp.length := by
    rw [RLP.sizeAsEncoded, hsize, Option.bind_some, if_pos (by rw [List.length_append]; omega)]
  have hdrop : (h.bytes len ++ rest).drop 3 = h.rlp ++ rest := rfl
  have hlength : (((h.bytes len ++ rest).getD 0 0).toNat * 256 +
      ((h.bytes len ++ rest).getD 1 0).toNat) * 256 + ((h.bytes len ++ rest).getD 2 0).toNat = len := by
    change ((UInt8.ofNat (len / 2 ^ 16)).toNat * 256 + (UInt8.ofNat (len / 2 ^ 8)).toNat) * 256 +
      (UInt8.ofNat len).toNat = len
    simp only [UInt8.toNat_ofNat']
    omega
  simp only [RLPXFrameInfo.ofHeader, hdrop, hfound, hitem, hitems, hlength]
  cases h with
  | single => rfl
  | frame protocolType =>
      simp [fields, info, RLP.toInt_appendInt (k := 2) hfits]
  | continuation protocolType seqId =>
      simp [fields, info, RLP.toInt_appendInt (k := 2) hfits.1,
        RLP.toInt_appendInt (k := 2) hfits.2]
  | first protocolType seqId totalSize =>
      simp [fields, info, RLP.toInt_appendInt (k := 2) hfits.1,
        RLP.toInt_appendInt (k := 2) hfits.2.1, RLP.toInt_appendInt (k := 4) hfits.2.2]

end FrameHeader

/-! ## Reading what was written -/

namespace RLPXFrameCoder

variable {C : Ciphers} {w r : RLPXFrameCoder}

/-- The second coder reads what the first one writes. -/
structure Mirrored (w r : RLPXFrameCoder) : Prop where
  key : w.frameEncKey = r.frameDecKey
  position : w.frameEnc = r.frameDec
  macKey : w.macEncKey = r.macEncKey
  mac : w.egressMac = r.ingressMac

/-- The reader waits for a header, and reads what the writer writes. -/
def Sync (w : RLPXFrameCoder) (r : RLPXFrameCoder × Reading) : Prop :=
  Mirrored w r.1 ∧ r.2 = .header

/-- The first half of a header. -/
def headerBlock (_header : Bytes) : Bytes := (_header ++ List.replicate 32 0).take 16

theorem headerBlock_length (_header : Bytes) : (headerBlock _header).length = 16 := by
  rw [headerBlock, List.length_take, List.length_append, List.length_replicate]
  omega

theorem headerBlock_eq {_header : Bytes} (h : _header.length ≤ 16) :
    headerBlock _header = _header ++ List.replicate (16 - _header.length) 0 := by
  rw [headerBlock, List.take_append, List.take_of_length_le h, List.take_replicate]
  congr 2
  omega

/-- A header with its digest, and the coder after it. -/
def sealHeader (C : Ciphers) (_header : Bytes) (c : RLPXFrameCoder) : Bytes × RLPXFrameCoder :=
  let headerCipher := C.processData c.frameEncKey c.frameEnc (headerBlock _header)
  let headerMac := C.updateMAC c.macEncKey c.egressMac headerCipher
  (headerCipher ++ C.digest headerMac,
    { c with frameEnc := c.frameEnc + 16, egressMac := headerMac })

/-- The payload with zeros up to a multiple of a block. -/
def padded (_payload : Bytes) : Bytes :=
  _payload ++ List.replicate ((16 - _payload.length % 16) % 16) 0

/-- A payload with its digest, and the coder after it. -/
def sealPayload (C : Ciphers) (_payload : Bytes) (c : RLPXFrameCoder) : Bytes × RLPXFrameCoder :=
  let packet := C.processData c.frameEncKey c.frameEnc (padded _payload)
  let frameMac := C.updateMAC c.macEncKey (c.egressMac ++ packet) []
  (packet ++ C.digest frameMac,
    { c with frameEnc := c.frameEnc + (padded _payload).length, egressMac := frameMac })

theorem writeFrame_eq (_header _payload : Bytes) (c : RLPXFrameCoder) :
    c.writeFrame C _header _payload =
      ((c.sealHeader C _header).1 ++ ((c.sealHeader C _header).2.sealPayload C _payload).1,
        ((c.sealHeader C _header).2.sealPayload C _payload).2) := by
  simp only [writeFrame, sealHeader, sealPayload, padded, headerBlock, Ciphers.processData_append,
    List.length_append, List.length_replicate, List.append_assoc, Nat.add_assoc]

@[simp]
theorem sealHeader_length (_header : Bytes) (c : RLPXFrameCoder) :
    (c.sealHeader C _header).1.length = 32 := by
  simp [sealHeader, headerBlock_length]

@[simp]
theorem sealPayload_length (_payload : Bytes) (c : RLPXFrameCoder) :
    (c.sealPayload C _payload).1.length =
      _payload.length + (16 - _payload.length % 16) % 16 + 16 := by
  simp [sealPayload, padded]

/-- A header that was written is authentic, and is decrypted to what it was. -/
theorem Mirrored.authAndDecryptHeader (h : Mirrored w r) (_header : Bytes) :
    ∃ r', r.authAndDecryptHeader C (w.sealHeader C _header).1 =
        some (headerBlock _header ++ C.digest (w.sealHeader C _header).2.egressMac, r') ∧
      Mirrored (w.sealHeader C _header).2 r' := by
  have htake : ((w.sealHeader C _header).1).take 16 =
      C.processData w.frameEncKey w.frameEnc (headerBlock _header) := by
    rw [sealHeader, List.take_left' (by simp [headerBlock_length])]
  have hdrop : ((w.sealHeader C _header).1).drop 16 = C.digest (w.sealHeader C _header).2.egressMac := by
    rw [sealHeader, List.drop_left' (by simp [headerBlock_length])]
  have hmac : C.updateMAC r.macEncKey r.ingressMac (((w.sealHeader C _header).1).take 16) =
      (w.sealHeader C _header).2.egressMac := by
    rw [htake, ← h.macKey, ← h.mac]
    rfl
  refine ⟨{ r with frameDec := r.frameDec + 16,
                   ingressMac := (w.sealHeader C _header).2.egressMac }, ?_, ?_⟩
  · rw [RLPXFrameCoder.authAndDecryptHeader, hmac, hdrop, if_pos (List.take_of_length_le (by simp)), htake, h.key, h.position,
      Ciphers.processData_processData]
  · exact ⟨h.key, congrArg (· + 16) h.position, h.macKey, rfl⟩

/-- So is a payload. -/
theorem Mirrored.authAndDecryptFrame (h : Mirrored w r) (_payload : Bytes) :
    ∃ r', r.authAndDecryptFrame C (w.sealPayload C _payload).1 =
        some (padded _payload ++ C.digest (w.sealPayload C _payload).2.egressMac, r') ∧
      Mirrored (w.sealPayload C _payload).2 r' := by
  have hlength : ((w.sealPayload C _payload).1).length - 16 = (padded _payload).length := by
    simp [sealPayload]
  have htake : ((w.sealPayload C _payload).1).take (padded _payload).length =
      C.processData w.frameEncKey w.frameEnc (padded _payload) := by
    rw [sealPayload, List.take_left' (by simp)]
  have hdrop : ((w.sealPayload C _payload).1).drop (padded _payload).length =
      C.digest (w.sealPayload C _payload).2.egressMac := by
    rw [sealPayload, List.drop_left' (by simp)]
  have hmac : C.updateMAC r.macEncKey
      (r.ingressMac ++ ((w.sealPayload C _payload).1).take (padded _payload).length) [] =
        (w.sealPayload C _payload).2.egressMac := by
    rw [htake, ← h.macKey, ← h.mac]
    rfl
  refine ⟨{ r with frameDec := r.frameDec + (padded _payload).length,
                   ingressMac := (w.sealPayload C _payload).2.egressMac }, ?_, ?_⟩
  · rw [RLPXFrameCoder.authAndDecryptFrame, hlength, hmac, hdrop, if_pos rfl, htake, h.key, h.position, Ciphers.processData_processData]
  · exact ⟨h.key, congrArg (· + _) h.position, h.macKey, rfl⟩

/-- Two ends that have agreed on the same secret, with the nonces and the packets of one
handshake, read what the other one writes. -/
theorem mirrored_of_setup {ephemeral₁ ephemeral₂ : NodeID} {secret₁ secret₂ nonce₁ nonce₂ : H256}
    {ack auth : Bytes} {c₁ c₂ : RLPXFrameCoder}
    (hagree : C.agree secret₁ ephemeral₂ = C.agree secret₂ ephemeral₁)
    (h₁ : setup C true ephemeral₂ nonce₂ secret₁ nonce₁ ack auth = some c₁)
    (h₂ : setup C false ephemeral₁ nonce₁ secret₂ nonce₂ ack auth = some c₂) :
    Mirrored c₁ c₂ ∧ Mirrored c₂ c₁ := by
  obtain ⟨shared, hshared, rfl⟩ := Option.map_eq_some_iff.mp h₁
  obtain ⟨shared', hshared', rfl⟩ := Option.map_eq_some_iff.mp h₂
  rw [hagree] at hshared
  obtain rfl : shared = shared' := Option.some.inj (hshared.symm.trans hshared')
  have hkey : ∀ (x y z : H256) (cipher : Bytes), bigEndian 32 (x ^^^ z).toNat ++ cipher =
      bigEndian 32 (x ^^^ y ^^^ y ^^^ z).toNat ++ cipher := by
    intro x y z cipher
    rw [BitVec.xor_assoc x y y, BitVec.xor_self, BitVec.xor_zero]
  exact ⟨⟨rfl, rfl, rfl, hkey _ _ _ auth⟩, ⟨rfl, rfl, rfl, hkey _ _ _ ack⟩⟩

/-- A reader gets the frames that are written, whatever their headers are. -/
theorem lawful (C : Ciphers) : (transport C).Lawful Sync (fun m => (m.1.info m.2.length, m.2))
    (fun m => m.1.Fits ∧ m.2.length < 2 ^ 24) where
  need_pos := by
    rintro w ⟨r, reading⟩ ⟨-, rfl⟩
    exact Nat.zero_lt_succ 31
  write := by
    rintro w ⟨r, reading⟩ ⟨header, payload⟩ ⟨hmirror, rfl⟩ ⟨hfits, hlength⟩
    dsimp only at hfits hlength
    obtain ⟨r₁, hheader, hmirror₁⟩ :=
      hmirror.authAndDecryptHeader (C := C) (header.bytes payload.length)
    obtain ⟨r₂, hframe, hmirror₂⟩ := hmirror₁.authAndDecryptFrame (C := C) payload
    have hinfo : RLPXFrameInfo.ofHeader (headerBlock (header.bytes payload.length) ++
        C.digest (w.sealHeader C (header.bytes payload.length)).2.egressMac) =
          some (header.info payload.length) := by
      have hshort := hfits.bytes_length payload.length
      rw [headerBlock_eq (by omega), List.append_assoc]
      exact FrameHeader.ofHeader_bytes hfits hlength _
    have hpayload : (padded payload ++ C.digest ((w.sealHeader C (header.bytes payload.length)).2.sealPayload
        C payload).2.egressMac).take payload.length = payload := by
      rw [padded, List.append_assoc, List.take_left]
    have hread₁ : readNext C (r, .header) (w.sealHeader C (header.bytes payload.length)).1 =
        some (none, r₁, .frame (header.info payload.length)) := by
      simp [readNext, hheader, hinfo]
    have hread₂ : readNext C (r₁, .frame (header.info payload.length))
        ((w.sealHeader C (header.bytes payload.length)).2.sealPayload C payload).1 =
          some (some (header.info payload.length, payload), r₂, .header) := by
      simp only [readNext, hframe]
      exact congrArg some (Prod.ext (congrArg some (Prod.ext rfl hpayload)) rfl)
    have hdone : (transport C).Delivers Sync (r₂, .header) [] []
        ((w.sealHeader C (header.bytes payload.length)).2.sealPayload C payload).2 :=
      .done ⟨hmirror₂, rfl⟩
    have hneed₁ : (transport C).need (r, .header) =
        (w.sealHeader C (header.bytes payload.length)).1.length := (sealHeader_length _ _).symm
    have hneed₂ : (transport C).need (r₁, .frame (header.info payload.length)) =
        ((w.sealHeader C (header.bytes payload.length)).2.sealPayload C payload).1.length :=
      (sealPayload_length _ _).symm
    have hwrite : (transport C).write w (header, payload) =
        w.writeFrame C (header.bytes payload.length) payload := rfl
    rw [hwrite, writeFrame_eq]
    have hlast := hdone.read_append hneed₂ hread₂
    rw [List.append_nil] at hlast
    exact hlast.read_append hneed₁ hread₁

end RLPXFrameCoder

end CppSwc
