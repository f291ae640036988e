import CppSwc.P2p.Handshake

/-!
# The encryption of a handshake

The packets of a handshake are encrypted for the key of the host that they are sent to
(`encryptECIES`).  A message is a byte, the public key of a pair that is made for it, a
start value, the text in counter mode, and a tag over what has been encrypted.

* Crypto++ and secp256k1 are parameters.
* The key pair and the start value that are made for a message are arguments.

`decryptECIES` accepts just the messages that have been made like this, whatever their first
byte and their key pair, and returns what is in them (`Ecies.decryptECIES_eq_some`).  So the
functions are such as a handshake needs them (`Ecies.handshakeCiphers`).
-/

namespace CppSwc

/-- The functions of Crypto++ and secp256k1 that the encryption uses. -/
structure Ecies where
  /-- The secret of a `KeyPair`. -/
  IsSecret : H256 → Prop
  toPublic : H256 → NodeID
  /-- `ecdh::agree`, `none` where it returns `false`. -/
  agree : H256 → NodeID → Option H256
  sha256 : Bytes → H256
  /-- `HMAC<SHA256>`, with its key. -/
  hmac : Bytes → Bytes → H256
  /-- The bytes that AES in counter mode adds, for a key and a start value. -/
  keystream : Bytes → Bytes → ℕ → UInt8
  agree_comm : ∀ a b, IsSecret a → IsSecret b → agree a (toPublic b) = agree b (toPublic a)
  agree_isSome : ∀ a b, IsSecret a → IsSecret b → (agree a (toPublic b)).isSome = true

namespace Ecies

variable (P : Ecies)

/-- `ecies::kdf`. -/
def kdf (_z : H256) (_s1 : Bytes) (kdByteLen : ℕ) : Bytes :=
  let reps := (kdByteLen + 7) * 8 / 512
  let k := ((List.range (reps + 1)).map fun i =>
    bigEndian 32 (P.sha256 (bigEndian 4 (1 + i) ++ bigEndian 32 _z.toNat ++ _s1)).toNat).flatten
  (k ++ List.replicate kdByteLen 0).take kdByteLen

/-- `encryptAES128CTR`, which is `decryptAES128CTR` as well. -/
def processAES128CTR (_k _iv _plain : Bytes) : Bytes :=
  if _k.length ≠ 16 ∧ _k.length ≠ 24 ∧ _k.length ≠ 32 then []
  else _plain.mapIdx fun i b => b ^^^ P.keystream _k _iv i

/-- The key of the tag. -/
def mKey (key : Bytes) : Bytes := bigEndian 32 (P.sha256 (RLP.cropped key 16 16)).toNat

/-- `encryptECIES` with the key pair and the start value that it makes. -/
def encryptECIES (r : H256) (iv : BitVec 128) (_k : NodeID) (_sharedMacData io_cipher : Bytes) : Bytes :=
  let z := (P.agree r _k).getD 0
  let key := P.kdf z [] 32
  let cipherText := P.processAES128CTR (RLP.cropped key 0 16) (bigEndian 16 iv.toNat) io_cipher
  if cipherText = [] then io_cipher
  else
    let cipherWithIV := bigEndian 16 iv.toNat ++ cipherText
    0x04 :: (bigEndian 64 (P.toPublic r).toNat ++ cipherWithIV ++
      bigEndian 32 (P.hmac (P.mKey key) (cipherWithIV ++ _sharedMacData)).toNat)

/-- `decryptECIES`, `none` where it returns `false`. -/
def decryptECIES (_k : H256) (_sharedMacData io_text : Bytes) : Option Bytes :=
  if io_text = [] ∨ (io_text.getD 0 0).toNat < 2 ∨ 4 < (io_text.getD 0 0).toNat then none
  else if io_text.length < 1 + 64 + 16 + 1 + 32 then none
  else do
    let z ← P.agree _k (hashOfBytes 64 (RLP.cropped io_text 1 64))
    let key := P.kdf z [] 64
    let cipherLen := io_text.length - 1 - 64 - 16 - 32
    let cipherWithIV := RLP.cropped io_text (1 + 64) (16 + cipherLen)
    let cipherIV := RLP.cropped cipherWithIV 0 16
    let cipherNoIV := RLP.cropped cipherWithIV 16 cipherLen
    let msgMac := (io_text.drop (1 + 64 + 16 + cipherLen)).take 32
    let mac := P.hmac (P.mKey key) (cipherWithIV ++ _sharedMacData)
    if bigEndian 32 mac.toNat = msgMac then
      return P.processAES128CTR (RLP.cropped key 0 16) cipherIV cipherNoIV
    else none

/-! ## What is in a message -/

/-- The first 32 bytes of `kdf`. -/
def digest (z : H256) : Bytes :=
  bigEndian 32 (P.sha256 (bigEndian 4 1 ++ bigEndian 32 z.toNat ++ [])).toNat

/-- The start value, the text and the tag of a message. -/
def contents (z : H256) (iv _sharedMacData plain : Bytes) : Bytes :=
  let cipherText := P.processAES128CTR ((P.digest z).take 16) iv plain
  iv ++ (cipherText ++ bigEndian 32 (P.hmac (bigEndian 32 (P.sha256 ((P.digest z).drop 16)).toNat)
    (iv ++ cipherText ++ _sharedMacData)).toNat)

variable {P} {z : H256} {iv mac plain : Bytes}

theorem digest_length : (P.digest z).length = 32 := bigEndian_length _ _

/-- Both directions have the same keys, though one asks for more bytes than the other. -/
theorem keys_kdf {n : ℕ} (hn : n = 32 ∨ n = 64) :
    RLP.cropped (P.kdf z [] n) 0 16 = (P.digest z).take 16 ∧
      RLP.cropped (P.kdf z [] n) 16 16 = (P.digest z).drop 16 := by
  have hkdf : ∃ rest, P.kdf z [] n = P.digest z ++ rest := by
    rcases hn with rfl | rfl
    · refine ⟨[], ?_⟩
      change ((P.digest z ++ []) ++ List.replicate 32 0).take 32 = _
      rw [List.append_nil, List.take_left' digest_length]
    · set second := bigEndian 32 (P.sha256 (bigEndian 4 2 ++ bigEndian 32 z.toNat ++ [])).toNat
      refine ⟨second, ?_⟩
      change ((P.digest z ++ (second ++ [])) ++ List.replicate 64 0).take 64 = _
      rw [List.append_nil, List.take_left']
      rw [List.length_append, digest_length, bigEndian_length]
  obtain ⟨rest, hkdf⟩ := hkdf
  have hlength := digest_length (P := P) (z := z)
  rw [hkdf, RLP.cropped, RLP.cropped, if_pos (by rw [List.length_append]; omega),
    if_pos (by rw [List.length_append]; omega), List.drop_zero,
    List.take_append_of_le_length (by omega), List.drop_append_of_le_length (by omega)]
  exact ⟨rfl, List.take_left' (by rw [List.length_drop]; omega)⟩

theorem processAES128CTR_eq {key : Bytes} (hkey : key.length = 16) :
    P.processAES128CTR key iv plain = plain.mapIdx fun i b => b ^^^ P.keystream key iv i :=
  if_neg (by omega)

theorem processAES128CTR_length {key : Bytes} (hkey : key.length = 16) :
    (P.processAES128CTR key iv plain).length = plain.length := by
  rw [processAES128CTR_eq hkey, List.length_mapIdx]

/-- What is processed twice is as before. -/
theorem processAES128CTR_twice {key : Bytes} (hkey : key.length = 16) :
    P.processAES128CTR key iv (P.processAES128CTR key iv plain) = plain := by
  rw [processAES128CTR_eq hkey, processAES128CTR_eq hkey]
  apply List.ext_getElem
  · simp only [List.length_mapIdx]
  · intro i _ _
    simp only [List.getElem_mapIdx, UInt8.xor_assoc, UInt8.xor_self, UInt8.xor_zero]

theorem take_digest_length : ((P.digest z).take 16).length = 16 := by
  rw [List.length_take, digest_length]
  decide

theorem processAES128CTR_ne_nil {key : Bytes} (hkey : key.length = 16) (hplain : plain ≠ []) :
    P.processAES128CTR key iv plain ≠ [] := by
  rw [← List.length_pos_iff, processAES128CTR_length hkey]
  exact List.length_pos_of_ne_nil hplain

/-- What a message is made of. -/
theorem encryptECIES_eq (r : H256) (iv : BitVec 128) (_k : NodeID) (hplain : plain ≠ []) :
    P.encryptECIES r iv _k mac plain = 0x04 :: (bigEndian 64 (P.toPublic r).toNat ++
      P.contents ((P.agree r _k).getD 0) (bigEndian 16 iv.toNat) mac plain) := by
  obtain ⟨hekey, hmkey⟩ := keys_kdf (P := P) (z := (P.agree r _k).getD 0) (.inl rfl)
  rw [encryptECIES, mKey, hekey, hmkey]
  dsimp only
  rw [if_neg (processAES128CTR_ne_nil take_digest_length hplain), contents]
  simp only [List.append_assoc]

/-- A message of the parts that `decryptECIES` cuts it into. -/
theorem decryptECIES_parts (_k : H256) {b : UInt8} {pub text tag : Bytes} (hpub : pub.length = 64)
    (hiv : iv.length = 16) (htext : text ≠ []) (htag : tag.length = 32) :
    P.decryptECIES _k mac (b :: (pub ++ (iv ++ (text ++ tag)))) =
      if b.toNat < 2 ∨ 4 < b.toNat then none
      else (P.agree _k (hashOfBytes 64 pub)).bind fun z =>
        if tag = bigEndian 32 (P.hmac (bigEndian 32 (P.sha256 ((P.digest z).drop 16)).toNat)
            (iv ++ text ++ mac)).toNat then
          some (P.processAES128CTR ((P.digest z).take 16) iv text)
        else none := by
  have htext' := List.length_pos_of_ne_nil htext
  set io := b :: (pub ++ (iv ++ (text ++ tag))) with hio
  have hlength : io.length = 1 + 64 + 16 + text.length + 32 := by
    simp only [hio, List.length_cons, List.length_append]
    omega
  have hcipher : io.length - 1 - 64 - 16 - 32 = text.length := by omega
  have hkey : RLP.cropped io 1 64 = pub := by
    rw [RLP.cropped, if_pos (by omega), hio, List.drop_one, List.tail_cons, List.take_left' hpub]
  have hrest : io.drop (1 + 64) = iv ++ (text ++ tag) := by
    rw [hio, ← List.drop_drop, List.drop_one, List.tail_cons, List.drop_left' hpub]
  have hwithIV : RLP.cropped io (1 + 64) (16 + text.length) = iv ++ text := by
    rw [RLP.cropped, if_pos (by omega), hrest, ← List.append_assoc, List.take_left']
    rw [List.length_append, hiv]
  have hIV : RLP.cropped (iv ++ text) 0 16 = iv := by
    rw [RLP.cropped, if_pos (by rw [List.length_append]; omega), List.drop_zero, List.take_left' hiv]
  have hnoIV : RLP.cropped (iv ++ text) 16 text.length = text := by
    rw [RLP.cropped, if_pos (by rw [List.length_append]; omega), List.drop_left' hiv, List.take_length]
  have hmac : (io.drop (1 + 64 + 16 + text.length)).take 32 = tag := by
    rw [Nat.add_assoc (1 + 64), ← List.drop_drop, hrest, ← List.append_assoc, List.drop_left',
      List.take_of_length_le htag.le]
    rw [List.length_append, hiv]
  have hhead : io.getD 0 0 = b := rfl
  have hkeys (z : H256) : P.mKey (P.kdf z [] 64) =
      bigEndian 32 (P.sha256 ((P.digest z).drop 16)).toNat := by
    rw [mKey, (keys_kdf (.inr rfl)).2]
  have hekey (z : H256) : RLP.cropped (P.kdf z [] 64) 0 16 = (P.digest z).take 16 :=
    (keys_kdf (.inr rfl)).1
  have hne : io ≠ [] := List.cons_ne_nil _ _
  rw [decryptECIES, if_neg (show ¬io.length < _ by omega), hcipher, hkey, hhead]
  simp only [hwithIV, hIV, hnoIV, hmac, hkeys, hekey, hne, false_or, eq_comm, Option.bind_eq_bind]
  rfl

theorem decryptECIES_of_short {_k : H256} {io : Bytes} (h : io.length < 114) :
    P.decryptECIES _k mac io = none := by
  rw [decryptECIES, if_pos (show io.length < _ from h), ite_self]

/-- A message is accepted if and only if it is a byte from 2 to 4, a public key, and a text for
the secret that the two keys have in common with a start value before it and its tag behind it,
and what is returned is that text. -/
theorem decryptECIES_eq_some (_k : H256) (mac io plain : Bytes) :
    P.decryptECIES _k mac io = some plain ↔
      plain ≠ [] ∧ ∃ (b : UInt8) (pub : NodeID) (iv : BitVec 128) (z : H256),
        2 ≤ b.toNat ∧ b.toNat ≤ 4 ∧ P.agree _k pub = some z ∧
          io = b :: (bigEndian 64 pub.toNat ++ P.contents z (bigEndian 16 iv.toNat) mac plain) := by
  constructor
  · intro h
    by_cases hshort : io.length < 114
    · rw [decryptECIES_of_short hshort] at h
      cases h
    obtain ⟨b, rest, rfl⟩ : ∃ b rest, io = b :: rest := by
      cases io with
      | nil => simp at hshort
      | cons b rest => exact ⟨b, rest, rfl⟩
    obtain ⟨pub, iv, text, tag, rfl, hpub, hiv, htext, htag⟩ : ∃ pub iv text tag : Bytes,
        rest = pub ++ (iv ++ (text ++ tag)) ∧ pub.length = 64 ∧ iv.length = 16 ∧ text ≠ [] ∧
          tag.length = 32 := by
      rw [List.length_cons] at hshort
      refine ⟨rest.take 64, (rest.drop 64).take 16, (rest.drop 80).take (rest.length - 112),
        rest.drop (rest.length - 32), ?_, ?_, ?_, ?_, ?_⟩
      · have hlast : rest.drop (rest.length - 32) = (rest.drop 80).drop (rest.length - 112) := by
          rw [List.drop_drop]
          congr 1
          omega
        have hmiddle : rest.drop 80 = (rest.drop 64).drop 16 := by rw [List.drop_drop]
        rw [hlast, List.take_append_drop, hmiddle, List.take_append_drop, List.take_append_drop]
      · rw [List.length_take]
        omega
      · rw [List.length_take, List.length_drop]
        omega
      · rw [← List.length_pos_iff, List.length_take, List.length_drop]
        omega
      · rw [List.length_drop]
        omega
    rw [decryptECIES_parts _k hpub hiv htext htag] at h
    split at h
    · cases h
    · rename_i hb
      obtain ⟨z, hz, h⟩ := Option.bind_eq_some_iff.mp h
      split at h
      · rename_i htag'
        cases h
        refine ⟨processAES128CTR_ne_nil take_digest_length htext, b, hashOfBytes 64 pub,
          hashOfBytes 16 iv, z, by omega, by omega, hz, ?_⟩
        rw [contents, bigEndian_hashOfBytes hpub, bigEndian_hashOfBytes hiv,
          processAES128CTR_twice take_digest_length, ← htag']
      · cases h
  · rintro ⟨hplain, b, pub, iv, z, hlo, hhi, hz, rfl⟩
    have htext : P.processAES128CTR ((P.digest z).take 16) (bigEndian 16 iv.toNat) plain ≠ [] :=
      processAES128CTR_ne_nil take_digest_length hplain
    rw [contents, decryptECIES_parts _k (bigEndian_length _ _) (bigEndian_length _ _) htext
      (bigEndian_length _ _), if_neg (by omega), hashOfBytes_bigEndian, hz, Option.bind_some,
      if_pos rfl, processAES128CTR_twice take_digest_length]

/-- Functions to evaluate on. -/
def sample : Ecies where
  IsSecret _ := True
  toPublic secret := secret.setWidth 512
  agree secret pub := some (secret ^^^ pub.setWidth 256)
  sha256 bytes := bytes.foldl (fun n b => 31 * n + BitVec.ofNat 256 b.toNat) 7
  hmac key bytes := (key ++ bytes).foldl (fun n b => 37 * n + BitVec.ofNat 256 b.toNat) 5
  keystream key iv i := (key ++ iv).getD i 0
  agree_comm a b _ _ := by
    rw [BitVec.setWidth_setWidth_of_le _ (by decide), BitVec.setWidth_setWidth_of_le _ (by decide),
      BitVec.setWidth_eq, BitVec.setWidth_eq, BitVec.xor_comm]
  agree_isSome _ _ _ _ := rfl

/-- A message for the secret 5 from the secret 3, whose first byte is 2. -/
def sampleMessage : Bytes :=
  0x02 :: (bigEndian 64 (3 : NodeID).toNat ++
    sample.contents 6 (bigEndian 16 (1 : BitVec 128).toNat) [7] [0xaa, 0xbb])

/-- The theorem at this message. -/
theorem decryptECIES_eq_some_sample :
    sample.decryptECIES 5 [7] sampleMessage = some [0xaa, 0xbb] :=
  (decryptECIES_eq_some 5 [7] sampleMessage [0xaa, 0xbb]).mpr
    ⟨by decide, 0x02, 3, 1, 6, by decide, by decide, by decide +kernel, rfl⟩

/-! ## The functions of a handshake -/

/-- What is encrypted for a key pair is decrypted with its secret. -/
theorem decryptECIES_encryptECIES {r _k : H256} (iv : BitVec 128) (hr : P.IsSecret r)
    (hk : P.IsSecret _k) (hplain : plain ≠ []) :
    P.decryptECIES _k mac (P.encryptECIES r iv (P.toPublic _k) mac plain) = some plain := by
  obtain ⟨z, hz⟩ := Option.isSome_iff_exists.mp (P.agree_isSome r _k hr hk)
  have hz' := hz
  rw [P.agree_comm r _k hr hk] at hz'
  rw [encryptECIES_eq r iv _ hplain, hz, Option.getD_some]
  exact (decryptECIES_eq_some _ _ _ _).mpr
    ⟨hplain, 0x04, P.toPublic r, iv, z, by decide, by decide, hz', rfl⟩

theorem encryptECIES_length (r : H256) (iv : BitVec 128) (_k : NodeID) (hplain : plain ≠ []) :
    (P.encryptECIES r iv _k mac plain).length = plain.length + 113 := by
  rw [encryptECIES_eq r iv _k hplain, contents]
  simp only [List.length_cons, List.length_append, bigEndian_length,
    processAES128CTR_length (take_digest_length (P := P))]
  omega

variable (P) in
/-- The functions that a handshake uses, with the key pairs and the start values that they make. -/
def handshakeCiphers (C : Ciphers) (sign : H256 → H256 → Signature)
    (recover : Signature → H256 → NodeID)
    (recover_sign : ∀ secret hash, P.IsSecret secret →
      recover (sign secret hash) hash = P.toPublic secret)
    (ephemeral : ℕ → H256) (iv : ℕ → BitVec 128) (hephemeral : ∀ n, P.IsSecret (ephemeral n)) :
    HandshakeCiphers where
  toCiphers := { C with agree := P.agree }
  IsSecret := P.IsSecret
  toPublic := P.toPublic
  sign
  recover
  encryptECIES random := P.encryptECIES (ephemeral random) (iv random)
  decryptECIES := P.decryptECIES
  agree_comm := P.agree_comm
  recover_sign
  decrypt_encrypt random _ _ _ hsecret hplain :=
    decryptECIES_encryptECIES (iv random) (hephemeral random) hsecret hplain
  encrypt_length random _ _ _ _ hplain := encryptECIES_length (ephemeral random) (iv random) _ hplain

end Ecies

end CppSwc
