import Mathlib.Data.List.Induction
import Mathlib.Tactic.Ring
import CppSwc.Core.Rlp
import CppSwc.Lib.Framing

/-!
# The bytes of RLP items

`RLP` of libdevcore is a view of a byte string, and reads it as it goes: a list is
cut into items only when somebody asks for one, and the bytes inside an item that
nobody opens can be anything.  `Core.Rlp` has the trees that such bytes stand for.
Here are the bytes, where the question is which bytes an object was read from.

An object is its bytes, `m_data`.  The functions are the members of `RLP` of the
same name, and `none` is an exception.  A `size_t` has 64 bits.

The checks of `requireGood` and `length` leave one way to write an item
(`exists_append_of_sizeAsEncoded`), so that an item read from a sequence is what
`RLPStream` writes for its payload.
-/

namespace CppSwc

open Lib

/-! ## Big-endian numbers of a given size -/

/-- Writing what was read from bytes gives the bytes. -/
theorem pushInt_fromBigEndian (bs tail : Bytes) :
    pushInt bs.length (fromBigEndian bs) tail = bs ++ tail := by
  induction bs using List.reverseRecOn generalizing tail with
  | nil => rfl
  | append_singleton bs b ih =>
      have hread : fromBigEndian (bs ++ [b]) = fromBigEndian bs * 256 + b.toNat := by
        simp [fromBigEndian]
      have hb : b.toNat < 256 := b.toNat_lt
      have hquot : (fromBigEndian bs * 256 + b.toNat) / 256 = fromBigEndian bs := by omega
      have hrem : (fromBigEndian bs * 256 + b.toNat) % 256 = b.toNat := by omega
      rw [List.length_append, List.length_singleton, pushInt, hread, hquot, hrem, ih,
        UInt8.ofNat_toNat]
      simp

theorem bigEndian_fromBigEndian (bs : Bytes) : bigEndian bs.length (fromBigEndian bs) = bs := by
  simpa [bigEndian] using pushInt_fromBigEndian bs []

/-- Reading goes on from what was read. -/
theorem foldl_eq_fromBigEndian (bs : Bytes) (acc : Nat) :
    bs.foldl (fun acc b => acc * 256 + b.toNat) acc =
      acc * 256 ^ bs.length + fromBigEndian bs := by
  induction bs generalizing acc with
  | nil => simp [fromBigEndian]
  | cons b bs ih =>
      have hread : fromBigEndian (b :: bs) = (0 * 256 + b.toNat) * 256 ^ bs.length +
          fromBigEndian bs := ih (0 * 256 + b.toNat)
      rw [List.foldl_cons, ih, hread, List.length_cons, Nat.pow_succ]
      ring

theorem fromBigEndian_cons (b : UInt8) (bs : Bytes) :
    fromBigEndian (b :: bs) = b.toNat * 256 ^ bs.length + fromBigEndian bs := by
  rw [fromBigEndian, List.foldl_cons, foldl_eq_fromBigEndian]
  simp

theorem fromBigEndian_lt (bs : Bytes) : fromBigEndian bs < 256 ^ bs.length := by
  induction bs with
  | nil => simp [fromBigEndian]
  | cons b bs ih =>
      have hb : b.toNat + 1 ≤ 256 := b.toNat_lt
      calc fromBigEndian (b :: bs)
          = b.toNat * 256 ^ bs.length + fromBigEndian bs := fromBigEndian_cons b bs
        _ < b.toNat * 256 ^ bs.length + 256 ^ bs.length := by omega
        _ = (b.toNat + 1) * 256 ^ bs.length := by ring
        _ ≤ 256 * 256 ^ bs.length := Nat.mul_le_mul_right _ hb
        _ = 256 ^ (b :: bs).length := by rw [List.length_cons, Nat.pow_succ, Nat.mul_comm]

namespace Rlp

/-- The number of bytes of a number from the bounds on it. -/
theorem bytesRequired_eq {n k : Nat} (hlo : 256 ^ k ≤ n) (hhi : n < 256 ^ (k + 1)) :
    bytesRequired n = k + 1 := by
  have hne : n ≠ 0 := by
    have := Nat.pow_pos (n := k) (show 0 < 256 by decide)
    omega
  have hlow : 8 * k ≤ Nat.log2 n := by
    rw [Nat.le_log2 hne, Nat.pow_mul]
    exact hlo
  have hhigh : Nat.log2 n < 8 * (k + 1) := by
    rw [Nat.log2_lt hne, Nat.pow_mul]
    exact hhi
  rw [bytesRequired, if_neg hne]
  omega

/-- A number written without leading zeros takes the bytes it needs. -/
theorem bytesRequired_fromBigEndian {bs : Bytes} (h : bs.head? ≠ some 0) :
    bytesRequired (fromBigEndian bs) = bs.length := by
  cases bs with
  | nil => rfl
  | cons b bs =>
      have hb : 1 ≤ b.toNat := by
        have hne : b ≠ 0 := by simpa using h
        have : b.toNat ≠ 0 := fun hzero => hne (UInt8.toNat_inj.mp hzero)
        omega
      apply bytesRequired_eq
      · calc 256 ^ bs.length = 1 * 256 ^ bs.length := (Nat.one_mul _).symm
          _ ≤ b.toNat * 256 ^ bs.length := Nat.mul_le_mul_right _ hb
          _ ≤ fromBigEndian (b :: bs) := by rw [fromBigEndian_cons]; omega
      · exact fromBigEndian_lt (b :: bs)

/-- The bytes a number needs do not start with zero. -/
theorem head_bigEndian_ne (n : Nat) : (bigEndian (bytesRequired n) n).head? ≠ some 0 := by
  intro hzero
  have hread := fromBigEndian_bigEndian _ _ (lt_pow_bytesRequired n)
  have hlength := bigEndian_length (bytesRequired n) n
  cases hbytes : bigEndian (bytesRequired n) n with
  | nil => simp [hbytes] at hzero
  | cons b bs =>
      have hb : b = 0 := by simpa [hbytes] using hzero
      rw [hbytes, hb] at hread hlength
      have hlt : n < 256 ^ bs.length := by
        rw [← hread, fromBigEndian_cons]
        simpa using fromBigEndian_lt bs
      have hne : n ≠ 0 := by
        rintro rfl
        simp [bytesRequired] at hlength
      have hlog : Nat.log2 n < 8 * bs.length := by
        rw [Nat.log2_lt hne, Nat.pow_mul]
        exact hlt
      rw [bytesRequired, if_neg hne, List.length_cons] at hlength
      omega

end Rlp

namespace RLP

/-! ## Reading -/

/-- Lengths from here on are refused, so that an offset can be added to one. -/
def maxLength : Nat := 2 ^ 64 - 1 - 0x100

/-- `requireGood`: not empty, and no byte below 0x80 behind a length byte. -/
def requireGood : Bytes → Bool
  | [] => false
  | [b] => b.toNat ≠ 0x81
  | b :: c :: _ => b.toNat ≠ 0x81 || 0x80 ≤ c.toNat

/-- The length that `lengthSize` bytes after the first one give. -/
def longLength (lengthSize : Nat) (rest : Bytes) : Option Nat :=
  if rest.length < lengthSize ∨ rest.head? = some 0 then none
  else
    let ret := fromBigEndian (rest.take lengthSize)
    if ret < 56 ∨ maxLength ≤ ret then none else some ret

/-- The branches of `length` for strings, which start at 0x80, and for lists,
which start at 0xc0. -/
def lengthFrom (start : Nat) (b : UInt8) (rest : Bytes) : Option Nat :=
  if b.toNat - start ≤ 55 then some (b.toNat - start)
  else longLength (b.toNat - start - 55) rest

/-- `length`. -/
def length : Bytes → Option Nat
  | [] => some 0
  | b :: rest =>
      if !requireGood (b :: rest) then none
      else if b.toNat < 0x80 then some 1
      else if b.toNat < 0xc0 then lengthFrom 0x80 b rest
      else lengthFrom 0xc0 b rest

/-- `payloadOffset`, with `lengthSize`. -/
def payloadOffset : Bytes → Nat
  | [] => 1
  | b :: _ =>
      if b.toNat < 0x80 then 0
      else if b.toNat < 0xc0 then 1 + (b.toNat - 0x80 - 55)
      else 1 + (b.toNat - 0xc0 - 55)

/-- `vector_ref::cropped`. -/
def cropped (d : Bytes) (start count : Nat) : Bytes :=
  if start + count ≤ d.length then (d.drop start).take count else []

/-- `payload`. -/
def payload (d : Bytes) : Option Bytes :=
  (length d).bind fun l => if d.length < l then none else some (cropped d (payloadOffset d) l)

/-- `isData`. -/
def isData : Bytes → Bool
  | [] => false
  | b :: _ => b.toNat < 0xc0

/-- `isList`. -/
def isList : Bytes → Bool
  | [] => false
  | b :: _ => 0xc0 ≤ b.toNat

theorem isList_eq_false_of_isData {d : Bytes} (h : isData d = true) : isList d = false := by
  cases d with
  | nil => rfl
  | cons b rest =>
      simp only [isData, decide_eq_true_eq] at h
      simp only [isList, decide_eq_false_iff_not]
      omega

/-- `actualSize`. -/
def actualSize : Bytes → Option Nat
  | [] => some 0
  | b :: rest =>
      if b.toNat < 0x80 then some 1
      else (length (b :: rest)).map (payloadOffset (b :: rest) + ·)

/-- The constructor with the flags `VeryStrict`. -/
def ofBytes (d : Bytes) : Option Bytes :=
  (actualSize d).bind fun k => if k = d.length then some d else none

/-- `sizeAsEncoded`. -/
def sizeAsEncoded (d : Bytes) : Option Nat :=
  (actualSize d).bind fun k => if k ≤ d.length then some k else none

/-! ## Writing -/

/-- The bytes `RLPStream` puts before a payload of `n` bytes. -/
def lengthPrefix (start n : Nat) : Bytes :=
  if n < 56 then [UInt8.ofNat (start + n)]
  else UInt8.ofNat (start + 55 + Rlp.bytesRequired n) :: bigEndian (Rlp.bytesRequired n) n

/-- `RLPStream::append` of a string. -/
def appendData (s : Bytes) : Bytes :=
  match s with
  | [b] => if b.toNat < 0x80 then [b] else lengthPrefix 0x80 1 ++ [b]
  | s => lengthPrefix 0x80 s.length ++ s

/-- `RLPStream::appendList`, from the items written one after the other. -/
def appendList (items : Bytes) : Bytes := lengthPrefix 0xc0 items.length ++ items

/-! ## One encoding of a length -/

theorem bytesRequired_le {n k : Nat} (h : n < 256 ^ k) : Rlp.bytesRequired n ≤ k := by
  rw [Rlp.bytesRequired]
  split
  · omega
  · rename_i hne
    have : Nat.log2 n < 8 * k := by
      rw [Nat.log2_lt hne, Nat.pow_mul]
      exact h
    omega

/-- A written length is read back. -/
theorem lengthPrefix_cons {start n : Nat} (hstart : start ≤ 0xc0) (hn : n < maxLength) :
    ∃ b t, lengthPrefix start n = b :: t ∧ start ≤ b.toNat ∧ b.toNat ≤ start + 63 ∧
      t.length = b.toNat - start - 55 ∧ ∀ rest, lengthFrom start b (t ++ rest) = some n := by
  simp only [lengthPrefix]
  split
  · rename_i hshort
    have hb : (UInt8.ofNat (start + n)).toNat = start + n := by
      rw [UInt8.toNat_ofNat']
      omega
    refine ⟨_, _, rfl, by omega, by omega, ?_, ?_⟩
    · simp only [List.length_nil]
      omega
    · intro rest
      rw [lengthFrom, hb, if_pos (by omega)]
      congr 1
      omega
  · rename_i hlong
    have hbytes : Rlp.bytesRequired n ≤ 8 := by
      apply bytesRequired_le
      simp only [maxLength] at hn
      omega
    have hpos : 0 < Rlp.bytesRequired n := by
      rw [Rlp.bytesRequired, if_neg (by omega)]
      omega
    have hb : (UInt8.ofNat (start + 55 + Rlp.bytesRequired n)).toNat =
        start + 55 + Rlp.bytesRequired n := by
      rw [UInt8.toNat_ofNat']
      omega
    refine ⟨_, _, rfl, by omega, by omega, ?_, ?_⟩
    · rw [bigEndian_length]
      omega
    · intro rest
      have hsize : start + 55 + Rlp.bytesRequired n - start - 55 = Rlp.bytesRequired n := by omega
      have hhead : ((bigEndian (Rlp.bytesRequired n) n) ++ rest).head? ≠ some 0 := by
        have := Rlp.head_bigEndian_ne n
        cases hcases : bigEndian (Rlp.bytesRequired n) n with
        | nil =>
            have := bigEndian_length (Rlp.bytesRequired n) n
            rw [hcases, List.length_nil] at this
            omega
        | cons c cs => simpa [hcases] using this
      have htake : (bigEndian (Rlp.bytesRequired n) n ++ rest).take (Rlp.bytesRequired n) =
          bigEndian (Rlp.bytesRequired n) n := by
        conv_lhs => rw [← bigEndian_length (Rlp.bytesRequired n) n]
        rw [bigEndian_length, List.take_append_of_le_length (by simp), List.take_of_length_le (by simp)]
      rw [lengthFrom, hb, if_neg (by omega), hsize, longLength, if_neg, htake,
        fromBigEndian_bigEndian _ _ (Rlp.lt_pow_bytesRequired n)]
      · exact if_neg (by omega)
      · rw [List.length_append, bigEndian_length]
        exact fun h => h.elim (by omega) hhead

/-- A length that is read was written so. -/
theorem exists_append_of_lengthFrom {start n : Nat} {b : UInt8} {l : Bytes}
    (hlo : start ≤ b.toNat) (hhi : b.toNat ≤ start + 63) (h : lengthFrom start b l = some n) :
    ∃ rest, b :: l = lengthPrefix start n ++ rest ∧
      (lengthPrefix start n).length = 1 + (b.toNat - start - 55) ∧ n < maxLength := by
  simp only [lengthFrom] at h
  split at h
  · rename_i hshort
    obtain rfl := Option.some.inj h
    have hb : UInt8.ofNat (start + (b.toNat - start)) = b := by
      rw [Nat.add_sub_cancel' hlo, UInt8.ofNat_toNat]
    refine ⟨l, ?_, ?_, ?_⟩
    · rw [lengthPrefix, if_pos (by omega), hb]
      rfl
    · rw [lengthPrefix, if_pos (by omega), List.length_singleton]
      omega
    · simp only [maxLength]
      omega
  · rename_i hlong
    simp only [longLength] at h
    split at h
    · simp at h
    · rename_i hcheck
      split at h
      · simp at h
      · rename_i hrange
        obtain rfl := Option.some.inj h
        simp only [not_or, Nat.not_lt, Nat.not_le] at hcheck hrange
        have hlength : (l.take (b.toNat - start - 55)).length = b.toNat - start - 55 := by
          rw [List.length_take]
          omega
        have hhead : (l.take (b.toNat - start - 55)).head? ≠ some 0 := by
          rw [List.head?_take, if_neg (by omega)]
          exact hcheck.2
        have hbytes := Rlp.bytesRequired_fromBigEndian hhead
        have hwritten : bigEndian (b.toNat - start - 55)
            (fromBigEndian (l.take (b.toNat - start - 55))) = l.take (b.toNat - start - 55) := by
          have := bigEndian_fromBigEndian (l.take (b.toNat - start - 55))
          rwa [hlength] at this
        have hb : UInt8.ofNat (start + 55 + (b.toNat - start - 55)) = b := by
          rw [show start + 55 + (b.toNat - start - 55) = b.toNat by omega, UInt8.ofNat_toNat]
        rw [hlength] at hbytes
        refine ⟨l.drop (b.toNat - start - 55), ?_, ?_, hrange.2⟩
        · rw [lengthPrefix, if_neg (by omega), hbytes, hb, hwritten, List.cons_append,
            List.take_append_drop]
        · rw [lengthPrefix, if_neg (by omega), hbytes, List.length_cons, bigEndian_length]
          omega

/-! ## One encoding of an item -/

/-- What is read off a written length.  A single byte behind the length of a
string has to be one that needs a length. -/
theorem read_lengthPrefix {start n : Nat} {l : Bytes} (hstart : start = 0x80 ∨ start = 0xc0)
    (hn : n < maxLength)
    (hgood : start = 0x80 → n = 1 → ∃ c t, l = c :: t ∧ 0x80 ≤ c.toNat) :
    ∃ b t, lengthPrefix start n ++ l = b :: t ∧ start ≤ b.toNat ∧ b.toNat ≤ start + 63 ∧
      requireGood (b :: t) = true ∧ length (b :: t) = some n ∧
      payloadOffset (b :: t) = (lengthPrefix start n).length := by
  obtain ⟨b, t, hlead, hlo, hhi, ht, hread⟩ :=
    lengthPrefix_cons (show start ≤ 0xc0 by omega) hn
  have hrg : requireGood (b :: (t ++ l)) = true := by
    by_cases hb : b.toNat = 0x81
    · -- the length of a string of one byte
      have hstart' : start = 0x80 := by
        rcases hstart with rfl | rfl
        · rfl
        · rw [hb] at hlo
          exact absurd hlo (by decide)
      have hone : n = 1 := by
        have := hread []
        rw [lengthFrom, hb, hstart', if_pos (by decide)] at this
        exact (Option.some.inj this).symm
      have hnil : t = [] := by
        rw [hb, hstart'] at ht
        exact List.length_eq_zero_iff.mp ht
      obtain ⟨c, t', rfl, hc⟩ := hgood hstart' hone
      simp [hnil, requireGood, hc]
    · cases htl : t ++ l with
      | nil => simp [requireGood, hb]
      | cons c t' => simp [requireGood, hb]
  refine ⟨b, t ++ l, by rw [hlead, List.cons_append], hlo, hhi, hrg, ?_, ?_⟩
  · simp only [length, hrg, Bool.not_true, Bool.false_eq_true, if_false]
    rcases hstart with rfl | rfl
    · rw [if_neg (by omega), if_pos (by omega), hread]
    · rw [if_neg (by omega), if_neg (by omega), hread]
  · rw [hlead, List.length_cons, ht]
    rcases hstart with rfl | rfl
    · rw [payloadOffset, if_neg (by omega), if_pos (by omega), Nat.add_comm]
    · rw [payloadOffset, if_neg (by omega), if_neg (by omega), Nat.add_comm]

/-- A string is a byte of its own or has its length before it. -/
theorem appendData_cases (s : Bytes) :
    (∃ b : UInt8, s = [b] ∧ b.toNat < 0x80 ∧ appendData s = [b]) ∨
      (appendData s = lengthPrefix 0x80 s.length ++ s ∧
        (s.length = 1 → ∃ c t, s = c :: t ∧ 0x80 ≤ c.toNat)) := by
  match s with
  | [] => exact .inr ⟨rfl, nofun⟩
  | [b] =>
      by_cases hb : b.toNat < 0x80
      · exact .inl ⟨b, rfl, hb, by simp [appendData, hb]⟩
      · exact .inr ⟨by simp [appendData, hb], fun _ => ⟨b, [], rfl, by omega⟩⟩
  | a :: b :: t => exact .inr ⟨rfl, by simp⟩

/-- Reading a written string. -/
theorem read_appendData {s : Bytes} (hs : s.length < maxLength) (rest : Bytes) :
    actualSize (appendData s ++ rest) = some (appendData s).length ∧
      requireGood (appendData s ++ rest) = true ∧ isData (appendData s ++ rest) = true ∧
      payload (appendData s ++ rest) = some s := by
  rcases appendData_cases s with ⟨b, rfl, hb, happend⟩ | ⟨happend, hone⟩
  · have hne : b.toNat ≠ 0x81 := by omega
    have hrg : requireGood (b :: rest) = true := by
      cases rest with
      | nil => simp [requireGood, hne]
      | cons c t => simp [requireGood, hne]
    rw [happend]
    refine ⟨by simp [actualSize, hb], hrg, ?_, ?_⟩
    · simp only [List.cons_append, isData]
      exact decide_eq_true (by omega)
    · simp [payload, length, hrg, hb, payloadOffset, cropped]
  · obtain ⟨b, t, hcons, hlo, hhi, hrg, hlength, hoffset⟩ :=
      read_lengthPrefix (l := s ++ rest) (.inl rfl) hs fun _ h => by
        obtain ⟨c, t, rfl, hc⟩ := hone h
        exact ⟨c, t ++ rest, rfl, hc⟩
    have hcons' : appendData s ++ rest = b :: t := by rw [happend, List.append_assoc, hcons]
    have htotal : (b :: t).length = (lengthPrefix 0x80 s.length).length + (s.length + rest.length) := by
      rw [← hcons, List.length_append, List.length_append]
    rw [hcons']
    refine ⟨?_, hrg, ?_, ?_⟩
    · rw [actualSize, if_neg (by omega), hlength, hoffset, happend, List.length_append]
      rfl
    · simp only [isData]
      exact decide_eq_true (by omega)
    · rw [payload, hlength, Option.bind_some, if_neg (by omega), hoffset, cropped,
        if_pos (by omega), ← hcons, List.drop_left, List.take_left]

/-- Reading a written list. -/
theorem read_appendList {s : Bytes} (hs : s.length < maxLength) (rest : Bytes) :
    actualSize (appendList s ++ rest) = some (appendList s).length ∧
      isList (appendList s ++ rest) = true ∧ payload (appendList s ++ rest) = some s := by
  obtain ⟨b, t, hcons, hlo, hhi, hrg, hlength, hoffset⟩ :=
    read_lengthPrefix (l := s ++ rest) (.inr rfl) hs nofun
  have hcons' : appendList s ++ rest = b :: t := by rw [appendList, List.append_assoc, hcons]
  have htotal : (b :: t).length = (lengthPrefix 0xc0 s.length).length + (s.length + rest.length) := by
    rw [← hcons, List.length_append, List.length_append]
  rw [hcons']
  refine ⟨?_, ?_, ?_⟩
  · rw [actualSize, if_neg (by omega), hlength, hoffset, appendList, List.length_append]
    rfl
  · simp only [isList]
    exact decide_eq_true (by omega)
  · rw [payload, hlength, Option.bind_some, if_neg (by omega), hoffset, cropped,
      if_pos (by omega), ← hcons, List.drop_left, List.take_left]

/-- **An item of a sequence is what is written for its payload.** -/
theorem exists_append_of_sizeAsEncoded {d : Bytes} {k : Nat} (hne : d ≠ [])
    (h : sizeAsEncoded d = some k) :
    ∃ s rest, s.length < maxLength ∧
      ((d = appendData s ++ rest ∧ k = (appendData s).length) ∨
        (d = appendList s ++ rest ∧ k = (appendList s).length)) := by
  cases d with
  | nil => exact absurd rfl hne
  | cons b l =>
      simp only [sizeAsEncoded, actualSize, Option.bind_eq_some_iff] at h
      obtain ⟨k', hsize, hfits⟩ := h
      split at hfits
      · rename_i hle
        obtain rfl := Option.some.inj hfits
        split at hsize
        · rename_i hsingle
          obtain rfl := Option.some.inj hsize
          refine ⟨[b], l, (show 1 < maxLength by decide), .inl ⟨?_, ?_⟩⟩
          · simp [appendData, hsingle]
          · simp [appendData, hsingle]
        · rename_i hbig
          simp only [Option.map_eq_some_iff] at hsize
          obtain ⟨n, hlength, rfl⟩ := hsize
          simp only [length, if_neg hbig] at hlength
          split at hlength
          · simp at hlength
          · rename_i hrg
            have hb := b.toNat_lt
            split at hlength
            · rename_i hdata
              obtain ⟨rest, heq, hoffset, hn⟩ :=
                exists_append_of_lengthFrom (by omega) (by omega) hlength
              rw [payloadOffset, if_neg hbig, if_pos hdata, ← hoffset, heq,
                List.length_append] at hle
              have hfit : n ≤ rest.length := by omega
              have htake : (rest.take n).length = n := by
                rw [List.length_take]
                omega
              have happend : appendData (rest.take n) = lengthPrefix 0x80 n ++ rest.take n := by
                rcases appendData_cases (rest.take n) with ⟨c, hc, hlt, -⟩ | ⟨happend, -⟩
                · -- `requireGood` refused this one
                  rw [hc, List.length_singleton] at htake
                  subst htake
                  obtain ⟨r, rest', rfl⟩ : ∃ r rest', rest = r :: rest' := by
                    cases rest with
                    | nil => simp at hfit
                    | cons r rest' => exact ⟨r, rest', rfl⟩
                  obtain rfl : r = c := by simpa using hc
                  have hlead : lengthPrefix 0x80 1 = [0x81] := rfl
                  rw [hlead] at heq
                  rw [heq] at hrg
                  simp [requireGood, hlt] at hrg
                · rw [happend, htake]
              refine ⟨rest.take n, rest.drop n, by omega, .inl ⟨?_, ?_⟩⟩
              · rw [happend, List.append_assoc, List.take_append_drop, heq]
              · rw [happend, List.length_append, htake, hoffset, payloadOffset, if_neg hbig,
                  if_pos hdata]
            · rename_i hlist
              obtain ⟨rest, heq, hoffset, hn⟩ :=
                exists_append_of_lengthFrom (by omega) (by omega) hlength
              rw [payloadOffset, if_neg hbig, if_neg hlist, ← hoffset, heq,
                List.length_append] at hle
              have htake : (rest.take n).length = n := by
                rw [List.length_take]
                omega
              refine ⟨rest.take n, rest.drop n, by omega, .inr ⟨?_, ?_⟩⟩
              · rw [appendList, htake, List.append_assoc, List.take_append_drop, heq]
              · rw [appendList, List.length_append, htake, hoffset, payloadOffset, if_neg hbig,
                  if_neg hlist]
      · simp at hfits

theorem appendData_ne_nil (s : Bytes) : appendData s ≠ [] := by
  intro hnil
  rcases appendData_cases s with ⟨b, -, -, happend⟩ | ⟨happend, -⟩
  · simp [happend] at hnil
  · rw [happend, lengthPrefix] at hnil
    split at hnil
    · simp at hnil
    · simp at hnil

theorem appendList_ne_nil (s : Bytes) : appendList s ≠ [] := by
  intro hnil
  rw [appendList, lengthPrefix] at hnil
  split at hnil
  · simp at hnil
  · simp at hnil

/-! ## Different payloads are written differently -/

theorem lengthPrefix_length_mono {start m n : Nat} (h : m ≤ n) :
    (lengthPrefix start m).length ≤ (lengthPrefix start n).length := by
  have hbytes : Rlp.bytesRequired m ≤ Rlp.bytesRequired n :=
    bytesRequired_le (Nat.lt_of_le_of_lt h (Rlp.lt_pow_bytesRequired n))
  simp only [lengthPrefix]
  split
  · split
    · simp
    · simp
  · rw [if_neg (by omega)]
    simpa using hbytes

/-- A payload is found behind its length. -/
theorem lengthPrefix_append_injective {start : Nat} {s t : Bytes}
    (h : lengthPrefix start s.length ++ s = lengthPrefix start t.length ++ t) : s = t := by
  have htotal := congrArg List.length h
  rw [List.length_append, List.length_append] at htotal
  have hlength : s.length = t.length := by
    rcases Nat.lt_trichotomy s.length t.length with hlt | heq | hgt
    · have : (lengthPrefix start s.length).length ≤ (lengthPrefix start t.length).length :=
        lengthPrefix_length_mono hlt.le
      omega
    · exact heq
    · have : (lengthPrefix start t.length).length ≤ (lengthPrefix start s.length).length :=
        lengthPrefix_length_mono hgt.le
      omega
  rw [hlength] at h
  exact List.append_cancel_left h

theorem appendList_injective {s t : Bytes} (h : appendList s = appendList t) : s = t :=
  lengthPrefix_append_injective h

/-- A byte of its own is not a length. -/
theorem ne_lengthPrefix_append {b : UInt8} (hb : b.toNat < 0x80) (s : Bytes) :
    [b] ≠ lengthPrefix 0x80 s.length ++ s := by
  intro heq
  have hlength := congrArg List.length heq
  rw [List.length_append, List.length_singleton, lengthPrefix] at hlength
  have hnil : s = [] := by
    split at hlength
    · exact List.length_eq_zero_iff.mp (by simp only [List.length_singleton] at hlength; omega)
    · simp only [List.length_cons] at hlength
      exact List.length_eq_zero_iff.mp (by omega)
  subst hnil
  obtain rfl : b = 0x80 := by simpa [lengthPrefix] using heq
  exact absurd hb (by decide)

theorem appendData_injective {s t : Bytes} (h : appendData s = appendData t) : s = t := by
  rcases appendData_cases s with ⟨b, rfl, hb, hs⟩ | ⟨hs, -⟩
  · rcases appendData_cases t with ⟨c, rfl, -, ht⟩ | ⟨ht, -⟩
    · rwa [hs, ht] at h
    · rw [hs, ht] at h
      exact absurd h (ne_lengthPrefix_append hb t)
  · rcases appendData_cases t with ⟨c, rfl, hc, ht⟩ | ⟨ht, -⟩
    · rw [hs, ht] at h
      exact absurd h.symm (ne_lengthPrefix_append hc s)
    · rw [hs, ht] at h
      exact lengthPrefix_append_injective h

/-! ## The items of a sequence -/

theorem sizeAsEncoded_append {x : Bytes} {rest : Bytes}
    (h : actualSize (x ++ rest) = some x.length) : sizeAsEncoded (x ++ rest) = some x.length := by
  rw [sizeAsEncoded, h, Option.bind_some, if_pos (by simp)]

/-- What `sizeAsEncoded` reads depends on the item alone. -/
theorem exists_item_of_sizeAsEncoded {d : Bytes} {k : Nat} (hne : d ≠ [])
    (h : sizeAsEncoded d = some k) :
    ∃ x rest, x ≠ [] ∧ d = x ++ rest ∧ k = x.length ∧
      ∀ rest', sizeAsEncoded (x ++ rest') = some x.length := by
  obtain ⟨s, rest, hs, ⟨rfl, rfl⟩ | ⟨rfl, rfl⟩⟩ := exists_append_of_sizeAsEncoded hne h
  · exact ⟨_, rest, appendData_ne_nil s, rfl, rfl,
      fun rest' => sizeAsEncoded_append (read_appendData hs rest').1⟩
  · exact ⟨_, rest, appendList_ne_nil s, rfl, rfl,
      fun rest' => sizeAsEncoded_append (read_appendList hs rest').1⟩

/-- RLP items follow each other without a separator. -/
def framing : Framing UInt8 where
  size := sizeAsEncoded
  size_nil := rfl
  size_pos hne h := by
    obtain ⟨x, rest, hx, -, rfl, -⟩ := exists_item_of_sizeAsEncoded hne h
    exact List.length_pos_of_ne_nil hx
  size_le h := by
    simp only [sizeAsEncoded, Option.bind_eq_some_iff] at h
    obtain ⟨k', -, hfits⟩ := h
    split at hfits
    · rename_i hle
      exact Option.some.inj hfits ▸ hle
    · simp at hfits
  size_take rest' hne h := by
    obtain ⟨x, rest, -, rfl, rfl, hread⟩ := exists_item_of_sizeAsEncoded hne h
    rw [List.take_left]
    exact hread rest'

theorem whole_appendData {s : Bytes} (hs : s.length < maxLength) : framing.Whole (appendData s) :=
  ⟨appendData_ne_nil s, fun rest => sizeAsEncoded_append (read_appendData hs rest).1⟩

theorem whole_appendList {s : Bytes} (hs : s.length < maxLength) : framing.Whole (appendList s) :=
  ⟨appendList_ne_nil s, fun rest => sizeAsEncoded_append (read_appendList hs rest).1⟩

/-- **An item is what is written for its payload.** -/
theorem eq_append_of_whole {x : Bytes} (h : framing.Whole x) :
    ∃ s, s.length < maxLength ∧ (x = appendData s ∨ x = appendList s) := by
  have hsize : framing.size x = some x.length := by simpa using h.size_append []
  obtain ⟨s, rest, hs, ⟨heq, hlen⟩ | ⟨heq, hlen⟩⟩ := exists_append_of_sizeAsEncoded h.ne_nil hsize
  · have hnil : rest = [] := by
      rw [heq, List.length_append] at hlen
      exact List.length_eq_zero_iff.mp (by omega)
    exact ⟨s, hs, .inl (by rw [heq, hnil, List.append_nil])⟩
  · have hnil : rest = [] := by
      rw [heq, List.length_append] at hlen
      exact List.length_eq_zero_iff.mp (by omega)
    exact ⟨s, hs, .inr (by rw [heq, hnil, List.append_nil])⟩

/-! ## Items and conversions -/

/-- The items of a list, none for another object.  `itemCount` is their number
and `begin` to `end` runs through them. -/
def items (d : Bytes) : Option (List Bytes) :=
  if isList d then (payload d).bind framing.split else some []

/-- `operator[]` of a fresh object.  It does not ask for a list. -/
def item (d : Bytes) (i : Nat) : Option Bytes := (payload d).bind (framing.nth i)

/-- `toBytes` with its default flags. -/
def toBytes (d : Bytes) : Option Bytes := if isData d then payload d else some []

/-- `isInt`.  An index past the end throws, which `toInt` makes no different. -/
def isInt : Bytes → Bool
  | [] => false
  | b :: rest =>
      if b.toNat < 0x80 then b.toNat ≠ 0
      else if b.toNat = 0x80 then true
      else if b.toNat < 0xc0 then
        ((b :: rest).getD (payloadOffset (b :: rest)) 0).toNat ≠ 0
      else false

/-- `toInt` with the flags `Strict`, for a type of `size` bytes. -/
def toInt (size : Nat) (d : Bytes) : Option Nat :=
  if !requireGood d || !isInt d then none
  else (payload d).bind fun p => if size < p.length then none else some (fromBigEndian p)

/-- `toPositiveInt64`. -/
def toPositiveInt64 (d : Bytes) : Option Nat := (toInt 8 d).filter (· < 2 ^ 63)

/-- `toHash` with the flags `VeryStrict`. -/
def toHash (size : Nat) (d : Bytes) : Option (BitVec (8 * size)) :=
  if !requireGood d then none
  else (payload d).bind fun p =>
    if !isData d || p.length ≠ size then none else some (BitVec.ofNat _ (fromBigEndian p))

/-- `toHash` with the flags `LaissezFaire`. -/
def toHashLax (size : Nat) (d : Bytes) : Option (BitVec (8 * size)) :=
  if !requireGood d then none
  else (payload d).map fun p =>
    if isData d then BitVec.ofNat _ (fromBigEndian (p.take size)) else 0

/-- `RLPStream::append` of a hash of `size` bytes. -/
def appendHash (size : Nat) (h : BitVec (8 * size)) : Bytes := appendData (bigEndian size h.toNat)

/-- `RLPStream::append` of a number of fewer than 56 bytes. -/
def appendInt (n : Nat) : Bytes := appendData (bigEndian (Rlp.bytesRequired n) n)

theorem appendHash_injective {size : Nat} {h h' : BitVec (8 * size)}
    (heq : appendHash size h = appendHash size h') : h = h' := by
  have hlt (x : BitVec (8 * size)) : x.toNat < 256 ^ size := by
    have := x.isLt
    rwa [Nat.pow_mul] at this
  have hread := congrArg fromBigEndian (appendData_injective heq)
  rw [fromBigEndian_bigEndian _ _ (hlt h), fromBigEndian_bigEndian _ _ (hlt h')] at hread
  exact BitVec.eq_of_toNat_eq hread

theorem appendInt_injective {m n : Nat} (heq : appendInt m = appendInt n) : m = n := by
  have hread := congrArg fromBigEndian (appendData_injective heq)
  rwa [fromBigEndian_bigEndian _ _ (Rlp.lt_pow_bytesRequired m),
    fromBigEndian_bigEndian _ _ (Rlp.lt_pow_bytesRequired n)] at hread

section Strings

variable {s : Bytes} (hs : s.length < maxLength)
include hs

theorem isData_appendData : isData (appendData s) = true := by
  simpa using (read_appendData hs []).2.2.1

theorem toBytes_appendData : toBytes (appendData s) = some s := by
  obtain ⟨-, -, hdata, hpayload⟩ := read_appendData hs []
  rw [List.append_nil] at hdata hpayload
  rw [toBytes, if_pos hdata, hpayload]

theorem toHash_appendData (size : Nat) :
    toHash size (appendData s) =
      if s.length = size then some (BitVec.ofNat _ (fromBigEndian s)) else none := by
  obtain ⟨-, hgood, hdata, hpayload⟩ := read_appendData hs []
  rw [List.append_nil] at hgood hdata hpayload
  simp [toHash, hgood, hdata, hpayload]

theorem isInt_appendData : isInt (appendData s) = decide (s.head? ≠ some 0) := by
  rcases appendData_cases s with ⟨b, rfl, hb, happend⟩ | ⟨happend, hone⟩
  · simp [happend, isInt, hb, ← UInt8.toNat_inj]
  · obtain ⟨b, t, hcons, hlo, hhi, -, hlength, hoffset⟩ :=
      read_lengthPrefix (l := s) (.inl rfl) hs fun _ h => hone h
    rw [happend, hcons]
    rw [isInt, if_neg (by omega)]
    split
    · -- the empty string
      rename_i hempty
      have hzero : lengthFrom 0x80 b t = some 0 := by
        rw [lengthFrom, hempty]
        rfl
      have hnil : s = [] := by
        simp only [length] at hlength
        split at hlength
        · simp at hlength
        · rw [if_neg (by omega), if_pos (by omega), hzero] at hlength
          exact List.length_eq_zero_iff.mp (Option.some.inj hlength).symm
      simp [hnil]
    · rename_i hne
      rw [if_pos (by omega), hoffset, ← hcons]
      cases s with
      | nil =>
          exfalso
          apply hne
          have hlead : lengthPrefix 0x80 ([] : Bytes).length = [0x80] := rfl
          rw [hlead] at hcons
          obtain ⟨rfl, -⟩ : (0x80 : UInt8) = b ∧ _ := by simpa using hcons
          rfl
      | cons c cs => simp [List.getD_eq_getElem?_getD, ← UInt8.toNat_inj]

theorem toInt_appendData (size : Nat) :
    toInt size (appendData s) =
      if s.head? = some 0 ∨ size < s.length then none else some (fromBigEndian s) := by
  obtain ⟨-, hgood, -, hpayload⟩ := read_appendData hs []
  rw [List.append_nil] at hgood hpayload
  simp only [toInt, hgood, isInt_appendData hs, hpayload, Option.bind_some]
  by_cases hzero : s.head? = some 0
  · simp [hzero]
  · simp [hzero]

end Strings

section Lists

variable {s : Bytes} (hs : s.length < maxLength)
include hs

theorem isList_appendList : isList (appendList s) = true := by
  simpa using (read_appendList hs []).2.1

theorem isData_appendList : isData (appendList s) = false := by
  rw [← Bool.not_eq_true]
  intro hdata
  simpa [isList_appendList hs] using isList_eq_false_of_isData hdata

theorem payload_appendList : payload (appendList s) = some s := by
  simpa using (read_appendList hs []).2.2

theorem toBytes_appendList : toBytes (appendList s) = some [] := by
  simp [toBytes, isData_appendList hs]

theorem toHash_appendList (size : Nat) : toHash size (appendList s) = none := by
  simp [toHash, payload_appendList hs, isData_appendList hs]

theorem toInt_appendList (size : Nat) : toInt size (appendList s) = none := by
  have hlist := isList_appendList hs
  have hnot : isInt (appendList s) = false := by
    cases h : appendList s with
    | nil => rfl
    | cons b t =>
        rw [h] at hlist
        simp only [isList, decide_eq_true_eq] at hlist
        rw [isInt, if_neg (by omega), if_neg (by omega), if_neg (by omega)]
  simp [toInt, hnot]

/-- A written list has the items that were written. -/
theorem items_appendList {xs : List Bytes} (hxs : framing.split s = some xs) :
    items (appendList s) = some xs := by
  rw [items, if_pos (isList_appendList hs), payload_appendList hs, Option.bind_some, hxs]

theorem item_appendList {xs : List Bytes} (hxs : framing.split s = some xs) (i : Nat) :
    item (appendList s) i = some (xs.getD i []) := by
  rw [item, payload_appendList hs, Option.bind_some, Framing.nth_of_split hxs]

end Lists

/-- The first item of an object is what is written for its payload. -/
theorem whole_of_item_zero {d x : Bytes} (h : item d 0 = some x) : x = [] ∨ framing.Whole x := by
  simp only [item, Framing.nth, Option.bind_eq_some_iff, Option.map_eq_some_iff] at h
  obtain ⟨p, -, k, hsize, rfl⟩ := h
  by_cases hne : p = []
  · exact .inl (by simp [hne])
  · exact .inr (Framing.whole_take hne hsize)

/-- A list that is an item is what is written for its payload. -/
theorem eq_appendList_of_isList {x : Bytes} (hx : framing.Whole x) (h : isList x = true) :
    ∃ s, s.length < maxLength ∧ x = appendList s := by
  obtain ⟨s, hs, rfl | rfl⟩ := eq_append_of_whole hx
  · simp [isList_eq_false_of_isData (isData_appendData hs)] at h
  · exact ⟨s, hs, rfl⟩

/-- A hash is read from the bytes that are written for it. -/
theorem eq_appendHash_of_toHash {size : Nat} {x : Bytes} {h : BitVec (8 * size)}
    (hx : x = [] ∨ framing.Whole x) (hread : toHash size x = some h) : x = appendHash size h := by
  rcases hx with rfl | hx
  · simp [toHash, requireGood] at hread
  · obtain ⟨s, hs, rfl | rfl⟩ := eq_append_of_whole hx
    · rw [toHash_appendData hs] at hread
      split at hread
      · rename_i hlen
        obtain rfl := Option.some.inj hread
        have hlt : fromBigEndian s < 2 ^ (8 * size) := by
          have := fromBigEndian_lt s
          rwa [hlen, show 256 = 2 ^ 8 from rfl, ← Nat.pow_mul] at this
        rw [appendHash, BitVec.toNat_ofNat, Nat.mod_eq_of_lt hlt, ← hlen, bigEndian_fromBigEndian]
      · simp at hread
    · simp [toHash_appendList hs] at hread

/-- So is a number. -/
theorem eq_appendInt_of_toInt {size n : Nat} {x : Bytes} (hx : x = [] ∨ framing.Whole x)
    (hread : toInt size x = some n) : x = appendInt n := by
  rcases hx with rfl | hx
  · simp [toInt, requireGood] at hread
  · obtain ⟨s, hs, rfl | rfl⟩ := eq_append_of_whole hx
    · rw [toInt_appendData hs] at hread
      split at hread
      · simp at hread
      · rename_i hcheck
        simp only [not_or] at hcheck
        obtain rfl := Option.some.inj hread
        rw [appendInt, Rlp.bytesRequired_fromBigEndian hcheck.1, bigEndian_fromBigEndian]
    · simp [toInt_appendList hs] at hread

theorem eq_appendInt_of_toPositiveInt64 {n : Nat} {x : Bytes} (hx : x = [] ∨ framing.Whole x)
    (hread : toPositiveInt64 x = some n) : x = appendInt n := by
  simp only [toPositiveInt64, Option.filter_eq_some_iff] at hread
  exact eq_appendInt_of_toInt hx hread.1

end RLP

end CppSwc
