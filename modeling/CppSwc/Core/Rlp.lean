import Mathlib.Algebra.Group.Nat.Defs
import Mathlib.Tactic.Common

/-!
# RLP items

`RLP` of libdevcore reads a byte string as a tree of byte strings and lists, and
`RLPStream` writes one.  The protocol code never looks at the bytes themselves:
it indexes, converts and rebuilds items.  So an item is modelled as the tree, and
the conversions are those of `RLP.h` with the flags the callers pass.

* `Rlp.null` is the empty byte string, which `RLP::isNull` tells from the encoded
  empty string `Rlp.data []`.  It is what an index past the end gives.
* `RLP::operator[]` on a string parses the string's payload as a sequence of
  items.  That parser is the argument `payload`.
* A conversion that throws is `none`.
-/

namespace CppSwc

/-- A byte string, `dev::bytes`. -/
abbrev Bytes := List UInt8

/-- `h256`. -/
abbrev H256 := BitVec 256

/-- `h512`, the public key that names a node. -/
abbrev NodeID := BitVec 512

/-- `h520`, a recoverable signature. -/
abbrev Signature := BitVec 520

/-- An RLP item. -/
inductive Rlp where
  | null
  | data (bytes : Bytes)
  | list (items : List Rlp)
deriving Inhabited

mutual

/-- Items are compared structurally. -/
def Rlp.decEq : (a b : Rlp) → Decidable (a = b)
  | .null, .null => .isTrue rfl
  | .data xs, .data ys => decidable_of_iff (xs = ys) (by simp)
  | .list xs, .list ys =>
      match Rlp.decEqItems xs ys with
      | .isTrue h => .isTrue (by rw [h])
      | .isFalse h => .isFalse (by simpa using h)
  | .null, .data _ => .isFalse nofun
  | .null, .list _ => .isFalse nofun
  | .data _, .null => .isFalse nofun
  | .data _, .list _ => .isFalse nofun
  | .list _, .null => .isFalse nofun
  | .list _, .data _ => .isFalse nofun

/-- So are sequences of items. -/
def Rlp.decEqItems : (xs ys : List Rlp) → Decidable (xs = ys)
  | [], [] => .isTrue rfl
  | x :: xs, y :: ys =>
      match Rlp.decEq x y, Rlp.decEqItems xs ys with
      | .isTrue h, .isTrue h' => .isTrue (by rw [h, h'])
      | .isFalse h, _ => .isFalse (by simp [h])
      | _, .isFalse h => .isFalse (by simp [h])
  | [], _ :: _ => .isFalse nofun
  | _ :: _, [] => .isFalse nofun

end

instance : DecidableEq Rlp := Rlp.decEq

/-! ## Big-endian numbers -/

/-- `fromBigEndian`. -/
def fromBigEndian (bytes : Bytes) : Nat :=
  bytes.foldl (fun acc b => acc * 256 + b.toNat) 0

/-- Puts the `n` low bytes of a number in front of `tail`, most significant first. -/
def pushInt : Nat → Nat → Bytes → Bytes
  | 0, _, tail => tail
  | n + 1, x, tail => pushInt n (x / 256) (UInt8.ofNat (x % 256) :: tail)

/-- The `n` low bytes of a number, most significant first. -/
def bigEndian (n x : Nat) : Bytes := pushInt n x []

theorem pushInt_length (n x : Nat) (tail : Bytes) :
    (pushInt n x tail).length = n + tail.length := by
  induction n generalizing x tail with
  | zero => simp [pushInt]
  | succ n ih =>
      rw [pushInt, ih, List.length_cons]
      omega

@[simp] theorem bigEndian_length (n x : Nat) : (bigEndian n x).length = n := by
  simp [bigEndian, pushInt_length]

/-- Reading continues after the bytes of a number below `256 ^ n` with the number. -/
theorem foldl_pushInt (n x : Nat) (tail : Bytes) (h : x < 256 ^ n) :
    (pushInt n x tail).foldl (fun acc b => acc * 256 + b.toNat) 0 =
      tail.foldl (fun acc b => acc * 256 + b.toNat) x := by
  induction n generalizing x tail with
  | zero =>
      have hx : x = 0 := by simpa using h
      rw [pushInt, hx]
  | succ n ih =>
      have hq : x / 256 < 256 ^ n := by
        rw [Nat.div_lt_iff_lt_mul (by decide)]
        simpa [Nat.pow_succ] using h
      have hb : x / 256 * 256 + (UInt8.ofNat (x % 256)).toNat = x := by
        simp only [UInt8.toNat_ofNat']
        omega
      rw [pushInt, ih _ _ hq, List.foldl_cons, hb]

/-- Reading back the `n` low bytes of a number below `256 ^ n` gives the number. -/
theorem fromBigEndian_bigEndian (n x : Nat) (h : x < 256 ^ n) :
    fromBigEndian (bigEndian n x) = x :=
  foldl_pushInt n x [] h

namespace Rlp

/-! ## Reading -/

/-- `RLP::isNull`. -/
def isNull : Rlp → Bool
  | .null => true
  | _ => false

/-- `RLP::isList`. -/
def isList : Rlp → Bool
  | .list _ => true
  | _ => false

/-- The items of a list, none for another item. -/
def items : Rlp → List Rlp
  | .list xs => xs
  | _ => []

/-- `RLP::itemCount`. -/
def itemCount (r : Rlp) : Nat := r.items.length

/-- `RLP::operator[]`. -/
def item (payload : Bytes → List Rlp) : Rlp → Nat → Rlp
  | .list xs, i => xs.getD i .null
  | .data bs, i => (payload bs).getD i .null
  | .null, _ => .null

@[simp] theorem item_list (payload : Bytes → List Rlp) (xs : List Rlp) (i : Nat) :
    (list xs).item payload i = xs.getD i .null := rfl

@[simp] theorem isList_list (xs : List Rlp) : (list xs).isList = true := rfl

/-- `RLP::toBytes` with its default flags. -/
def toBytes : Rlp → Bytes
  | .data bs => bs
  | _ => []

/-- `RLP::toInt` with the flags `Strict`, for a type of `size` bytes.  The
payload has no leading zero and fits the type. -/
def toInt (size : Nat) : Rlp → Option Nat
  | .data bs =>
      if bs.head? = some 0 ∨ size < bs.length then none else some (fromBigEndian bs)
  | _ => none

/-- `RLP::toPositiveInt64`. -/
def toPositiveInt64 (r : Rlp) : Option Nat :=
  (r.toInt 8).filter (· < 2 ^ 63)

/-- `RLP::toHash` with the flags `VeryStrict`: a string of exactly `size` bytes. -/
def toHash (size : Nat) : Rlp → Option (BitVec (8 * size))
  | .data bs => if bs.length = size then some (BitVec.ofNat _ (fromBigEndian bs)) else none
  | _ => none

/-- `RLP::toHash` with the flags `LaissezFaire`: a longer string is cut and a
shorter one is filled with zeros on the left. -/
def toHashLax (size : Nat) : Rlp → BitVec (8 * size)
  | .data bs => BitVec.ofNat _ (fromBigEndian (bs.take size))
  | _ => 0

/-! ## Writing -/

/-- `RLPStream::append` of a hash of `size` bytes. -/
def ofHash (size : Nat) (h : BitVec (8 * size)) : Rlp := .data (bigEndian size h.toNat)

/-- The number of bytes of a number, `bytesRequired`. -/
def bytesRequired (n : Nat) : Nat := if n = 0 then 0 else Nat.log2 n / 8 + 1

/-- `RLPStream::append` of a number. -/
def ofInt (n : Nat) : Rlp := .data (bigEndian (bytesRequired n) n)

theorem lt_pow_bytesRequired (n : Nat) : n < 256 ^ bytesRequired n := by
  simp only [bytesRequired]
  split
  · rename_i hzero
    simp [hzero]
  · have hlog : n < 2 ^ (n.log2 + 1) := Nat.lt_log2_self
    have hbytes : (2 : Nat) ^ (n.log2 + 1) ≤ 2 ^ (8 * (n.log2 / 8 + 1)) :=
      Nat.pow_le_pow_right (by decide) (by omega)
    rw [Nat.pow_mul] at hbytes
    exact Nat.lt_of_lt_of_le hlog hbytes

/-- Numbers with the same encoding are equal. -/
theorem ofInt_injective {m n : Nat} (h : ofInt m = ofInt n) : m = n := by
  simp only [ofInt, data.injEq] at h
  have hread := congrArg fromBigEndian h
  rwa [fromBigEndian_bigEndian _ _ (lt_pow_bytesRequired m),
    fromBigEndian_bigEndian _ _ (lt_pow_bytesRequired n)] at hread

/-- A written hash reads back. -/
@[simp] theorem toHashLax_ofHash (size : Nat) (h : BitVec (8 * size)) :
    (ofHash size h).toHashLax size = h := by
  have hlt : h.toNat < 256 ^ size := by
    have := h.isLt
    rwa [Nat.pow_mul] at this
  have htake : (bigEndian size h.toNat).take size = bigEndian size h.toNat := by
    rw [List.take_of_length_le (by simp)]
  simp [ofHash, toHashLax, htake, fromBigEndian_bigEndian _ _ hlt]

end Rlp

end CppSwc
