import CppSwc.Core.RlpBytes
import Mathlib.Data.List.GetD
import Mathlib.Tactic.Ring

/-!
# The precompiled contract for modular exponentiation

The executor and the pricer of `modexp`.  The input has three lengths of 32 bytes and then base,
exponent and modulus, and is read as if there were zeros behind it.

Numbers are of type `bigint` and have no bound.  A failed assertion has no result, and neither has
a conversion to `size_t` that loses bits (`toSize`).

The assertions rely on the price.  The price bounds the lengths of base and modulus, but where
both are short an exponent of more bytes than the assertion admits is still below `2 ^ 63`
(`modexp_iff`).
-/

namespace CppSwc.Precompiled

/-- `numeric_limits<size_t>::max()`. -/
def maxSize : ℕ := 2 ^ 64 - 1

/-- A conversion to `size_t` that does not lose bits. -/
def toSize (n : ℕ) : Option ℕ := if n ≤ maxSize then some n else none

/-- An assertion. -/
def require (p : Prop) [Decidable p] : Option Unit := if p then some () else none

/-- `parseBigEndianRightPadded`. -/
def parseBigEndianRightPadded (input : Bytes) (start count : ℕ) : Option ℕ :=
  if input.length < start then some 0
  else do
    require (count ≤ maxSize / 8)
    let start ← toSize start
    let count ← toSize count
    let cropped := (input.drop start).take (min count (input.length - start))
    require (count - cropped.length ≤ maxSize / 8)
    some (fromBigEndian cropped <<< (8 * (count - cropped.length)))

/-- The executor. -/
def modexp (input : Bytes) : Option Bytes := do
  let baseLength ← parseBigEndianRightPadded input 0 32
  let expLength ← parseBigEndianRightPadded input 32 32
  let modLength ← parseBigEndianRightPadded input 64 32
  require (modLength ≤ maxSize / 8)
  require (baseLength ≤ maxSize / 8)
  if modLength = 0 ∧ baseLength = 0 then some []
  else do
    require (expLength ≤ maxSize / 8)
    let base ← parseBigEndianRightPadded input 96 baseLength
    let exp ← parseBigEndianRightPadded input (96 + baseLength) expLength
    let mod ← parseBigEndianRightPadded input (96 + baseLength + expLength) modLength
    let result := if mod ≠ 0 then base ^ exp % mod else 0
    let retLength ← toSize modLength
    some (bigEndian retLength result)

/-- `expLengthAdjust`. -/
def expLengthAdjust (expOffset expLength : ℕ) (input : Bytes) : Option ℕ :=
  if expLength ≤ 32 then do
    let exp ← parseBigEndianRightPadded input expOffset expLength
    some (if exp ≠ 0 then exp.log2 else 0)
  else do
    let expFirstWord ← parseBigEndianRightPadded input expOffset 32
    let highestBit := if expFirstWord ≠ 0 then expFirstWord.log2 else 0
    some (8 * (expLength - 32) + highestBit)

/-- `multComplexity`. -/
def multComplexity (x : ℕ) : ℕ :=
  if x ≤ 64 then x * x
  else if x ≤ 1024 then x * x / 4 + 96 * x - 3072
  else x * x / 16 + 480 * x - 199680

/-- The pricer. -/
def modexpPrice (input : Bytes) : Option ℕ := do
  let baseLength ← parseBigEndianRightPadded input 0 32
  let expLength ← parseBigEndianRightPadded input 32 32
  let modLength ← parseBigEndianRightPadded input 64 32
  let maxLength := max modLength baseLength
  let adjustedExpLength ← expLengthAdjust (baseLength + 96) expLength input
  some (multComplexity maxLength * max adjustedExpLength 1 / 20)

/-! ## The operands -/

/-- The number in so many bytes of the input, which has zeros behind it. -/
def operand (input : Bytes) (start count : ℕ) : ℕ :=
  fromBigEndian ((List.range' start count).map fun i => input.getD i 0)

def baseLength (input : Bytes) : ℕ := operand input 0 32

def expLength (input : Bytes) : ℕ := operand input 32 32

def modLength (input : Bytes) : ℕ := operand input 64 32

/-- The power of the operands, in as many bytes as the modulus has, and zero for the modulus
zero. -/
def power (input : Bytes) : Bytes :=
  let base := operand input 96 (baseLength input)
  let exp := operand input (96 + baseLength input) (expLength input)
  let mod := operand input (96 + baseLength input + expLength input) (modLength input)
  bigEndian (modLength input) (if mod = 0 then 0 else base ^ exp % mod)

variable {input : Bytes} {start count p : ℕ}

theorem toSize_of_le {n : ℕ} (h : n ≤ maxSize) : toSize n = some n := if_pos h

theorem fromBigEndian_append_zeros (bs : Bytes) (k : ℕ) :
    fromBigEndian (bs ++ List.replicate k 0) = fromBigEndian bs <<< (8 * k) := by
  induction k with
  | zero => rw [List.replicate_zero, List.append_nil, Nat.mul_zero, Nat.shiftLeft_zero]
  | succ k ih =>
      rw [List.replicate_succ', ← List.append_assoc, fromBigEndian, List.foldl_append, ← fromBigEndian, ih]
      simp only [List.foldl_cons, List.foldl_nil, Nat.shiftLeft_eq, Nat.mul_add, Nat.pow_add]
      norm_num
      ring

/-- The bytes of an operand are those that there are, and then zeros. -/
theorem map_getD_range' (input : Bytes) (start count : ℕ) :
    ((List.range' start count).map fun i => input.getD i 0) =
      (input.drop start).take count ++ List.replicate (count - (input.length - start)) 0 := by
  refine List.ext_getElem ?_ fun i hi _ => ?_
  · rw [List.length_map, List.length_range', List.length_append, List.length_take, List.length_drop,
      List.length_replicate]
    omega
  · rw [List.length_map, List.length_range'] at hi
    rw [List.getElem_map, List.getElem_range', Nat.one_mul, List.getElem_append]
    split
    · rename_i hlt
      rw [List.length_take, List.length_drop] at hlt
      rw [List.getElem_take, List.getElem_drop, List.getD_eq_getElem _ _ (by omega)]
    · rename_i hge
      rw [List.length_take, List.length_drop] at hge
      rw [List.getElem_replicate, List.getD_eq_default _ _ (by omega)]

/-- The parser reads an operand, where the assertion holds and the start has enough bits. -/
theorem parseBigEndianRightPadded_eq (input : Bytes) (hcount : count ≤ maxSize / 8)
    (hstart : start ≤ maxSize) :
    parseBigEndianRightPadded input start count = some (operand input start count) := by
  have hsize : count ≤ maxSize := hcount.trans (Nat.div_le_self _ _)
  rw [parseBigEndianRightPadded, operand, map_getD_range', fromBigEndian_append_zeros]
  split
  · rename_i hlt
    rw [List.drop_of_length_le hlt.le, List.take_nil]
    exact congrArg some (Nat.zero_shiftLeft _).symm
  · rename_i hle
    have hcropped : ((input.drop start).take (min count (input.length - start))) =
        (input.drop start).take count := by
      rw [Nat.min_comm, ← List.take_take, List.take_of_length_le (i := input.length - start)]
      rw [List.length_take, List.length_drop]
      omega
    have hlength : count - ((input.drop start).take count).length =
        count - (input.length - start) := by
      rw [List.length_take, List.length_drop]
      omega
    rw [toSize_of_le hstart, toSize_of_le hsize]
    simp only [require, hcount, if_true, Option.bind_eq_bind, Option.bind_some, hcropped, hlength,
      (Nat.sub_le _ _).trans hcount]

/-! ## What the price says -/

theorem lt_multComplexity {x : ℕ} (hx : 2 ^ 40 ≤ x) : 2 ^ 70 ≤ multComplexity x := by
  have hsquare : 2 ^ 40 * 2 ^ 40 ≤ x * x := Nat.mul_le_mul hx hx
  rw [multComplexity, if_neg (by omega), if_neg (by omega)]
  omega

/-- Base and modulus are short if the price is not too high. -/
theorem lengths_lt (hprice : modexpPrice input = some p) (hp : p < 2 ^ 63) :
    baseLength input < 2 ^ 40 ∧ modLength input < 2 ^ 40 := by
  have hsmall : 32 ≤ maxSize / 8 := by decide
  rw [modexpPrice, parseBigEndianRightPadded_eq input hsmall (by decide),
    parseBigEndianRightPadded_eq input hsmall (by decide),
    parseBigEndianRightPadded_eq input hsmall (by decide)] at hprice
  simp only [Option.bind_eq_bind, Option.bind_some] at hprice
  obtain ⟨adjusted, -, heq⟩ := Option.bind_eq_some_iff.mp hprice
  have hmax : max (operand input 64 32) (operand input 0 32) < 2 ^ 40 := by
    by_contra hge
    have hcomplexity := lt_multComplexity (not_lt.mp hge)
    have hmul : 2 ^ 70 * 1 ≤
        multComplexity (max (operand input 64 32) (operand input 0 32)) * max adjusted 1 :=
      Nat.mul_le_mul hcomplexity (le_max_right _ _)
    have hdiv := Option.some.inj heq
    omega
  exact ⟨lt_of_le_of_lt (le_max_right _ _) hmax, lt_of_le_of_lt (le_max_left _ _) hmax⟩

/-- An input with a price below `2 ^ 63` passes all assertions and conversions, and gives the power,
exactly if base and modulus are empty or the length of the exponent is one that the assertion
admits. -/
theorem modexp_iff (hprice : modexpPrice input = some p) (hp : p < 2 ^ 63) :
    modexp input = some (power input) ↔
      (modLength input = 0 ∧ baseLength input = 0) ∨ expLength input ≤ maxSize / 8 := by
  obtain ⟨hbase, hmod⟩ := lengths_lt hprice hp
  have hsmall : 32 ≤ maxSize / 8 := by decide
  have hsize : maxSize / 8 = 2 ^ 61 - 1 := by decide
  have hsize' : maxSize = 2 ^ 64 - 1 := rfl
  have hbase' : baseLength input ≤ maxSize / 8 := by omega
  have hmod' : modLength input ≤ maxSize / 8 := by omega
  rw [modexp, parseBigEndianRightPadded_eq input hsmall (by decide),
    parseBigEndianRightPadded_eq input hsmall (by decide),
    parseBigEndianRightPadded_eq input hsmall (by decide)]
  rw [← baseLength, ← expLength, ← modLength]
  simp only [Option.bind_eq_bind, Option.bind_some, require, hbase', hmod', if_true]
  by_cases hempty : modLength input = 0 ∧ baseLength input = 0
  · rw [if_pos hempty, power, hempty.1]
    exact iff_of_true rfl (.inl ⟨rfl, hempty.2⟩)
  rw [if_neg hempty, or_iff_right hempty]
  by_cases hexp : expLength input ≤ maxSize / 8
  · simp only [hexp, if_true, Option.bind_some, iff_true]
    rw [parseBigEndianRightPadded_eq input hbase' (by decide),
      parseBigEndianRightPadded_eq input hexp (by omega),
      parseBigEndianRightPadded_eq input hmod' (by omega), toSize_of_le (by omega)]
    simp only [Option.bind_some, power, ite_not]
  · simp only [hexp, if_false, Option.bind_none, reduceCtorEq]

/-- Base and modulus of one byte, and an exponent of `2 ^ 61` bytes that are not there. -/
def longExponent : Bytes := bigEndian 32 1 ++ bigEndian 32 (2 ^ 61) ++ bigEndian 32 1

/-- Base, exponent and modulus of one byte. -/
def oneByteEach : Bytes := bigEndian 32 1 ++ bigEndian 32 1 ++ bigEndian 32 1 ++ [3, 5, 7]

theorem modexp_iff_oneByteEach :
    modexp oneByteEach = some [5] ∧ (modexp oneByteEach = some (power oneByteEach) ↔
      (modLength oneByteEach = 0 ∧ baseLength oneByteEach = 0) ∨
        expLength oneByteEach ≤ maxSize / 8) :=
  ⟨by decide +kernel, modexp_iff (p := 0) (by decide +kernel) (by decide)⟩

/-- The long exponent is paid for, and the assertion on its length fails. -/
theorem modexp_longExponent :
    modexpPrice longExponent = some 922337203685477568 ∧ 922337203685477568 < 2 ^ 63 ∧
      modexp longExponent = none := by
  decide +kernel

end CppSwc.Precompiled
