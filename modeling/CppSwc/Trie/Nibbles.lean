import CppSwc.Core.Rlp
import CppSwc.Lib.Patricia

/-!
# Nibbles

`TrieCommon` of libdevcore.  A `NibbleSlice` is a window on a byte string and is modelled as
the nibbles in the window.  In a node a key is packed two nibbles to a byte behind a nibble
with the flags, and unpacking gives the key and the flag back.
-/

namespace CppSwc.Trie

/-- `NibbleSlice`, and the `bytes` that `asNibbles` gives. -/
abbrev Nibbles := List (Fin 16)

/-- The last nibble of a number. -/
def nibbleOf (n : ℕ) : Fin 16 := Fin.ofNat 16 n

/-- `nibble`, for both halves of a byte. -/
def halves (b : UInt8) : Nibbles := [nibbleOf (b.toNat / 16), nibbleOf (b.toNat % 16)]

/-- `asNibbles`. -/
def asNibbles (s : Bytes) : Nibbles := s.flatMap halves

/-- `NibbleSlice::shared`. -/
abbrev shared : Nibbles → Nibbles → ℕ := Lib.Patricia.shared

/-- Two nibbles to a byte. -/
def packed : Nibbles → Bytes
  | a :: b :: k => UInt8.ofNat (a.val * 16 + b.val) :: packed k
  | _ => []

/-- The first nibble of a packed key: oddness is 1, termination is 2. -/
def flags (k : Nibbles) (leaf : Bool) : Fin 16 :=
  (if leaf then 2 else 0) + if k.length % 2 = 1 then 1 else 0

/-- `hexPrefixEncode`. -/
def hexPrefixEncode (k : Nibbles) (leaf : Bool) : Bytes :=
  packed (flags k leaf :: if k.length % 2 = 1 then k else 0 :: k)

/-- `keyOf`, of a packed key. -/
def keyOf : Bytes → Nibbles
  | [] => []
  | b :: hpe => (asNibbles (b :: hpe)).drop (if b &&& 0x10 ≠ 0 then 1 else 2)

/-- The flag that `isLeaf` reads, of a packed key. -/
def isTerminated (hpe : Bytes) : Bool := hpe.headD 0 &&& 0x20 ≠ 0

/-! ## Packing and unpacking -/

theorem halves_ofNat (a b : Fin 16) : halves (UInt8.ofNat (a.val * 16 + b.val)) = [a, b] := by
  revert a b
  decide +kernel

theorem asNibbles_packed (k : Nibbles) (h : k.length % 2 = 0) : asNibbles (packed k) = k := by
  induction k using packed.induct with
  | case1 a b k ih =>
      simp only [List.length_cons] at h
      rw [packed, asNibbles, List.flatMap_cons, halves_ofNat]
      exact congrArg ([a, b] ++ ·) (ih (by omega))
  | case2 k hk =>
      rcases k with - | ⟨a, - | ⟨b, k⟩⟩
      · rfl
      · cases h
      · exact absurd rfl (hk a b k)

theorem asNibbles_hexPrefixEncode (k : Nibbles) (leaf : Bool) :
    asNibbles (hexPrefixEncode k leaf) =
      flags k leaf :: if k.length % 2 = 1 then k else 0 :: k := by
  apply asNibbles_packed
  split <;> simp only [List.length_cons] <;> omega

/-- The first byte holds the flags. -/
theorem exists_hexPrefixEncode (k : Nibbles) (leaf : Bool) :
    ∃ (x : Fin 16) (rest : Bytes),
      hexPrefixEncode k leaf = UInt8.ofNat ((flags k leaf).val * 16 + x.val) :: rest := by
  rw [hexPrefixEncode]
  split
  · next hodd =>
      cases k with
      | nil => cases hodd
      | cons x k => exact ⟨x, packed k, rfl⟩
  · exact ⟨0, packed k, rfl⟩

theorem flags_bits (odd leaf : Bool) (x : Fin 16) :
    let b := UInt8.ofNat (((if leaf then 2 else 0) + if odd then 1 else 0 : Fin 16).val * 16 + x.val)
    (b &&& 0x10 ≠ 0 ↔ odd) ∧ (b &&& 0x20 ≠ 0 ↔ leaf) := by
  revert odd leaf x
  decide +kernel

theorem flags_eq (k : Nibbles) (leaf : Bool) :
    flags k leaf =
      (if leaf then 2 else 0) + if (decide (k.length % 2 = 1) : Bool) = true then 1 else 0 := by
  simp only [flags, decide_eq_true_eq]

@[simp] theorem keyOf_hexPrefixEncode (k : Nibbles) (leaf : Bool) :
    keyOf (hexPrefixEncode k leaf) = k := by
  have hall := asNibbles_hexPrefixEncode k leaf
  obtain ⟨x, rest, heq⟩ := exists_hexPrefixEncode k leaf
  rw [heq] at hall ⊢
  rw [keyOf, hall]
  have hodd := (flags_bits (decide (k.length % 2 = 1)) leaf x).1
  rw [← flags_eq, decide_eq_true_iff] at hodd
  by_cases h : k.length % 2 = 1
  · rw [if_pos (hodd.mpr h), if_pos h]
    rfl
  · rw [if_neg (fun hb => h (hodd.mp hb)), if_neg h]
    rfl

@[simp] theorem isTerminated_hexPrefixEncode (k : Nibbles) (leaf : Bool) :
    isTerminated (hexPrefixEncode k leaf) = leaf := by
  obtain ⟨x, rest, heq⟩ := exists_hexPrefixEncode k leaf
  have hleaf := (flags_bits (decide (k.length % 2 = 1)) leaf x).2
  rw [← flags_eq] at hleaf
  rw [heq, isTerminated, List.headD_cons, Bool.eq_iff_iff, decide_eq_true_iff]
  exact hleaf

theorem asNibbles_length (s : Bytes) : (asNibbles s).length = 2 * s.length := by
  induction s with
  | nil => rfl
  | cons b s ih =>
      rw [asNibbles, List.flatMap_cons, List.length_append]
      rw [asNibbles] at ih
      simp only [ih, halves, List.length_cons, List.length_nil]
      omega

theorem halves_injective {b c : UInt8} (h : halves b = halves c) : b = c := by
  simp only [halves, nibbleOf, List.cons.injEq, Fin.ext_iff, Fin.ofNat, and_true] at h
  have hb := b.toNat_lt
  have hc := c.toNat_lt
  exact UInt8.toNat_inj.mp (by omega)

/-- Different keys have different nibbles. -/
theorem asNibbles_injective {s t : Bytes} (h : asNibbles s = asNibbles t) : s = t := by
  induction s generalizing t with
  | nil =>
      have hlength := congrArg List.length h
      rw [asNibbles_length, asNibbles_length, List.length_nil] at hlength
      exact (List.length_eq_zero_iff.mp (by omega)).symm
  | cons b s ih =>
      cases t with
      | nil => cases h
      | cons c t =>
          simp only [asNibbles, List.flatMap_cons] at h
          obtain ⟨hbc, hst⟩ := List.append_inj h rfl
          rw [halves_injective hbc, ih hst]

end CppSwc.Trie
