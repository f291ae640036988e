import CppSwc.Core.HeaderIdentity
import Mathlib.Data.List.GetD

/-!
# Encoding of arguments

`ContractABI` of libethcore, which writes and reads the arguments of a call, and the functions
`abiIn` and `abiOut` for one string.

A tuple of numbers and strings is read back from what is written for it (`abiOutAux_plain`), as
long as the strings start below `2 ^ 32`, which is where the constructor `h256(unsigned)` that
writes the offset stops.  The two remaining types are not written at all:

* `bytes(_t)` of a `byte` is a vector of that many zeros;
* a `string32` is copied to a vector of no bytes.

The function `abiOut` for one string reads the length as a `uint16_t`.
-/

namespace CppSwc

/-- `std::string`, which is no longer than a `size_t` can say. -/
structure StdString where
  chars : Bytes
  size_lt : chars.length < 2 ^ 64
deriving DecidableEq

namespace ContractABI

/-- The types that `serialise` and `deserialise` are overloaded for. -/
inductive Ty where
  | u256
  | u160
  | byte
  | string32
  | string
deriving DecidableEq

/-- A value of one of them. -/
inductive Value where
  | u256 (v : BitVec 256)
  | u160 (v : BitVec 160)
  | byte (v : UInt8)
  | string32 (v : Vector UInt8 32)
  | string (v : StdString)
deriving DecidableEq

def Value.ty : Value → Ty
  | .u256 _ => .u256
  | .u160 _ => .u160
  | .byte _ => .byte
  | .string32 _ => .string32
  | .string _ => .string

/-! ## Writing -/

/-- `h256(u256(n)).asBytes()`. -/
def word (n : ℕ) : Bytes := bigEndian 32 n

/-- `vector_ref::populate` of a target of `n` bytes. -/
def populate (source : Bytes) (n : ℕ) : Bytes :=
  source.take n ++ List.replicate (n - source.length) 0

/-- The length of a string and the string, padded. -/
def stringData (s : Bytes) : Bytes := word s.length ++ populate s ((s.length + 31) / 32 * 32)

/-- `DynamicItem`. -/
structure DynamicItem where
  data : Bytes
  offset : ℕ

/-- The items that `abiIn` collects. -/
structure Items where
  fixedItems : List Bytes := []
  dynamicItems : List DynamicItem := []

/-- `serialise`, for each type. -/
def serialise (abi : Items) : Value → Items
  | .u256 v => { abi with fixedItems := abi.fixedItems ++ [word v.toNat] }
  | .u160 v =>
      { abi with fixedItems := abi.fixedItems ++ [List.replicate 12 0 ++ bigEndian 20 v.toNat] }
  -- the vector with so many zeros
  | .byte v =>
      { abi with
        fixedItems := abi.fixedItems ++ [List.replicate 31 0 ++ List.replicate v.toNat 0] }
  | .string32 v => { abi with fixedItems := abi.fixedItems ++ [populate v.toList 0] }
  | .string s => {
      fixedItems := abi.fixedItems ++ [word 0]
      dynamicItems := abi.dynamicItems ++ [⟨stringData s.chars, abi.fixedItems.length⟩] }

/-- The loop that writes the offsets.  `h256(offset)` is the constructor for an `unsigned`. -/
def patch (fixedItems : List Bytes) (offset : ℕ) : List DynamicItem → List Bytes
  | [] => fixedItems
  | it :: items =>
      patch (fixedItems.set it.offset (word (offset % 2 ^ 32))) (offset + it.data.length) items

/-- `abiIn`. -/
def abiIn (C : Crypto) (id : Bytes) (vs : List Value) : Bytes :=
  let abi := vs.foldl serialise {}
  let fixed := patch abi.fixedItems (abi.fixedItems.length * 32) abi.dynamicItems
  (word (C.sha3 id).toNat).take 4 ++ fixed.flatten ++ (abi.dynamicItems.map (·.data)).flatten

/-! ## Reading -/

/-- `vector_ref::cropped`. -/
def cropped (data : Bytes) (start count : ℕ) : Bytes :=
  if start + count ≤ data.length then (data.drop start).take count else []

theorem length_cropped_le (data : Bytes) (start count : ℕ) :
    (cropped data start count).length ≤ count := by
  rw [cropped]
  split
  · exact List.length_take_le _ _
  · exact Nat.zero_le _

/-- A number read at a place, as a `size_t`. -/
def sizeAt (data : Bytes) (start : ℕ) : ℕ := fromBigEndian (cropped data start 32) % 2 ^ 64

/-- `deserialise` for a string. -/
def readString (data : Bytes) (i : ℕ) : StdString where
  chars :=
    cropped data ((sizeAt data (i * 32) + 32) % 2 ^ 64) (sizeAt data (sizeAt data (i * 32)))
  size_lt := lt_of_le_of_lt (length_cropped_le _ _ _) (Nat.mod_lt _ (by decide))

theorem readString_chars (data : Bytes) (i : ℕ) :
    (readString data i).chars =
      cropped data ((sizeAt data (i * 32) + 32) % 2 ^ 64) (sizeAt data (sizeAt data (i * 32))) :=
  rfl

/-- `deserialise`, for each type, at a `decodeOffset`. -/
def deserialise (data : Bytes) (i : ℕ) : Ty → Value
  | .u256 => .u256 (BitVec.ofNat 256 (fromBigEndian (cropped data (i * 32) 32)))
  | .u160 => .u160 (BitVec.ofNat 160 (fromBigEndian (cropped data (i * 32 + 12) 20)))
  | .byte => .byte (UInt8.ofNat (fromBigEndian (cropped data (i * 32 + 31) 1)))
  -- always from the start
  | .string32 => .string32 (Vector.ofFn fun j => (cropped data 0 32).getD j 0)
  | .string => .string (readString data i)

/-- `abiOutAux`. -/
def abiOutAux (data : Bytes) (decodeOffset : ℕ) : List Ty → List Value
  | [] => []
  | t :: ts => deserialise data decodeOffset t :: abiOutAux data (decodeOffset + 1) ts

/-- `abiOut`. -/
def abiOut (data : Bytes) (ts : List Ty) : List Value := abiOutAux data 0 ts

/-- The arguments are read back. -/
def RoundTrips (C : Crypto) (id : Bytes) (vs : List Value) : Prop :=
  abiOut ((abiIn C id vs).drop 4) (vs.map Value.ty) = vs

instance (C : Crypto) (id : Bytes) (vs : List Value) : Decidable (RoundTrips C id vs) :=
  inferInstanceAs (Decidable (_ = _))

/-! ## The layout -/

/-- What a value is among the fixed items, until the offsets are known. -/
def Value.fixed : Value → Bytes
  | .u256 v => word v.toNat
  | .u160 v => List.replicate 12 0 ++ bigEndian 20 v.toNat
  | .byte v => List.replicate 31 0 ++ List.replicate v.toNat 0
  | .string32 v => populate v.toList 0
  | .string _ => word 0

/-- What a value is among the dynamic items. -/
def Value.dynamic : Value → Option Bytes
  | .string s => some (stringData s.chars)
  | _ => none

/-- The fixed items, if the dynamic ones start at `o`. -/
def heads (o : ℕ) : List Value → List Bytes
  | [] => []
  | v :: vs =>
      match v.dynamic with
      | none => v.fixed :: heads o vs
      | some d => word (o % 2 ^ 32) :: heads (o + d.length) vs

/-- The dynamic items. -/
def tails (vs : List Value) : List Bytes := vs.filterMap Value.dynamic

/-- The dynamic items as they are collected, from the fixed item `k` on. -/
def dynamics (k : ℕ) : List Value → List DynamicItem
  | [] => []
  | v :: vs => (v.dynamic.map fun d => ⟨d, k⟩).toList ++ dynamics (k + 1) vs

/-- The strings start below the numbers that are written for them. -/
def ShortFrom (o : ℕ) : List Value → Prop
  | [] => True
  | v :: vs =>
      match v.dynamic with
      | none => ShortFrom o vs
      | some d => o < 2 ^ 32 ∧ ShortFrom (o + d.length) vs

/-- Every string starts below `2 ^ 32`. -/
def Short (vs : List Value) : Prop := ShortFrom (vs.length * 32) vs

variable {C : Crypto} {id data a b d : Bytes} {v : Value} {vs : List Value} {abi : Items}
  {i n o : ℕ}

theorem serialise_eq (abi : Items) (v : Value) :
    serialise abi v =
      ⟨abi.fixedItems ++ [v.fixed],
        abi.dynamicItems ++ (v.dynamic.map fun d => ⟨d, abi.fixedItems.length⟩).toList⟩ := by
  cases v <;> simp [serialise, Value.fixed, Value.dynamic]

theorem foldl_serialise (vs : List Value) (abi : Items) :
    vs.foldl serialise abi =
      ⟨abi.fixedItems ++ vs.map Value.fixed,
        abi.dynamicItems ++ dynamics abi.fixedItems.length vs⟩ := by
  induction vs generalizing abi with
  | nil => simp [dynamics]
  | cons v vs ih =>
      rw [List.foldl_cons, ih, serialise_eq]
      simp [dynamics]

theorem map_data_dynamics (k : ℕ) (vs : List Value) :
    (dynamics k vs).map (·.data) = tails vs := by
  induction vs generalizing k with
  | nil => rfl
  | cons v vs ih =>
      rw [dynamics, List.map_append, ih, tails, tails, List.filterMap_cons]
      cases v.dynamic <;> rfl

/-- The loop over the dynamic items writes the offsets at their places. -/
theorem patch_dynamics (fixed : List Bytes) (o : ℕ) (vs : List Value) :
    patch (fixed ++ vs.map Value.fixed) o (dynamics fixed.length vs) = fixed ++ heads o vs := by
  induction vs generalizing fixed o with
  | nil => rfl
  | cons v vs ih =>
      have hnext (x : Bytes) (o : ℕ) :
          patch (fixed ++ x :: vs.map Value.fixed) o (dynamics (fixed.length + 1) vs) =
            fixed ++ x :: heads o vs := by
        have := ih (fixed ++ [x]) o
        simpa using this
      rw [dynamics, heads, List.map_cons]
      cases hdynamic : v.dynamic with
      | none => exact hnext v.fixed o
      | some d =>
          simp only [Option.map_some, Option.toList_some, List.singleton_append, patch]
          rw [List.set_append_right _ _ (le_refl _), Nat.sub_self, List.set_cons_zero]
          exact hnext _ _

/-- The arguments that `abiIn` writes. -/
def arguments (vs : List Value) : Bytes :=
  (heads (vs.length * 32) vs).flatten ++ (tails vs).flatten

theorem drop_abiIn : (abiIn C id vs).drop 4 = arguments vs := by
  have hfold := foldl_serialise vs {}
  have hpatch := patch_dynamics [] (vs.length * 32) vs
  have hlength : ((word (C.sha3 id).toNat).take 4).length = 4 := by simp [word]
  simp only [List.nil_append, List.length_nil] at hfold hpatch
  simp only [abiIn, hfold, List.length_map, hpatch, map_data_dynamics]
  rw [List.append_assoc, List.drop_append_of_le_length (by omega),
    List.drop_of_length_le (by omega), List.nil_append, arguments]

/-! ## Reading what was written -/

/-- The types that are written as they are read. -/
def Ty.isPlain : Ty → Bool
  | .byte | .string32 => false
  | _ => true

theorem cropped_append (a b d : Bytes) : cropped (a ++ b ++ d) a.length b.length = b := by
  rw [cropped, if_pos (by simp), List.append_assoc, List.drop_left, List.take_left]

theorem length_word (n : ℕ) : (word n).length = 32 := bigEndian_length 32 n

theorem sizeAt_word (hn : n < 2 ^ 64) : sizeAt (a ++ word n ++ d) a.length = n := by
  have hlt : n < 256 ^ 32 := lt_trans hn (by decide)
  have hread := cropped_append a (word n) d
  rw [length_word] at hread
  rw [sizeAt, hread, word, fromBigEndian_bigEndian _ _ hlt, Nat.mod_eq_of_lt hn]

theorem length_populate (source : Bytes) (n : ℕ) : (populate source n).length = n := by
  rw [populate, List.length_append, List.length_take, List.length_replicate]
  omega

theorem length_fixed (hplain : v.ty.isPlain = true) : v.fixed.length = 32 := by
  cases v with
  | u256 v => exact length_word _
  | u160 v => simp [Value.fixed]
  | byte v => cases hplain
  | string32 v => cases hplain
  | string v => exact length_word _

theorem length_heads (hplain : ∀ v ∈ vs, v.ty.isPlain = true) :
    (heads o vs).flatten.length = vs.length * 32 := by
  induction vs generalizing o with
  | nil => rfl
  | cons v vs ih =>
      have hvs : ∀ v ∈ vs, v.ty.isPlain = true := fun v hmem => hplain v (.tail _ hmem)
      rw [heads, List.length_cons]
      cases v.dynamic with
      | none =>
          rw [List.flatten_cons, List.length_append, length_fixed (hplain v (.head _)), ih hvs]
          omega
      | some d =>
          rw [List.flatten_cons, List.length_append, length_word, ih hvs]
          omega

/-- A number is read where it was written. -/
theorem deserialise_fixed (hplain : v.ty.isPlain = true) (hfixed : v.dynamic = none)
    (hlength : a.length = i * 32) : deserialise (a ++ v.fixed ++ b) i v.ty = v := by
  cases v with
  | u256 v =>
      have hread := cropped_append a (word v.toNat) b
      rw [length_word, hlength] at hread
      have hlt : v.toNat < 256 ^ 32 := v.isLt
      rw [Value.fixed, Value.ty, deserialise, hread, word, fromBigEndian_bigEndian _ _ hlt,
        BitVec.ofNat_toNat, BitVec.setWidth_eq]
  | u160 v =>
      have hread := cropped_append (a ++ List.replicate 12 0) (bigEndian 20 v.toNat) b
      rw [List.length_append, List.length_replicate, bigEndian_length, hlength] at hread
      have hlt : v.toNat < 256 ^ 20 := v.isLt
      rw [Value.fixed, Value.ty, deserialise, ← List.append_assoc, hread,
        fromBigEndian_bigEndian _ _ hlt, BitVec.ofNat_toNat, BitVec.setWidth_eq]
  | byte v => cases hplain
  | string32 v => cases hplain
  | string v => cases hfixed

/-- A string is read where its offset says. -/
theorem readString_eq {s : StdString} {x y : Bytes} (hlength : a.length = i * 32)
    (hoffset : o < 2 ^ 32) (hhead : data = a ++ word o ++ b)
    (htail : data = x ++ stringData s.chars ++ y) (hx : x.length = o) :
    readString data i = s := by
  have hat : sizeAt data (i * 32) = o := by
    rw [hhead, ← hlength, sizeAt_word (by omega)]
  have hsize : sizeAt data o = s.chars.length := by
    rw [htail, stringData, ← List.append_assoc, List.append_assoc _ _ y, ← hx,
      sizeAt_word s.size_lt]
  have hchars : cropped data (o + 32) s.chars.length = s.chars := by
    have hcut : populate s.chars ((s.chars.length + 31) / 32 * 32) =
        s.chars ++ List.replicate ((s.chars.length + 31) / 32 * 32 - s.chars.length) 0 := by
      rw [populate, List.take_of_length_le (by omega)]
    have hread := cropped_append (x ++ word s.chars.length) s.chars
      (List.replicate ((s.chars.length + 31) / 32 * 32 - s.chars.length) 0 ++ y)
    rw [List.length_append, length_word, hx] at hread
    rw [htail, stringData, hcut]
    simpa only [List.append_assoc] using hread
  have hstart : (o + 32) % 2 ^ 64 = o + 32 := Nat.mod_eq_of_lt (by omega)
  obtain ⟨chars, size_lt⟩ := s
  simp only [readString, hat, hsize, hstart, StdString.mk.injEq]
  exact hchars

/-- The step from one value to the next, for the fixed items and for the dynamic ones. -/
theorem abiOutAux_plain {x y : Bytes} (hplain : ∀ v ∈ vs, v.ty.isPlain = true)
    (hshort : ShortFrom o vs) (hhead : data = a ++ (heads o vs).flatten ++ y)
    (hlength : a.length = i * 32) (htail : data = x ++ (tails vs).flatten)
    (hx : x.length = o) : abiOutAux data i (vs.map Value.ty) = vs := by
  induction vs generalizing a x i o with
  | nil => rfl
  | cons v vs ih =>
      have hv := hplain v (.head _)
      have hvs : ∀ v ∈ vs, v.ty.isPlain = true := fun v hmem => hplain v (.tail _ hmem)
      rw [List.map_cons, abiOutAux, List.cons.injEq]
      rw [ShortFrom] at hshort
      rw [heads] at hhead
      rw [tails, List.filterMap_cons] at htail
      cases hdynamic : v.dynamic with
      | none =>
          simp only [hdynamic, List.flatten_cons] at hshort hhead htail
          refine ⟨?_, ?_⟩
          · rw [hhead, ← List.append_assoc, List.append_assoc _ _ y]
            exact deserialise_fixed hv hdynamic hlength
          · refine ih hvs hshort (a := a ++ v.fixed) ?_ ?_ htail hx
            · rw [hhead, ← List.append_assoc]
            · rw [List.length_append, hlength, length_fixed hv]
              omega
      | some d =>
          simp only [hdynamic, List.flatten_cons] at hshort hhead htail
          obtain ⟨ho, hshort⟩ := hshort
          rw [Nat.mod_eq_of_lt ho] at hhead
          refine ⟨?_, ?_⟩
          · cases v with
            | string s =>
                obtain rfl := Option.some.inj hdynamic
                rw [← List.append_assoc, List.append_assoc _ _ y] at hhead
                rw [← List.append_assoc] at htail
                exact congrArg Value.string (readString_eq hlength ho hhead htail hx)
            | _ => cases hdynamic
          · refine ih hvs hshort (a := a ++ word o) (x := x ++ d) ?_ ?_ ?_ ?_
            · rw [hhead, ← List.append_assoc]
            · rw [List.length_append, hlength, length_word]
              omega
            · rw [htail, List.append_assoc]
              rfl
            · rw [List.length_append, hx]

/-- **Numbers and strings that start below `2 ^ 32` are read back.** -/
theorem roundTrips_of_short (hplain : ∀ v ∈ vs, v.ty.isPlain = true) (hshort : Short vs) :
    RoundTrips C id vs := by
  have hhead : arguments vs = [] ++ (heads (vs.length * 32) vs).flatten ++ (tails vs).flatten := rfl
  rw [RoundTrips, drop_abiIn, abiOut]
  exact abiOutAux_plain hplain hshort hhead rfl rfl (length_heads hplain)

/-! ## Types that are not written -/

theorem heads_append (o : ℕ) (us vs : List Value) :
    heads o (us ++ vs) = heads o us ++ heads (o + (tails us).flatten.length) vs := by
  induction us generalizing o with
  | nil => rfl
  | cons v us ih =>
      rw [List.cons_append, heads, heads, tails, List.filterMap_cons]
      cases v.dynamic with
      | none => exact congrArg (v.fixed :: ·) (ih o)
      | some d =>
          simp only [List.flatten_cons, List.length_append, List.cons_append, List.cons.injEq,
            true_and, ← Nat.add_assoc]
          exact ih (o + d.length)

theorem abiOutAux_append (data : Bytes) (i : ℕ) (ts us : List Ty) :
    abiOutAux data i (ts ++ us) = abiOutAux data i ts ++ abiOutAux data (i + ts.length) us := by
  induction ts generalizing i with
  | nil => rfl
  | cons t ts ih =>
      rw [List.cons_append, abiOutAux, ih, abiOutAux, List.length_cons, Nat.add_right_comm,
        Nat.add_assoc, List.cons_append]

theorem length_abiOutAux (data : Bytes) (i : ℕ) (ts : List Ty) :
    (abiOutAux data i ts).length = ts.length := by
  induction ts generalizing i with
  | nil => rfl
  | cons t ts ih => rw [abiOutAux, List.length_cons, List.length_cons, ih]

/-- Each value is read back at its place. -/
theorem RoundTrips.deserialise_eq {us ws : List Value} (h : RoundTrips C id (us ++ v :: ws)) :
    deserialise (arguments (us ++ v :: ws)) us.length v.ty = v := by
  rw [RoundTrips, drop_abiIn, abiOut, List.map_append, List.map_cons, abiOutAux_append] at h
  have htail := (List.append_inj h (by rw [length_abiOutAux, List.length_map])).2
  rw [abiOutAux, List.length_map, Nat.zero_add] at htail
  exact (List.cons.inj htail).1

/-- A value of each type. -/
def Ty.zero : Ty → Value
  | .u256 => .u256 0
  | .u160 => .u160 0
  | .byte => .byte 0
  | .string32 => .string32 (Vector.replicate 32 0)
  | .string => .string ⟨[], by decide⟩

theorem map_ty_zero (ts : List Ty) : (ts.map Ty.zero).map Value.ty = ts := by
  rw [List.map_map]
  refine (List.map_congr_left fun t _ => ?_).trans (List.map_id ts)
  cases t <;> rfl

/-- What is written for a tuple does not depend on its strings of 32 bytes. -/
theorem arguments_string32 (us ws : List Value) (v v' : Vector UInt8 32) :
    arguments (us ++ .string32 v :: ws) = arguments (us ++ .string32 v' :: ws) := by
  have hfixed : (Value.string32 v).fixed = (Value.string32 v').fixed := by
    simp [Value.fixed, populate]
  have htails : tails (us ++ .string32 v :: ws) = tails (us ++ .string32 v' :: ws) := by
    rw [tails, tails, List.filterMap_append, List.filterMap_append]
    rfl
  have hheads (o : ℕ) : heads o (us ++ .string32 v :: ws) = heads o (us ++ .string32 v' :: ws) := by
    rw [heads_append, heads_append, heads, heads, hfixed]
    rfl
  rw [arguments, arguments, hheads, htails, List.length_append, List.length_append]
  rfl

theorem not_roundTrips_string32 (ts us : List Ty) :
    ∃ vs : List Value, vs.map Value.ty = ts ++ .string32 :: us ∧ ¬RoundTrips C id vs := by
  by_contra hall
  simp only [not_exists, not_and, not_not] at hall
  have hread (v : Vector UInt8 32) := (hall (ts.map Ty.zero ++ .string32 v :: us.map Ty.zero)
    (by rw [List.map_append, List.map_cons, map_ty_zero, map_ty_zero]; rfl)).deserialise_eq
  have hzero := hread (Vector.replicate 32 0)
  rw [arguments_string32 _ _ _ (Vector.replicate 32 1)] at hzero
  exact absurd (hzero.symm.trans (hread (Vector.replicate 32 1))) (by decide)

/-- A byte is read as zero, after values that take their places. -/
theorem not_roundTrips_byte (ts us : List Ty) (hplain : ∀ t ∈ ts, t.isPlain = true) :
    ∃ vs : List Value, vs.map Value.ty = ts ++ .byte :: us ∧ ¬RoundTrips C id vs := by
  refine ⟨ts.map Ty.zero ++ .byte 1 :: us.map Ty.zero, ?_, fun h => ?_⟩
  · rw [List.map_append, List.map_cons, map_ty_zero, map_ty_zero]
    rfl
  · have hread := h.deserialise_eq
    have hplain' : ∀ v ∈ ts.map Ty.zero, v.ty.isPlain = true := by
      intro v hv
      obtain ⟨t, ht, rfl⟩ := List.mem_map.mp hv
      have hty : t.zero.ty = t := by cases t <;> rfl
      rw [hty]
      exact hplain t ht
    obtain ⟨o, y, harguments⟩ : ∃ o y, arguments (ts.map Ty.zero ++ .byte 1 :: us.map Ty.zero) =
        (heads o (ts.map Ty.zero)).flatten ++ List.replicate 31 0 ++ [0] ++ y := by
      rw [arguments, heads_append, List.flatten_append, heads]
      simp only [Value.dynamic, List.flatten_cons, Value.fixed, List.append_assoc]
      exact ⟨_, _, rfl⟩
    have hcut := cropped_append ((heads o (ts.map Ty.zero)).flatten ++ List.replicate 31 0) [0] y
    rw [List.length_append, length_heads hplain', List.length_replicate, List.length_singleton,
      ← harguments] at hcut
    rw [Value.ty, deserialise, hcut] at hread
    exact absurd hread (by decide)

/-! ## Strings that start too far -/

/-- Blocks of 32 bytes that start with zero. -/
def StartsZero (b : Bytes) : Prop := 32 ∣ b.length ∧ ∀ j, b.getD (j * 32) 0 = 0

theorem StartsZero.append (ha : StartsZero a) (hb : StartsZero b) : StartsZero (a ++ b) := by
  refine ⟨?_, fun j => ?_⟩
  · rw [List.length_append]
    exact Nat.dvd_add ha.1 hb.1
  · obtain ⟨k, hk⟩ := ha.1
    rcases Nat.lt_or_ge (j * 32) a.length with hlt | hge
    · rw [List.getD_append _ _ _ _ hlt, ha.2 j]
    · have hat : j * 32 - a.length = (j - k) * 32 := by omega
      rw [List.getD_append_right _ _ _ _ hge, hat, hb.2]

theorem StartsZero.flatten {xs : List Bytes} (h : ∀ b ∈ xs, StartsZero b) :
    StartsZero xs.flatten := by
  induction xs with
  | nil => exact ⟨Nat.dvd_zero _, fun _ => rfl⟩
  | cons b xs ih =>
      rw [List.flatten_cons]
      exact (h b (.head _)).append (ih fun b hb => h b (.tail _ hb))

theorem startsZero_replicate (k : ℕ) : StartsZero (List.replicate (k * 32) 0) := by
  refine ⟨by simp, fun j => ?_⟩
  rw [List.getD_eq_getElem?_getD, List.getElem?_replicate]
  split <;> rfl

theorem startsZero_of_block (hlength : b.length = 32) (hhead : b.getD 0 0 = 0) :
    StartsZero b := by
  refine ⟨by rw [hlength], fun j => ?_⟩
  rcases Nat.eq_zero_or_pos j with rfl | hj
  · rwa [Nat.zero_mul]
  · rw [List.getD_eq_default _ _ (by omega)]

theorem startsZero_word (hn : n < 2 ^ 64) : StartsZero (word n) := by
  have hword : word n = 0 :: bigEndian 31 n := by
    have hread : fromBigEndian (0 :: bigEndian 31 n) = n := by
      rw [fromBigEndian_cons, fromBigEndian_bigEndian _ _ (lt_trans hn (by decide))]
      simp
    have hback := bigEndian_fromBigEndian (0 :: bigEndian 31 n)
    rwa [hread, List.length_cons, bigEndian_length] at hback
  refine startsZero_of_block (length_word n) ?_
  rw [hword]
  rfl

/-- The same value with zeros. -/
def Value.zeroed : Value → Value
  | .string s => .string ⟨List.replicate s.chars.length 0, by simpa using s.size_lt⟩
  | v => v.ty.zero

theorem Value.ty_zeroed (v : Value) : v.zeroed.ty = v.ty := by
  cases v <;> rfl

theorem startsZero_stringData (s : StdString) (hs : ∃ k, s.chars = List.replicate k 0) :
    StartsZero (stringData s.chars) := by
  obtain ⟨k, hk⟩ := hs
  have hlength : s.chars.length = k := by rw [hk, List.length_replicate]
  refine (startsZero_word s.size_lt).append ?_
  rw [populate, hlength, hk, List.take_of_length_le (by rw [List.length_replicate]; omega),
    List.replicate_append_replicate]
  have hsum : k + ((k + 31) / 32 * 32 - k) = (k + 31) / 32 * 32 := by omega
  rw [hsum]
  exact startsZero_replicate _

theorem startsZero_fixed (hplain : v.ty.isPlain = true) : StartsZero v.zeroed.fixed := by
  cases v with
  | u256 v => exact startsZero_word (n := 0) (by decide)
  | u160 v => exact startsZero_replicate 1
  | byte v => cases hplain
  | string32 v => cases hplain
  | string s => exact startsZero_word (n := 0) (by decide)

theorem startsZero_dynamic (hd : v.zeroed.dynamic = some d) : StartsZero d := by
  cases v with
  | string s =>
      obtain rfl := Option.some.inj hd
      exact startsZero_stringData _ ⟨_, rfl⟩
  | _ => cases hd

theorem startsZero_heads (hvs : ∀ v ∈ vs, StartsZero v.fixed) :
    StartsZero (heads o vs).flatten := by
  refine StartsZero.flatten fun b hb => ?_
  induction vs generalizing o with
  | nil => cases hb
  | cons v vs ih =>
      rw [heads] at hb
      cases hdynamic : v.dynamic with
      | none =>
          simp only [hdynamic] at hb
          rcases List.mem_cons.mp hb with rfl | hb
          · exact hvs v (.head _)
          · exact ih (fun v hv => hvs v (.tail _ hv)) hb
      | some d =>
          simp only [hdynamic] at hb
          rcases List.mem_cons.mp hb with rfl | hb
          · exact startsZero_word (lt_trans (Nat.mod_lt _ (by decide)) (by decide : 2 ^ 32 < 2 ^ 64))
          · exact ih (fun v hv => hvs v (.tail _ hv)) hb

theorem length_tails_zeroed (vs : List Value) :
    (tails (vs.map Value.zeroed)).flatten.length = (tails vs).flatten.length := by
  induction vs with
  | nil => rfl
  | cons v vs ih =>
      have hcons (w : Value) (ws : List Value) :
          (tails (w :: ws)).flatten.length = (w.dynamic.getD []).length + (tails ws).flatten.length := by
        rw [tails, List.filterMap_cons]
        cases w.dynamic <;> simp [tails]
      have hlength : (v.zeroed.dynamic.getD []).length = (v.dynamic.getD []).length := by
        cases v with
        | string s => simp [Value.zeroed, Value.dynamic, stringData, length_word, length_populate]
        | _ => rfl
      rw [List.map_cons, hcons, hcons, ih, hlength]

theorem exists_of_not_shortFrom (h : ¬ShortFrom o vs) :
    ∃ us s ws, vs = us ++ .string s :: ws ∧ 2 ^ 32 ≤ o + (tails us).flatten.length := by
  induction vs generalizing o with
  | nil => exact absurd trivial h
  | cons v vs ih =>
      rw [ShortFrom] at h
      cases hdynamic : v.dynamic with
      | none =>
          simp only [hdynamic] at h
          obtain ⟨us, s, ws, rfl, hle⟩ := ih h
          refine ⟨v :: us, s, ws, rfl, ?_⟩
          rwa [tails, List.filterMap_cons, hdynamic]
      | some d =>
          simp only [hdynamic, not_and_or, Nat.not_lt] at h
          rcases h with hle | h
          · cases v with
            | string s => exact ⟨[], s, vs, rfl, hle⟩
            | _ => cases hdynamic
          · obtain ⟨us, s, ws, rfl, hle⟩ := ih h
            refine ⟨v :: us, s, ws, rfl, ?_⟩
            rw [tails, List.filterMap_cons, hdynamic]
            simpa [tails, Nat.add_assoc] using hle

theorem getD_of_cropped {x : UInt8} {start count : ℕ} (h : cropped data start count = [x]) :
    data.getD start 0 = x := by
  rw [cropped] at h
  split at h
  · have hget := congrArg (·.getD 0 0) h
    cases count with
    | zero => cases h
    | succ count => simpa [List.getD_eq_getElem?_getD] using hget
  · cases h

/-- The string of one character, not zero. -/
def one : StdString := ⟨[1], by decide⟩

/-- A string of one character that starts at `2 ^ 32` or later is read as another one. -/
theorem not_roundTrips_long {us ws : List Value} (hus : ∀ v ∈ us, v.ty.isPlain = true)
    (hws : ∀ v ∈ ws, v.ty.isPlain = true)
    (hlong : 2 ^ 32 ≤ (us.length + (ws.length + 1)) * 32 + (tails us).flatten.length) :
    ¬RoundTrips C id (us.map Value.zeroed ++ .string one :: ws.map Value.zeroed) := by
  intro h
  have hread := h.deserialise_eq
  have hplain : ∀ v ∈ us.map Value.zeroed, v.ty.isPlain = true := by
    intro v hv
    obtain ⟨u, hu, rfl⟩ := List.mem_map.mp hv
    rw [Value.ty_zeroed]
    exact hus u hu
  -- the heads, the strings before this one and its length start with zeros
  obtain ⟨y, harguments⟩ : ∃ y,
      arguments (us.map Value.zeroed ++ .string one :: ws.map Value.zeroed) =
        (heads ((us.length + (ws.length + 1)) * 32)
          (us.map Value.zeroed ++ .string one :: ws.map Value.zeroed)).flatten ++
          (tails (us.map Value.zeroed)).flatten ++ word 1 ++ y := by
    rw [arguments, tails, List.filterMap_append, List.filterMap_cons, List.length_append,
      List.length_cons, List.length_map, List.length_map]
    simp only [Value.dynamic, List.flatten_append, List.flatten_cons, stringData, List.append_assoc]
    exact ⟨_, rfl⟩
  obtain ⟨z, hslot⟩ : ∃ z,
      arguments (us.map Value.zeroed ++ .string one :: ws.map Value.zeroed) =
        (heads ((us.length + (ws.length + 1)) * 32) (us.map Value.zeroed)).flatten ++
          word (((us.length + (ws.length + 1)) * 32 + (tails us).flatten.length) % 2 ^ 32) ++ z := by
    rw [harguments, heads_append, heads, length_tails_zeroed]
    simp only [Value.dynamic, List.flatten_append, List.flatten_cons, List.append_assoc]
    exact ⟨_, rfl⟩
  have hall : ∀ v ∈ us.map Value.zeroed ++ .string one :: ws.map Value.zeroed,
      v.ty.isPlain = true ∧ StartsZero v.fixed := by
    have hzeroed {vs : List Value} (hvs : ∀ v ∈ vs, v.ty.isPlain = true) :
        ∀ v ∈ vs.map Value.zeroed, v.ty.isPlain = true ∧ StartsZero v.fixed := by
      intro v hv
      obtain ⟨u, hu, rfl⟩ := List.mem_map.mp hv
      exact ⟨(Value.ty_zeroed u).symm ▸ hvs u hu, startsZero_fixed (hvs u hu)⟩
    intro v hv
    rcases List.mem_append.mp hv with hv | hv
    · exact hzeroed hus v hv
    · rcases List.mem_cons.mp hv with rfl | hv
      · exact ⟨rfl, startsZero_word (n := 0) (by decide)⟩
      · exact hzeroed hws v hv
  have htails : StartsZero (tails (us.map Value.zeroed)).flatten := by
    refine StartsZero.flatten fun b hb => ?_
    obtain ⟨v, hv, hdynamic⟩ := List.mem_filterMap.mp hb
    obtain ⟨u, hu, rfl⟩ := List.mem_map.mp hv
    exact startsZero_dynamic hdynamic
  have hzero := ((startsZero_heads (o := (us.length + (ws.length + 1)) * 32)
    fun v hv => (hall v hv).2).append htails).append (startsZero_word (n := 1) (by decide))
  have hlength := length_heads (o := (us.length + (ws.length + 1)) * 32) fun v hv => (hall v hv).1
  rw [List.length_append, List.length_cons, List.length_map, List.length_map] at hlength
  have htotal := congrArg (· + (tails (us.map Value.zeroed)).flatten.length + 32) hlength
  simp only [length_tails_zeroed] at htotal
  generalize hdata : arguments (us.map Value.zeroed ++ .string one :: ws.map Value.zeroed) = data
    at harguments hslot hread
  generalize (us.length + (ws.length + 1)) * 32 + (tails us).flatten.length = o
    at hlong hslot htotal
  generalize hfirst : (heads ((us.length + (ws.length + 1)) * 32)
    (us.map Value.zeroed ++ .string one :: ws.map Value.zeroed)).flatten ++
    (tails (us.map Value.zeroed)).flatten ++ word 1 = first at harguments hzero
  have hfirstLength : first.length = o + 32 := by
    rw [← hfirst, List.length_append, List.length_append, length_word, length_tails_zeroed, htotal]
  have hat : sizeAt data (us.length * 32) = o % 2 ^ 32 := by
    have hhead := length_heads (o := (us.length + (ws.length + 1)) * 32) hplain
    rw [List.length_map] at hhead
    rw [hslot, ← hhead]
    exact sizeAt_word (lt_trans (Nat.mod_lt _ (by decide)) (by decide))
  have hmod : o % 2 ^ 32 < 2 ^ 32 := Nat.mod_lt _ (by decide)
  have hstart : (o % 2 ^ 32 + 32) % 2 ^ 64 = o % 2 ^ 32 + 32 := Nat.mod_eq_of_lt (by omega)
  have hchars := congrArg StdString.chars (Value.string.inj hread)
  rw [List.length_map, readString_chars, hat, hstart] at hchars
  have hone := getD_of_cropped hchars
  obtain ⟨k, hk⟩ := hzero.1
  have hblock : o % 2 ^ 32 + 32 = (o % 2 ^ 32 / 32 + 1) * 32 := by omega
  rw [harguments, List.getD_append _ _ _ _ (by omega), hblock, hzero.2] at hone
  exact absurd hone (by decide)

/-- **The types whose tuples are all read back** have no byte and no string of 32 bytes, and no
tuple of them has a string that starts too far. -/
theorem roundTrips_iff (C : Crypto) (id : Bytes) (ts : List Ty) :
    (∀ vs : List Value, vs.map Value.ty = ts → RoundTrips C id vs) ↔
      (∀ t ∈ ts, t.isPlain = true) ∧ ∀ vs : List Value, vs.map Value.ty = ts → Short vs := by
  constructor
  · intro hall
    have hplain : ∀ t ∈ ts, t.isPlain = true := by
      by_contra hbad
      simp only [not_forall, Bool.not_eq_true] at hbad
      obtain ⟨t, ht, hbad⟩ := hbad
      -- the first of them
      obtain ⟨us, t, ws, rfl, hus, hbad⟩ : ∃ us t ws, ts = us ++ t :: ws ∧
          (∀ t ∈ us, t.isPlain = true) ∧ t.isPlain = false := by
        have hfind : (ts.find? fun t => !t.isPlain).isSome := by
          rw [List.find?_isSome]
          exact ⟨t, ht, by rw [hbad]; rfl⟩
        obtain ⟨t', hfirst⟩ := Option.isSome_iff_exists.mp hfind
        obtain ⟨hbad', us, ws, rfl, hus⟩ := List.find?_eq_some_iff_append.mp hfirst
        exact ⟨us, t', ws, rfl, by simpa using hus, by simpa using hbad'⟩
      cases t with
      | byte =>
          obtain ⟨vs, hty, hnot⟩ := not_roundTrips_byte us ws hus
          exact hnot (hall vs hty)
      | string32 =>
          obtain ⟨vs, hty, hnot⟩ := not_roundTrips_string32 us ws
          exact hnot (hall vs hty)
      | _ => cases hbad
    refine ⟨hplain, fun vs hty => ?_⟩
    by_contra hlong
    obtain ⟨us, s, ws, rfl, hle⟩ := exists_of_not_shortFrom hlong
    have hplain' : ∀ v ∈ us ++ .string s :: ws, v.ty.isPlain = true := by
      intro v hv
      exact hplain _ (hty ▸ List.mem_map_of_mem hv)
    refine not_roundTrips_long (fun v hv => hplain' v (List.mem_append_left _ hv))
      (fun v hv => hplain' v (List.mem_append_right _ (.tail _ hv)))
      (by simpa using hle) (hall _ ?_)
    rw [← hty]
    simp only [List.map_append, List.map_cons, List.map_map, Function.comp_def, Value.ty_zeroed]
    rfl
  · rintro ⟨hplain, hshort⟩ vs rfl
    exact roundTrips_of_short (fun v hv => hplain _ (List.mem_map_of_mem hv)) (hshort vs rfl)

end ContractABI

/-! ## One string -/

namespace ABISerialiser

/-- `ABISerialiser<std::string>::serialise`. -/
def serialise (s : Bytes) : Bytes :=
  ContractABI.word 32 ++ ContractABI.word s.length ++
    ContractABI.populate s ((s.length + 31) / 32 * 32)

end ABISerialiser

namespace ABIDeserialiser

open ContractABI

/-- A number at a place, as a `uint16_t`. -/
def shortAt (data : Bytes) (start : ℕ) : ℕ := fromBigEndian (cropped data start 32) % 2 ^ 16

/-- `abiOut<std::string>`. -/
def abiOut (data : Bytes) : Bytes :=
  let o := shortAt data 0
  let s := shortAt data o
  populate (cropped data (o + 32) s) s

/-- What is read is the start of the string, of the length that is left. -/
theorem abiOut_serialise {s : Bytes} (hs : s.length < 2 ^ 64) :
    abiOut (ABISerialiser.serialise s) = s.take (s.length % 2 ^ 16) := by
  have hnumber (a b : Bytes) (n : ℕ) (hn : n < 2 ^ 64) :
      shortAt (a ++ word n ++ b) a.length = n % 2 ^ 16 := by
    have hread := cropped_append a (word n) b
    rw [length_word] at hread
    rw [shortAt, hread, word, fromBigEndian_bigEndian _ _ (lt_trans hn (by decide))]
  have hoffset : shortAt (ABISerialiser.serialise s) 0 = 32 := by
    have hread := hnumber [] (word s.length ++ populate s ((s.length + 31) / 32 * 32)) 32 (by decide)
    rwa [List.nil_append, ← List.append_assoc] at hread
  have hlength : shortAt (ABISerialiser.serialise s) 32 = s.length % 2 ^ 16 :=
    hnumber (word 32) (populate s ((s.length + 31) / 32 * 32)) s.length hs
  have hle : s.length % 2 ^ 16 ≤ s.length := Nat.mod_le _ _
  have hchars : cropped (ABISerialiser.serialise s) 64 (s.length % 2 ^ 16) =
      s.take (s.length % 2 ^ 16) := by
    have hcut := cropped_append (word 32 ++ word s.length) (s.take (s.length % 2 ^ 16))
      (s.drop (s.length % 2 ^ 16) ++
        List.replicate ((s.length + 31) / 32 * 32 - s.length) 0)
    rw [List.length_append, length_word, length_word, List.length_take, Nat.min_eq_left hle,
      List.append_assoc _ (s.take _), ← List.append_assoc (s.take _), List.take_append_drop] at hcut
    rw [ABISerialiser.serialise, populate, List.take_of_length_le (by omega)]
    exact hcut
  rw [abiOut, hoffset, hlength, hchars, populate, List.length_take, Nat.min_eq_left hle,
    Nat.sub_self, List.replicate_zero, List.append_nil, List.take_take, Nat.min_self]

/-- **A string is read back exactly if its length fits a `uint16_t`.** -/
theorem abiOut_serialise_iff {s : Bytes} (hs : s.length < 2 ^ 64) :
    abiOut (ABISerialiser.serialise s) = s ↔ s.length < 2 ^ 16 := by
  rw [abiOut_serialise hs]
  constructor
  · intro heq
    have hlength := congrArg List.length heq
    rw [List.length_take] at hlength
    have hlt : s.length % 2 ^ 16 < 2 ^ 16 := Nat.mod_lt _ (by decide)
    omega
  · intro hlt
    rw [Nat.mod_eq_of_lt hlt, List.take_length]

end ABIDeserialiser

/-! ## Both directions -/

namespace ContractABI

/-- **Decoding inverts encoding** for tuples of numbers and strings that start below `2 ^ 32`,
for the lists of types all of whose tuples are such, and for single strings below `2 ^ 16`. -/
theorem decoding_inverts_encoding (C : Crypto) (id : Bytes) :
    (∀ vs : List Value, (∀ v ∈ vs, v.ty.isPlain = true) → Short vs → RoundTrips C id vs) ∧
      (∀ ts : List Ty, (∀ vs : List Value, vs.map Value.ty = ts → RoundTrips C id vs) ↔
        (∀ t ∈ ts, t.isPlain = true) ∧ ∀ vs : List Value, vs.map Value.ty = ts → Short vs) ∧
      ∀ s : Bytes, s.length < 2 ^ 32 →
        (ABIDeserialiser.abiOut (ABISerialiser.serialise s) = s ↔ s.length < 2 ^ 16) :=
  ⟨fun _ hplain hshort => roundTrips_of_short hplain hshort, roundTrips_iff C id,
    fun _ hs => ABIDeserialiser.abiOut_serialise_iff (lt_trans hs (by decide))⟩

/-- A number and a string. -/
theorem decoding_number_and_string :
    Short [.u256 7, .string one] ∧
      RoundTrips WireHeader.numberCrypto [] [.u256 7, .string one] := by
  have hshort : Short [.u256 7, .string one] := ⟨by decide, trivial⟩
  exact ⟨hshort, (decoding_inverts_encoding WireHeader.numberCrypto []).1 _ (by decide) hshort⟩

/-- A byte, a string of 32 bytes, and a string of `2 ^ 16` bytes, which is read as none. -/
theorem decoding_byte_and_long_string :
    ¬RoundTrips WireHeader.numberCrypto [] [.byte 1] ∧
      ¬RoundTrips WireHeader.numberCrypto [] [.string32 (Vector.replicate 32 97)] ∧
      ABIDeserialiser.abiOut (ABISerialiser.serialise (List.replicate (2 ^ 16) 97)) ≠
        List.replicate (2 ^ 16) 97 := by
  refine ⟨by decide +kernel, by decide +kernel, fun heq => ?_⟩
  have hlength : (List.replicate (2 ^ 16) (97 : UInt8)).length = 2 ^ 16 := List.length_replicate
  have hlt := (ABIDeserialiser.abiOut_serialise_iff (by rw [hlength]; decide)).mp heq
  rw [hlength] at hlt
  exact absurd hlt (by decide)

end ContractABI

end CppSwc
