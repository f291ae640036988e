import CppSwc.Trie.TrieDB

/-!
# Hex-prefix coding

The overloads of `hexPrefixEncode` in `TrieCommon`: of a vector with a nibble in every byte, of
a part of the nibbles of a byte string, and of two slices one behind the other.  `NibbleSlice`
is a byte string with the nibble that it starts at.

Positions are values of type `unsigned`.  A read past the end has no result.
-/

namespace CppSwc.Trie

/-- An integer as an `unsigned`. -/
def unsigned (n : ℤ) : ℕ := (n % 2 ^ 32).toNat

/-- `nibble`. -/
def nibble (data : Bytes) (i : ℕ) : Option (Fin 16) :=
  data[i / 2]?.map fun b => if i % 2 = 1 then nibbleOf (b.toNat % 16) else nibbleOf (b.toNat / 16)

/-- The first byte, before a nibble is put into it. -/
def flagByte (leaf odd : Bool) : UInt8 := ((if leaf then 2 else 0) ||| (if odd then 1 else 0)) * 16

/-! ## From a vector of nibbles -/

/-- The loop that takes two nibbles at a time. -/
def pushPairs (hexVector : Bytes) (stop : ℕ) : ℕ → ℕ → Bytes → Option Bytes
  | 0, _, _ => none
  | fuel + 1, i, ret =>
      if i < stop then do
        let a ← hexVector[i]?
        let b ← hexVector[i + 1]?
        pushPairs hexVector stop fuel ((i + 2) % 2 ^ 32) (ret ++ [a * 16 + b])
      else some ret

/-- `hexPrefixEncode`, of a vector of nibbles. -/
def encodeVector (hexVector : Bytes) (leaf : Bool) (beginInt endInt : ℤ) : Option Bytes := do
  let start := unsigned beginInt
  let stop := if endInt < 0 then unsigned (hexVector.length + 1 + endInt) else unsigned endInt
  let odd := decide (unsigned (stop - start) % 2 ≠ 0)
  let ret := flagByte leaf odd
  if odd then
    let x ← hexVector[start]?
    pushPairs hexVector stop (stop - start + 1) (start + 1) [ret ||| x]
  else pushPairs hexVector stop (stop - start + 1) start [ret]

/-! ## From bytes -/

/-- A nibble is put on the back, or pushed behind it. -/
def pushNibble (ret : Bytes) (d : ℕ) (n : Fin 16) : Bytes :=
  if d % 2 = 1 then ret.dropLast ++ [ret.getLastD 0 ||| UInt8.ofNat n.val]
  else ret ++ [UInt8.ofNat (n.val * 16)]

/-- The loop over so many nibbles. -/
def pushNibbles (data : Bytes) : ℕ → ℕ → Bytes × ℕ → Option (Bytes × ℕ)
  | 0, _, s => some s
  | count + 1, i, (ret, d) => do
      let n ← nibble data i
      pushNibbles data count (i + 1) (pushNibble ret d n, (d + 1) % 2 ^ 32)

/-- `hexPrefixEncode`, of a part of the nibbles of a byte string. -/
def encodeRange (data : Bytes) (leaf : Bool) (beginNibble endNibble : ℤ) (offset : ℕ) :
    Option Bytes :=
  let start := unsigned (beginNibble + offset)
  let stop := unsigned
    ((if endNibble < 0 then (data.length * 2 - offset) + 1 + endNibble else endNibble) + offset)
  let odd := decide (unsigned (stop - start) % 2 = 1)
  (pushNibbles data (stop - start) start ([flagByte leaf odd], if odd then 1 else 2)).map Prod.fst

/-- `hexPrefixEncode`, of two slices. -/
def encodeSlices (d₁ : Bytes) (o₁ : ℕ) (d₂ : Bytes) (o₂ : ℕ) (leaf : Bool) : Option Bytes := do
  let stop₁ := unsigned (d₁.length * 2)
  let stop₂ := unsigned (d₂.length * 2)
  let odd := decide (unsigned (stop₁ - o₁ + stop₂ - o₂) % 2 = 1)
  let s ← pushNibbles d₁ (stop₁ - o₁) o₁ ([flagByte leaf odd], if odd then 1 else 2)
  (pushNibbles d₂ (stop₂ - o₂) o₂ s).map Prod.fst

/-! ## Reading -/

/-- `NibbleSlice`. -/
structure NibbleSlice where
  data : Bytes
  offset : ℕ

/-- `size`. -/
def NibbleSlice.size (s : NibbleSlice) : ℕ := unsigned (s.data.length * 2 - s.offset)

/-- `operator[]`. -/
def NibbleSlice.get (s : NibbleSlice) (index : ℕ) : Option (Fin 16) :=
  nibble s.data ((s.offset + index) % 2 ^ 32)

/-- `keyOf`. -/
def sliceOf : Bytes → NibbleSlice
  | [] => ⟨[], 0⟩
  | b :: hpe => if b &&& 0x10 ≠ 0 then ⟨b :: hpe, 1⟩ else ⟨b :: hpe, 2⟩

/-- `isLeaf`, which asserts that the item is a pair. -/
def isLeafOf : Rlp → Option Bool
  | .list [hpe, _] => hpe.toBytes.head?.map fun b => decide (b &&& 0x20 ≠ 0)
  | _ => none

/-- A slice reads a sequence of nibbles. -/
structure NibbleSlice.Reads (s : NibbleSlice) (k : Nibbles) : Prop where
  size_eq : s.size = k.length
  get_eq : ∀ i < k.length, s.get i = k[i]?

/-! ## What the overloads are asked for -/

/-- A part of a vector of nibbles is a sequence of nibbles.  A negative end counts from the back,
the last position being `-1`. -/
structure VectorExpresses (hexVector : Bytes) (beginInt endInt : ℤ) (start stop : ℕ) (k : Nibbles) :
    Prop where
  begin_eq : beginInt = start
  end_eq : (0 ≤ endInt ∧ endInt = stop) ∨ (endInt < 0 ∧ hexVector.length + 1 + endInt = stop)
  le : start ≤ stop
  lt : stop < 2 ^ 32
  nibbles : (hexVector.drop start).take (stop - start) = k.map fun n => UInt8.ofNat n.val
  inside : stop ≤ hexVector.length

/-- A part of the nibbles of a byte string, counted from an offset. -/
structure RangeExpresses (data : Bytes) (beginNibble endNibble : ℤ) (offset start stop : ℕ)
    (k : Nibbles) : Prop where
  begin_eq : beginNibble + offset = start
  end_eq : (0 ≤ endNibble ∧ endNibble + offset = stop) ∨
    (endNibble < 0 ∧ (data.length * 2 : ℤ) + 1 + endNibble = stop)
  le : start ≤ stop
  lt : stop < 2 ^ 32
  nibbles : ((asNibbles data).drop start).take (stop - start) = k
  inside : stop ≤ (asNibbles data).length

/-- The nibbles of two slices, one behind the other. -/
structure SlicesExpress (d₁ : Bytes) (o₁ : ℕ) (d₂ : Bytes) (o₂ : ℕ) (k : Nibbles) : Prop where
  le₁ : o₁ ≤ (asNibbles d₁).length
  le₂ : o₂ ≤ (asNibbles d₂).length
  lt₁ : (asNibbles d₁).length < 2 ^ 32
  lt₂ : (asNibbles d₂).length < 2 ^ 32
  nibbles : (asNibbles d₁).drop o₁ ++ (asNibbles d₂).drop o₂ = k

/-! ## Nibbles of bytes -/

theorem unsigned_of_lt {n : ℕ} (h : n < 2 ^ 32) : unsigned n = n := by
  rw [unsigned]
  omega

theorem nibble_eq (data : Bytes) (i : ℕ) : nibble data i = (asNibbles data)[i]? := by
  induction data generalizing i with
  | nil => rfl
  | cons b data ih =>
      have hcons : asNibbles (b :: data) = halves b ++ asNibbles data := rfl
      rcases i with - | - | i
      · rfl
      · rfl
      · have hdiv : (i + 2) / 2 = i / 2 + 1 := by omega
        have hmod : (i + 2) % 2 = i % 2 := by omega
        rw [hcons, halves, List.cons_append, List.cons_append, List.getElem?_cons_succ,
          List.getElem?_cons_succ, List.nil_append, ← ih, nibble, nibble, hdiv, hmod,
          List.getElem?_cons_succ]

/-- The nibbles from a position on, split at it. -/
theorem exists_split_of_window {α : Type} {l k : List α} {start stop : ℕ} (hle : start ≤ stop)
    (hin : stop ≤ l.length) (hk : (l.drop start).take (stop - start) = k) :
    ∃ pre post, l = pre ++ k ++ post ∧ pre.length = start ∧ k.length = stop - start := by
  refine ⟨l.take start, (l.drop start).drop (stop - start), ?_, ?_, ?_⟩
  · rw [← hk, List.append_assoc, List.take_append_drop, List.take_append_drop]
  · rw [List.length_take]
    omega
  · rw [← hk, List.length_take, List.length_drop]
    omega

theorem pushNibble_even {d : ℕ} (hd : d % 2 = 0) (ret : Bytes) (n : Fin 16) :
    pushNibble ret d n = ret ++ [UInt8.ofNat (n.val * 16)] := by
  rw [pushNibble, if_neg (by omega)]

theorem pushNibble_odd {d : ℕ} (hd : d % 2 = 1) (ret : Bytes) (b : UInt8) (n : Fin 16) :
    pushNibble (ret ++ [b]) d n = ret ++ [b ||| UInt8.ofNat n.val] := by
  rw [pushNibble, if_pos hd, List.dropLast_concat, List.getLastD_concat]

theorem low_or_high (a b : Fin 16) :
    UInt8.ofNat (a.val * 16) ||| UInt8.ofNat b.val = UInt8.ofNat (a.val * 16 + b.val) := by
  revert a b
  decide +kernel

theorem byte_of_pair (a b : Fin 16) :
    UInt8.ofNat a.val * 16 + UInt8.ofNat b.val = UInt8.ofNat (a.val * 16 + b.val) := by
  revert a b
  decide +kernel

/-- The first byte is the nibble with the flags and the one that is put into it. -/
theorem flagByte_or (k : Nibbles) (leaf : Bool) (x : Fin 16) :
    flagByte leaf (decide (k.length % 2 = 1)) ||| UInt8.ofNat x.val =
      UInt8.ofNat ((flags k leaf).val * 16 + x.val) := by
  rw [flags_eq]
  generalize decide (k.length % 2 = 1) = odd
  revert leaf odd x
  decide +kernel

/-! ## From bytes -/

/-- What the loop does with a list of nibbles. -/
def pushAll (s : Bytes × ℕ) (k : Nibbles) : Bytes × ℕ :=
  k.foldl (fun s n => (pushNibble s.1 s.2 n, (s.2 + 1) % 2 ^ 32)) s

theorem pushNibbles_eq {data : Bytes} {pre post k : Nibbles} (hdata : asNibbles data = pre ++ k ++ post)
    (s : Bytes × ℕ) : pushNibbles data k.length pre.length s = some (pushAll s k) := by
  induction k generalizing pre s with
  | nil => rfl
  | cons n k ih =>
      have hn : nibble data pre.length = some n := by
        rw [nibble_eq, hdata, List.append_assoc, List.getElem?_append_right le_rfl, Nat.sub_self]
        rfl
      have hnext : asNibbles data = (pre ++ [n]) ++ k ++ post := by
        rw [hdata, List.append_assoc pre [n] k, List.singleton_append]
      have hrest := ih hnext (pushNibble s.1 s.2 n, (s.2 + 1) % 2 ^ 32)
      rw [List.length_append, List.length_singleton] at hrest
      rw [List.length_cons, pushNibbles, hn]
      exact hrest

/-- Pairs of nibbles are pushed as bytes. -/
theorem pushAll_packed {k : Nibbles} (hk : k.length % 2 = 0) (ret : Bytes) {d : ℕ} (hd : d % 2 = 0) :
    (pushAll (ret, d) k).1 = ret ++ packed k := by
  induction k using packed.induct generalizing ret d with
  | case1 a b k ih =>
      rw [List.length_cons, List.length_cons] at hk
      have hd' : (d + 1) % 2 ^ 32 % 2 = 1 := by omega
      have hstep : pushAll (ret, d) (a :: b :: k) =
          pushAll (ret ++ [UInt8.ofNat (a.val * 16 + b.val)], ((d + 1) % 2 ^ 32 + 1) % 2 ^ 32) k := by
        rw [pushAll, List.foldl_cons, List.foldl_cons]
        simp only [pushNibble_even hd, pushNibble_odd hd', low_or_high]
        rfl
      rw [hstep, ih (by omega) _ (by omega), packed, List.append_assoc, List.singleton_append]
  | case2 k hshort =>
      rcases k with - | ⟨a, - | ⟨b, k⟩⟩
      · exact (List.append_nil ret).symm
      · cases hk
      · exact absurd rfl (hshort a b k)

theorem hexPrefixEncode_of_odd {x : Fin 16} {k : Nibbles} (hodd : (x :: k).length % 2 = 1)
    (leaf : Bool) :
    hexPrefixEncode (x :: k) leaf = [flagByte leaf true ||| UInt8.ofNat x.val] ++ packed k := by
  have hflag := flagByte_or (x :: k) leaf x
  rw [hodd] at hflag
  rw [hexPrefixEncode, if_pos hodd, packed, ← hflag]
  rfl

theorem hexPrefixEncode_of_even {k : Nibbles} (heven : ¬k.length % 2 = 1) (leaf : Bool) :
    hexPrefixEncode k leaf = [flagByte leaf false] ++ packed k := by
  have hflag := flagByte_or k leaf 0
  have hzero : flagByte leaf false ||| UInt8.ofNat (0 : Fin 16).val = flagByte leaf false :=
    UInt8.or_zero
  rw [decide_eq_false heven, hzero] at hflag
  rw [hexPrefixEncode, if_neg heven, packed, ← hflag]
  rfl

/-- From the byte with the flags on, the loop gives the coding. -/
theorem pushAll_flagByte (k : Nibbles) (leaf : Bool) :
    (pushAll ([flagByte leaf (decide (k.length % 2 = 1))],
      if decide (k.length % 2 = 1) = true then 1 else 2) k).1 = hexPrefixEncode k leaf := by
  by_cases hodd : k.length % 2 = 1
  · cases k with
    | nil => cases hodd
    | cons x k =>
        have heven : k.length % 2 = 0 := by
          rw [List.length_cons] at hodd
          omega
        have hback : pushNibble [flagByte leaf true] 1 x = [flagByte leaf true ||| UInt8.ofNat x.val] :=
          pushNibble_odd rfl [] _ x
        have htwo : (1 + 1) % 2 ^ 32 % 2 = 0 := by decide
        simp only [hexPrefixEncode_of_odd hodd, hodd, decide_true, if_true]
        rw [pushAll, List.foldl_cons, hback]
        exact pushAll_packed heven _ htwo
  · simp only [hexPrefixEncode_of_even hodd, hodd, decide_false, Bool.false_eq_true, if_false]
    exact pushAll_packed (by omega) _ rfl

theorem unsigned_sub {start stop : ℕ} (hle : start ≤ stop) (hlt : stop < 2 ^ 32) :
    unsigned ((stop : ℤ) - start) = stop - start := by
  rw [unsigned]
  omega

/-- The part of the nibbles of a byte string is coded. -/
theorem encodeRange_eq {data : Bytes} {beginNibble endNibble : ℤ} {offset start stop : ℕ} {k : Nibbles}
    (h : RangeExpresses data beginNibble endNibble offset start stop k) (leaf : Bool) :
    encodeRange data leaf beginNibble endNibble offset = some (hexPrefixEncode k leaf) := by
  obtain ⟨pre, post, hdata, hpre, hlength⟩ := exists_split_of_window h.le h.inside h.nibbles
  have hend : (if endNibble < 0 then ((data.length : ℤ) * 2 - offset) + 1 + endNibble else endNibble) +
      offset = stop := by
    rcases h.end_eq with ⟨hnonneg, heq⟩ | ⟨hneg, heq⟩
    · rw [if_neg (by omega), heq]
    · rw [if_pos hneg]
      omega
  have hstart : start < 2 ^ 32 := lt_of_le_of_lt h.le h.lt
  have hrun := pushNibbles_eq hdata ([flagByte leaf (decide (k.length % 2 = 1))],
    if decide (k.length % 2 = 1) = true then 1 else 2)
  rw [hlength, hpre] at hrun
  have hflag := pushAll_flagByte k leaf
  rw [hlength] at hflag
  simp only [encodeRange, hend, h.begin_eq, unsigned_of_lt hstart, unsigned_of_lt h.lt,
    unsigned_sub h.le h.lt, hrun, Option.map_some, hflag]

/-- The nibbles of two slices are coded. -/
theorem encodeSlices_eq {d₁ d₂ : Bytes} {o₁ o₂ : ℕ} {k : Nibbles}
    (h : SlicesExpress d₁ o₁ d₂ o₂ k) (leaf : Bool) :
    encodeSlices d₁ o₁ d₂ o₂ leaf = some (hexPrefixEncode k leaf) := by
  have hle₁ := h.le₁
  have hle₂ := h.le₂
  have hlt₁ := h.lt₁
  have hlt₂ := h.lt₂
  have hd₁ : unsigned ((d₁.length : ℤ) * 2) = (asNibbles d₁).length := by
    rw [asNibbles_length] at hlt₁ ⊢
    rw [unsigned]
    omega
  have hd₂ : unsigned ((d₂.length : ℤ) * 2) = (asNibbles d₂).length := by
    rw [asNibbles_length] at hlt₂ ⊢
    rw [unsigned]
    omega
  obtain ⟨pre₁, post₁, hdata₁, hpre₁, hlength₁⟩ :=
    exists_split_of_window hle₁ le_rfl (List.take_of_length_le (by rw [List.length_drop]))
  obtain ⟨pre₂, post₂, hdata₂, hpre₂, hlength₂⟩ :=
    exists_split_of_window hle₂ le_rfl (List.take_of_length_le (by rw [List.length_drop]))
  have hk : k.length = (asNibbles d₁).length - o₁ + ((asNibbles d₂).length - o₂) := by
    rw [← h.nibbles, List.length_append, List.length_drop, List.length_drop]
  have hodd : decide (unsigned (((asNibbles d₁).length : ℤ) - o₁ + (asNibbles d₂).length - o₂) % 2 = 1) =
      decide (k.length % 2 = 1) := by
    rw [unsigned, hk]
    congr 1
    apply propext
    omega
  have hrun₁ := pushNibbles_eq hdata₁ ([flagByte leaf (decide (k.length % 2 = 1))],
    if decide (k.length % 2 = 1) = true then 1 else 2)
  rw [hlength₁, hpre₁] at hrun₁
  have hrun₂ := pushNibbles_eq hdata₂ (pushAll ([flagByte leaf (decide (k.length % 2 = 1))],
    if decide (k.length % 2 = 1) = true then 1 else 2) ((asNibbles d₁).drop o₁))
  rw [hlength₂, hpre₂] at hrun₂
  simp only [encodeSlices, hd₁, hd₂, hodd, hrun₁, hrun₂, Option.bind_eq_bind, Option.bind_some,
    Option.map_some]
  rw [pushAll, pushAll, ← List.foldl_append, h.nibbles]
  exact congrArg some (pushAll_flagByte k leaf)

/-! ## From a vector -/

theorem pushPairs_eq {hexVector pre post : Bytes} {k : Nibbles} (hk : k.length % 2 = 0) {fuel : ℕ}
    (hvector : hexVector = pre ++ k.map (fun n => UInt8.ofNat n.val) ++ post)
    (hlt : pre.length + k.length < 2 ^ 32) (hfuel : k.length < fuel) (ret : Bytes) :
    pushPairs hexVector (pre.length + k.length) fuel pre.length ret = some (ret ++ packed k) := by
  induction k using packed.induct generalizing pre ret fuel with
  | case1 a b k ih =>
      obtain ⟨fuel, rfl⟩ := Nat.exists_eq_succ_of_ne_zero (Nat.ne_zero_of_lt hfuel)
      simp only [List.length_cons] at hk hlt hfuel ⊢
      have hsplit : hexVector = pre ++
          (UInt8.ofNat a.val :: UInt8.ofNat b.val :: (k.map (fun n => UInt8.ofNat n.val) ++ post)) := by
        rw [hvector, List.append_assoc]
        rfl
      have ha : hexVector[pre.length]? = some (UInt8.ofNat a.val) := by
        rw [hsplit, List.getElem?_append_right le_rfl, Nat.sub_self]
        rfl
      have hb : hexVector[pre.length + 1]? = some (UInt8.ofNat b.val) := by
        have hone : pre.length + 1 - pre.length = 1 := by omega
        rw [hsplit, List.getElem?_append_right (Nat.le_succ _), hone]
        rfl
      have hnext : hexVector = (pre ++ [UInt8.ofNat a.val, UInt8.ofNat b.val]) ++
          k.map (fun n => UInt8.ofNat n.val) ++ post := by
        rw [hsplit, List.append_assoc, List.append_assoc]
        rfl
      have hlength : (pre ++ [UInt8.ofNat a.val, UInt8.ofNat b.val]).length = pre.length + 2 := by
        rw [List.length_append]
        rfl
      have hrest := ih (by omega) hnext (by omega) (show k.length < fuel by omega)
        (ret ++ [UInt8.ofNat (a.val * 16 + b.val)])
      rw [hlength] at hrest
      have hstop : pre.length + (k.length + 1 + 1) = pre.length + 2 + k.length := by omega
      rw [pushPairs, if_pos (by omega), ha, hb]
      simp only [Option.bind_eq_bind, Option.bind_some, byte_of_pair,
        Nat.mod_eq_of_lt (show pre.length + 2 < 2 ^ 32 by omega), hstop, hrest]
      rw [packed, List.append_assoc, List.singleton_append]
  | case2 k hshort =>
      obtain ⟨fuel, rfl⟩ := Nat.exists_eq_succ_of_ne_zero (Nat.ne_zero_of_lt hfuel)
      rcases k with - | ⟨a, - | ⟨b, k⟩⟩
      · rw [pushPairs, if_neg (by simp)]
        exact congrArg some (List.append_nil ret).symm
      · cases hk
      · exact absurd rfl (hshort a b k)

/-- The part of a vector is coded. -/
theorem encodeVector_eq {hexVector : Bytes} {beginInt endInt : ℤ} {start stop : ℕ} {k : Nibbles}
    (h : VectorExpresses hexVector beginInt endInt start stop k) (leaf : Bool) :
    encodeVector hexVector leaf beginInt endInt = some (hexPrefixEncode k leaf) := by
  obtain ⟨pre, post, hvector, hpre, hlength⟩ := exists_split_of_window h.le h.inside h.nibbles
  rw [List.length_map] at hlength
  have hlt := h.lt
  have hle := h.le
  have hend : (if endInt < 0 then unsigned (hexVector.length + 1 + endInt) else unsigned endInt) =
      stop := by
    rcases h.end_eq with ⟨hnonneg, heq⟩ | ⟨hneg, heq⟩
    · rw [if_neg (by omega), heq, unsigned_of_lt hlt]
    · rw [if_pos hneg, heq, unsigned_of_lt hlt]
  have hstart : unsigned beginInt = start := by
    rw [h.begin_eq, unsigned_of_lt (by omega)]
  simp only [encodeVector, hend, hstart, unsigned_sub hle hlt]
  by_cases hodd : k.length % 2 = 1
  · cases k with
    | nil => cases hodd
    | cons x k =>
        have hx : hexVector[start]? = some (UInt8.ofNat x.val) := by
          rw [hvector, List.append_assoc, ← hpre, List.getElem?_append_right le_rfl, Nat.sub_self]
          rfl
        have hnext : hexVector = (pre ++ [UInt8.ofNat x.val]) ++
            k.map (fun n => UInt8.ofNat n.val) ++ post := by
          rw [hvector, List.append_assoc, List.append_assoc, List.append_assoc]
          rfl
        have hlength' : (pre ++ [UInt8.ofNat x.val]).length = start + 1 := by
          rw [List.length_append, hpre]
          rfl
        rw [List.length_cons] at hlength
        have hstop : start + 1 + k.length = stop := by omega
        have hrun := pushPairs_eq (by rw [List.length_cons] at hodd; omega) hnext (by omega)
          (show k.length < stop - start + 1 by omega) [flagByte leaf true ||| UInt8.ofNat x.val]
        rw [hlength', hstop] at hrun
        have hne : (stop - start) % 2 ≠ 0 := by
          rw [List.length_cons] at hodd
          omega
        simp only [hne, ne_eq, not_false_eq_true, decide_true, if_true, hx, Option.bind_eq_bind,
          Option.bind_some, hrun, hexPrefixEncode_of_odd hodd]
  · have hstop : pre.length + k.length = stop := by omega
    have hrun := pushPairs_eq (by omega) hvector (by omega)
      (show k.length < stop - start + 1 by omega) [flagByte leaf false]
    rw [hstop, hpre] at hrun
    have heq : (stop - start) % 2 = 0 := by omega
    simp only [heq, ne_eq, not_true_eq_false, decide_false, Bool.false_eq_true, if_false, hrun,
      hexPrefixEncode_of_even hodd]

/-! ## Reading back -/

/-- What is coded has a byte with the flags and half the nibbles. -/
theorem length_hexPrefixEncode (k : Nibbles) (leaf : Bool) :
    2 * (hexPrefixEncode k leaf).length = k.length + if k.length % 2 = 1 then 1 else 2 := by
  rw [← asNibbles_length, asNibbles_hexPrefixEncode]
  split <;> simp only [List.length_cons]

/-- The slice of the coded bytes starts at the first nibble of the key. -/
theorem sliceOf_hexPrefixEncode (k : Nibbles) (leaf : Bool) :
    sliceOf (hexPrefixEncode k leaf) =
      ⟨hexPrefixEncode k leaf, if k.length % 2 = 1 then 1 else 2⟩ := by
  obtain ⟨x, rest, heq⟩ := exists_hexPrefixEncode k leaf
  have hodd := (flags_bits (decide (k.length % 2 = 1)) leaf x).1
  rw [← flags_eq, decide_eq_true_iff] at hodd
  rw [heq, sliceOf]
  by_cases h : k.length % 2 = 1
  · rw [if_pos (hodd.mpr h), if_pos h]
  · rw [if_neg fun hb => h (hodd.mp hb), if_neg h]

/-- The slice reads the key. -/
theorem reads_sliceOf {k : Nibbles} (hk : k.length < 2 ^ 32) (leaf : Bool) :
    (sliceOf (hexPrefixEncode k leaf)).Reads k := by
  have hlength := length_hexPrefixEncode k leaf
  have hall := asNibbles_hexPrefixEncode k leaf
  rw [sliceOf_hexPrefixEncode]
  by_cases hodd : k.length % 2 = 1
  · simp only [hodd, if_true] at hlength hall ⊢
    refine ⟨?_, fun i hi => ?_⟩
    · rw [NibbleSlice.size, unsigned]
      dsimp only
      omega
    · rw [NibbleSlice.get, nibble_eq, hall]
      dsimp only
      rw [Nat.mod_eq_of_lt (by omega), Nat.add_comm, List.getElem?_cons_succ]
  · simp only [hodd, if_false] at hlength hall ⊢
    refine ⟨?_, fun i hi => ?_⟩
    · rw [NibbleSlice.size, unsigned]
      dsimp only
      omega
    · rw [NibbleSlice.get, nibble_eq, hall]
      dsimp only
      rw [Nat.mod_eq_of_lt (by omega), Nat.add_comm, List.getElem?_cons_succ,
        List.getElem?_cons_succ]

theorem isLeafOf_hexPrefixEncode (k : Nibbles) (leaf : Bool) (x : Rlp) :
    isLeafOf (.list [.data (hexPrefixEncode k leaf), x]) = some leaf := by
  have hleaf := isTerminated_hexPrefixEncode k leaf
  obtain ⟨n, rest, heq⟩ := exists_hexPrefixEncode k leaf
  rw [isTerminated, heq, List.headD_cons] at hleaf
  rw [isLeafOf, Rlp.toBytes, heq, List.head?_cons, Option.map_some, hleaf]

/-- All overloads that are asked for a sequence of nibbles give the same bytes, and the nibbles
and the flag are read back from them. -/
theorem hexPrefixEncode_sound (k : Nibbles) (leaf : Bool) (hk : k.length < 2 ^ 32) :
    (∀ hexVector beginInt endInt start stop,
      VectorExpresses hexVector beginInt endInt start stop k →
        encodeVector hexVector leaf beginInt endInt = some (hexPrefixEncode k leaf)) ∧
    (∀ data beginNibble endNibble offset start stop,
      RangeExpresses data beginNibble endNibble offset start stop k →
        encodeRange data leaf beginNibble endNibble offset = some (hexPrefixEncode k leaf)) ∧
    (∀ d₁ o₁ d₂ o₂, SlicesExpress d₁ o₁ d₂ o₂ k →
      encodeSlices d₁ o₁ d₂ o₂ leaf = some (hexPrefixEncode k leaf)) ∧
    (sliceOf (hexPrefixEncode k leaf)).Reads k ∧
    ∀ x, isLeafOf (.list [.data (hexPrefixEncode k leaf), x]) = some leaf :=
  ⟨fun _ _ _ _ _ h => encodeVector_eq h leaf, fun _ _ _ _ _ _ h => encodeRange_eq h leaf,
    fun _ _ _ _ h => encodeSlices_eq h leaf, reads_sliceOf hk leaf, isLeafOf_hexPrefixEncode k leaf⟩

/-- Every sequence of nibbles is a whole vector. -/
theorem vectorExpresses_self {k : Nibbles} (hk : k.length < 2 ^ 32) :
    VectorExpresses (k.map fun n => UInt8.ofNat n.val) 0 (-1) 0 k.length k where
  begin_eq := rfl
  end_eq := .inr ⟨by decide, by rw [List.length_map]; omega⟩
  le := Nat.zero_le _
  lt := hk
  nibbles := by
    rw [List.drop_zero, Nat.sub_zero]
    exact List.take_of_length_le (by rw [List.length_map])
  inside := by rw [List.length_map]

/-- Three nibbles: as a vector, from an odd offset, and cut in the middle of a byte. -/
theorem hexPrefixEncode_sound_three :
    encodeVector [1, 2, 3] true 0 (-1) = some [0x31, 0x23] ∧
    encodeRange [0x51, 0x23] true 0 (-1) 1 = some [0x31, 0x23] ∧
    encodeSlices [0x51] 1 [0x42, 0x63] 3 true = some [0x20, 0x13] ∧
    (sliceOf [0x31, 0x23]).Reads [1, 2, 3] ∧
    isLeafOf (.list [.data [0x31, 0x23], .data []]) = some true := by
  have h := hexPrefixEncode_sound [1, 2, 3] true (by decide)
  have h' := hexPrefixEncode_sound [1, 3] true (by decide)
  refine ⟨h.1 _ _ _ _ _ (vectorExpresses_self (k := [1, 2, 3]) (by decide)), ?_, ?_, h.2.2.2.1, h.2.2.2.2 _⟩
  · exact h.2.1 _ _ _ _ 1 4 ⟨by decide, by decide, by decide, by decide, by decide, by decide⟩
  · exact h'.2.2.1 _ _ _ _ ⟨by decide, by decide, by decide, by decide, by decide⟩

end CppSwc.Trie
