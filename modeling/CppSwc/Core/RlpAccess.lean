import CppSwc.Core.RlpBytes
import Mathlib.Data.List.GetD

/-!
# Positions in a list

`RLP` finds the items of a list in two ways.  An iterator runs through them with references
into the bytes of the list, and it is at the end when its reference is equal to that of the
end.  `operator[]` keeps the item that it found last and goes on from there, so that what it
does depends on what it was asked before.

Both give the items that `framing` cuts the payload into.
-/

namespace CppSwc.RLP

open Lib

/-! ## References -/

/-- `vector_ref` into a buffer: where it starts and how long it is.  `none` is the null
reference. -/
abbrev Ref := Option (Nat × Nat)

namespace Ref

/-- The bytes that are referred to. -/
def content (d : Bytes) : Ref → Bytes
  | none => []
  | some (start, count) => (d.drop start).take count

/-- `count`. -/
def count : Ref → Nat
  | none => 0
  | some (_, count) => count

/-- `cropped` with a start and a count. -/
def cropped (start count : Nat) : Ref → Ref
  | none => none
  | some (s, n) => if start + count ≤ n then some (s + start, count) else none

/-- `cropped` with a start. -/
def croppedFrom (start : Nat) : Ref → Ref
  | none => none
  | some (s, n) => if start ≤ n then some (s + start, n - start) else none

end Ref

/-! ## The iterator -/

/-- `payload`, as a reference. -/
def payloadRef (d : Bytes) : Option Ref :=
  (length d).bind fun l =>
    if d.length < l then none else some (Ref.cropped (payloadOffset d) l (some (0, d.length)))

/-- `RLP::iterator`. -/
structure Iterator where
  m_remaining : Nat
  m_currentItem : Ref
deriving DecidableEq, Repr

/-- `end`. -/
def endIterator (d : Bytes) : Iterator := ⟨0, Ref.croppedFrom d.length (some (0, d.length))⟩

/-- `begin`. -/
def beginIterator (d : Bytes) : Option Iterator :=
  if isList d then do
    let pl ← payloadRef d
    let size ← sizeAsEncoded (pl.content d)
    let item := pl.cropped 0 size
    some ⟨pl.count - item.count, item⟩
  else some (endIterator d)

/-- `operator++`.  From the null reference nothing can be read. -/
def Iterator.next (d : Bytes) (it : Iterator) : Option Iterator :=
  match it.m_currentItem with
  | none => if it.m_remaining = 0 then some ⟨0, none⟩ else none
  | some (start, count) =>
      if it.m_remaining ≠ 0 then do
        let rest : Ref := some (start + count, it.m_remaining)
        let size ← sizeAsEncoded (rest.content d)
        let item := rest.cropped 0 size
        some ⟨it.m_remaining - min it.m_remaining item.count, item⟩
      else some ⟨0, some (start + count, 0)⟩

/-- A loop from an iterator to the end.  The number bounds the rounds. -/
def iterateFrom (d : Bytes) : Nat → Iterator → Option (List Bytes)
  | 0, _ => none
  | n + 1, it =>
      if it.m_currentItem = (endIterator d).m_currentItem then some []
      else do
        let item ← ofBytes (it.m_currentItem.content d)
        let it ← it.next d
        let items ← iterateFrom d n it
        some (item :: items)

/-- A loop over a list.  Every round takes a byte at least. -/
def iterate (d : Bytes) : Option (List Bytes) :=
  (beginIterator d).bind (iterateFrom d (d.length + 1))

/-! ## Indices -/

/-- The cache of `operator[]`, as it is at first. -/
structure Cursor where
  m_lastIndex : Nat := 2 ^ 64 - 1
  m_lastEnd : Nat := 0
  m_lastItem : Bytes := []
deriving DecidableEq, Repr

/-- The loop of `operator[]`, for the indices that are missing. -/
def Cursor.advance (d : Bytes) : Nat → Cursor → Option Cursor
  | 0, c => some c
  | n + 1, c =>
      if c.m_lastItem.length = 0 then some c
      else do
        let pl ← payload d
        let rest := pl.drop c.m_lastEnd
        let size ← sizeAsEncoded rest
        let item := cropped rest 0 size
        Cursor.advance d n ⟨c.m_lastIndex + 1, c.m_lastEnd + item.length, item⟩

/-- The item at the front of the list. -/
def Cursor.first (d : Bytes) : Option Cursor := do
  let pl ← payload d
  let size ← sizeAsEncoded pl
  some ⟨0, size, cropped pl 0 size⟩

/-- `operator[]`. -/
def Cursor.index (d : Bytes) (i : Nat) (c : Cursor) : Option (Bytes × Cursor) := do
  let c ← if i < c.m_lastIndex then Cursor.first d else some c
  let c ← c.advance d (i - c.m_lastIndex)
  let _ ← sizeAsEncoded c.m_lastItem
  some (c.m_lastItem, c)

/-- Indices that are asked for one after the other. -/
def Cursor.indices (d : Bytes) : List Nat → Cursor → Option (List Bytes)
  | [], _ => some []
  | i :: is, c => do
      let (item, c) ← c.index d i
      let items ← Cursor.indices d is c
      some (item :: items)

/-! ## Both give the items -/

/-- A list that takes all the bytes there are. -/
structure IsWhole (d : Bytes) (s : Bytes) (xs : List Bytes) : Prop where
  isList : isList d = true
  payloadRef : payloadRef d = some (some (d.length - s.length, s.length))
  payload : payload d = some s
  items : framing.split s = some xs
  drop : d.drop (d.length - s.length) = s
  le : s.length ≤ d.length
  lt : s.length < maxLength

theorem isWhole_appendList {s : Bytes} (hs : s.length < maxLength) {xs : List Bytes}
    (hxs : framing.split s = some xs) : IsWhole (appendList s) s xs := by
  obtain ⟨b, t, hcons, hlo, hhi, hrg, hlength, hoffset⟩ :=
    @read_lengthPrefix 0xc0 _ s (.inr rfl) hs fun h => absurd h (by decide)
  have htotal : (appendList s).length = (lengthPrefix 0xc0 s.length).length + s.length := by
    rw [appendList, List.length_append]
  have hread := read_appendList hs []
  rw [List.append_nil] at hread
  refine ⟨hread.2.1, ?_, hread.2.2, hxs, ?_, by omega, hs⟩
  · have heq : appendList s = b :: t := by rw [appendList, hcons]
    have hfits : ¬(appendList s).length < s.length := by omega
    rw [payloadRef, heq, hlength, Option.bind_some, ← heq, if_neg hfits, heq, hoffset, ← heq]
    show some (if _ then _ else _) = _
    rw [if_pos (by omega), htotal]
    congr 3
    omega
  · rw [htotal, Nat.add_sub_cancel, appendList, List.drop_left]

section Whole

variable {d s : Bytes} {xs : List Bytes} (h : IsWhole d s xs)

theorem endIterator_eq (d : Bytes) : endIterator d = ⟨0, some (d.length, 0)⟩ := by
  rw [endIterator, Ref.croppedFrom, if_pos (Nat.le_refl _), Nat.zero_add, Nat.sub_self]

/-- A whole item is read as one. -/
theorem ofBytes_of_whole {x : Bytes} (hx : framing.Whole x) : ofBytes x = some x := by
  obtain ⟨s, hs, rfl | rfl⟩ := eq_append_of_whole hx
  · have hread := (read_appendData hs []).1
    rw [List.append_nil] at hread
    rw [ofBytes, hread, Option.bind_some, if_pos rfl]
  · have hread := (read_appendList hs []).1
    rw [List.append_nil] at hread
    rw [ofBytes, hread, Option.bind_some, if_pos rfl]

theorem length_le_flatten {ys : List Bytes} (hne : ∀ y ∈ ys, y ≠ []) :
    ys.length ≤ ys.flatten.length := by
  induction ys with
  | nil => exact Nat.le_refl _
  | cons y ys ih =>
      have hpos : 0 < y.length := List.length_pos_of_ne_nil (hne y (.head _))
      have hrest := ih fun z hz => hne z (.tail _ hz)
      rw [List.length_cons, List.flatten_cons, List.length_append]
      omega

/-- One round of the loop. -/
theorem iterateFrom_step {before x rest : Bytes} (hd : d = before ++ (x ++ rest))
    (hx : framing.Whole x) (n m : Nat) :
    iterateFrom d (n + 1) ⟨m, some (before.length, x.length)⟩ =
      ((Iterator.next d ⟨m, some (before.length, x.length)⟩).bind (iterateFrom d n)).map (x :: ·) := by
  have hpos : 0 < x.length := List.length_pos_of_ne_nil hx.ne_nil
  have hne : (some (before.length, x.length) : Ref) ≠ (endIterator d).m_currentItem := by
    rw [endIterator_eq]
    intro heq
    have hzero := congrArg Ref.count heq
    exact absurd hzero (Nat.ne_of_gt hpos)
  have hcontent : Ref.content d (some (before.length, x.length)) = x := by
    show (d.drop before.length).take x.length = x
    rw [hd, List.drop_left, List.take_left]
  rw [iterateFrom, if_neg hne, hcontent, ofBytes_of_whole hx]
  show Option.bind _ _ = _
  cases hnext : Iterator.next d ⟨m, some (before.length, x.length)⟩ with
  | none => rfl
  | some it =>
      show (iterateFrom d n it).bind _ = (iterateFrom d n it).map _
      cases iterateFrom d n it <;> rfl

/-- From an item on the loop gives the items from there. -/
theorem iterateFrom_eq {before x : Bytes} {ys : List Bytes}
    (hd : d = before ++ (x ++ ys.flatten)) (hwhole : ∀ y ∈ x :: ys, framing.Whole y) {n : Nat}
    (hn : ys.length + 1 < n) :
    iterateFrom d n ⟨ys.flatten.length, some (before.length, x.length)⟩ = some (x :: ys) := by
  induction ys generalizing before x n with
  | nil =>
      obtain ⟨n, rfl⟩ : ∃ m, n = m + 2 := ⟨n - 2, by rw [List.length_nil] at hn; omega⟩
      have hlength : before.length + x.length = d.length := by
        rw [hd, List.length_append, List.length_append, List.flatten_nil, List.length_nil]
        omega
      have hnext : Iterator.next d ⟨0, some (before.length, x.length)⟩ = some (endIterator d) := by
        rw [endIterator_eq, ← hlength]
        rfl
      have hend : iterateFrom d (n + 1) (endIterator d) = some [] := by
        rw [iterateFrom, if_pos rfl]
      have hstep := iterateFrom_step hd (hwhole x (.head _)) (n + 1) 0
      rw [hnext, Option.bind_some, hend] at hstep
      exact hstep
  | cons y ys ih =>
      obtain ⟨n, rfl⟩ := Nat.exists_eq_add_of_le' (Nat.one_le_of_lt hn)
      have hy := hwhole y (.tail _ (.head _))
      have hpos : 0 < y.length := List.length_pos_of_ne_nil hy.ne_nil
      have htotal : (y :: ys).flatten.length = y.length + ys.flatten.length := by
        rw [List.flatten_cons, List.length_append]
      have hrest : Ref.content d (some (before.length + x.length, (y :: ys).flatten.length)) =
          y ++ ys.flatten := by
        show (d.drop (before.length + x.length)).take _ = _
        rw [hd, ← List.append_assoc, ← List.length_append, List.drop_left, List.take_length,
          List.flatten_cons]
      have hsize : sizeAsEncoded (y ++ ys.flatten) = some y.length := hy.size_append _
      have hnext : Iterator.next d ⟨(y :: ys).flatten.length, some (before.length, x.length)⟩ =
          some ⟨ys.flatten.length, some (before.length + x.length, y.length)⟩ := by
        have hcropped : Ref.cropped 0 y.length
            (some (before.length + x.length, (y :: ys).flatten.length)) =
              some (before.length + x.length, y.length) :=
          if_pos (by omega)
        rw [Iterator.next]
        dsimp only
        rw [if_pos (by omega), hrest, hsize]
        show some _ = _
        rw [hcropped]
        show some (Iterator.mk (_ - min _ y.length) _) = _
        congr 2
        omega
      rw [iterateFrom_step hd (hwhole x (.head _)), hnext, Option.bind_some]
      have hd' : d = (before ++ x) ++ (y ++ ys.flatten) := by
        rw [hd, List.flatten_cons, List.append_assoc]
      have hgo := ih hd' (fun z hz => hwhole z (.tail _ hz)) (n := n) (by
        rw [List.length_cons] at hn
        omega)
      rw [List.length_append] at hgo
      rw [hgo]
      rfl

include h

/-- **A loop over the list runs through its items.** -/
theorem iterate_eq : iterate d = some xs := by
  have hflatten := Framing.flatten_of_split h.items
  have hwhole := Framing.whole_of_split h.items
  have hcontent : Ref.content d (some (d.length - s.length, s.length)) = s := by
    show (d.drop (d.length - s.length)).take s.length = s
    rw [h.drop, List.take_length]
  rw [iterate, beginIterator, if_pos h.isList, h.payloadRef]
  show ((sizeAsEncoded (Ref.content d (some (d.length - s.length, s.length)))).bind _).bind _ = _
  rw [hcontent]
  cases xs with
  | nil =>
      subst hflatten
      show iterateFrom d (d.length + 1) ⟨0, some (d.length - 0, 0)⟩ = some []
      rw [iterateFrom, if_pos]
      rw [endIterator_eq]
      rfl
  | cons x ys =>
      have hx := hwhole x (.head _)
      have hs : s = x ++ ys.flatten := by rw [← hflatten, List.flatten_cons]
      have hsize : sizeAsEncoded s = some x.length := by
        rw [hs]
        exact hx.size_append _
      have hlength : s.length = x.length + ys.flatten.length := by rw [hs, List.length_append]
      have hcropped : Ref.cropped 0 x.length (some (d.length - s.length, s.length)) =
          some (d.length - s.length, x.length) := if_pos (by omega)
      rw [hsize]
      show iterateFrom d (d.length + 1)
        ⟨s.length - (Ref.cropped 0 x.length (some (d.length - s.length, s.length))).count,
          Ref.cropped 0 x.length (some (d.length - s.length, s.length))⟩ = _
      rw [hcropped]
      have hbefore : (d.take (d.length - s.length)).length = d.length - s.length := by
        rw [List.length_take]
        omega
      have hd : d = d.take (d.length - s.length) ++ (x ++ ys.flatten) := by
        rw [← hs]
        conv_lhs => rw [← List.take_append_drop (d.length - s.length) d, h.drop]
      have hcount : s.length - Ref.count (some (d.length - s.length, x.length)) =
          ys.flatten.length := by
        show s.length - x.length = _
        omega
      have hys : ys.length ≤ ys.flatten.length :=
        length_le_flatten fun y hy => (hwhole y (.tail _ hy)).ne_nil
      have hx' : 0 < x.length := List.length_pos_of_ne_nil hx.ne_nil
      have hgo := iterateFrom_eq hd hwhole (n := d.length + 1) (by
        have := h.le
        omega)
      rw [hbefore] at hgo
      rw [hcount, hgo]

omit h in
/-- The cache after some indices: nothing yet, or the item at the last index. -/
inductive Caches (xs : List Bytes) : Cursor → Prop where
  | fresh : Caches xs {}
  | found {i : Nat} : i ≤ xs.length →
      Caches xs ⟨i, (xs.take (i + 1)).flatten.length, xs.getD i []⟩

theorem advance_eq {n i : Nat} (hi : i ≤ xs.length) :
    ∃ c, Cursor.advance d n ⟨i, (xs.take (i + 1)).flatten.length, xs.getD i []⟩ = some c ∧
      Caches xs c ∧ c.m_lastItem = xs.getD (i + n) [] := by
  have hflatten := Framing.flatten_of_split h.items
  have hwhole := Framing.whole_of_split h.items
  induction n generalizing i with
  | zero => exact ⟨_, rfl, .found hi, rfl⟩
  | succ n ih =>
      rw [Cursor.advance]
      dsimp only
      split
      · next hempty =>
          -- past the end the item stays empty
          have hlast : ¬i < xs.length := fun hlt => by
            rw [List.getD_eq_getElem _ _ hlt] at hempty
            exact (hwhole _ (List.getElem_mem hlt)).ne_nil (List.length_eq_zero_iff.mp hempty)
          refine ⟨_, rfl, .found hi, ?_⟩
          rw [List.getD_eq_default _ _ (by omega), List.getD_eq_default _ _ (by omega)]
      · next hitem =>
          have hlt : i < xs.length := by
            by_contra hge
            rw [List.getD_eq_default _ _ (by omega)] at hitem
            exact hitem rfl
          have hdrop : s.drop (xs.take (i + 1)).flatten.length = (xs.drop (i + 1)).flatten := by
            rw [← hflatten]
            conv_lhs => rw [← List.take_append_drop (i + 1) xs, List.flatten_append]
            rw [List.take_append_drop, List.drop_left]
          have hnext : sizeAsEncoded (xs.drop (i + 1)).flatten =
              some (xs.getD (i + 1) []).length ∧
              cropped (xs.drop (i + 1)).flatten 0 (xs.getD (i + 1) []).length =
                xs.getD (i + 1) [] := by
            by_cases hmore : i + 1 < xs.length
            · rw [List.drop_eq_getElem_cons hmore, List.flatten_cons, List.getD_eq_getElem _ _ hmore]
              refine ⟨(hwhole _ (List.getElem_mem hmore)).size_append _, ?_⟩
              rw [cropped, if_pos (by rw [List.length_append]; omega), List.drop_zero, List.take_left]
            · rw [List.drop_eq_nil_of_le (by omega), List.getD_eq_default _ _ (by omega)]
              exact ⟨rfl, rfl⟩
          have htake : (xs.take (i + 1)).flatten.length + (xs.getD (i + 1) []).length =
              (xs.take (i + 1 + 1)).flatten.length := by
            by_cases hmore : i + 1 < xs.length
            · rw [List.take_succ_eq_append_getElem hmore, List.flatten_append, List.length_append,
                List.flatten_singleton, List.getD_eq_getElem _ _ hmore]
            · rw [List.getD_eq_default _ _ (by omega), List.take_of_length_le (by omega),
                List.take_of_length_le (by omega), List.length_nil, Nat.add_zero]
          obtain ⟨c, hc, hcaches, hitem'⟩ := ih (i := i + 1) hlt
          refine ⟨c, ?_, hcaches, ?_⟩
          · rw [h.payload]
            show (sizeAsEncoded (s.drop (xs.take (i + 1)).flatten.length)).bind _ = _
            rw [hdrop, hnext.1, Option.bind_some, hnext.2, htake]
            exact hc
          · rw [hitem']
            congr 1
            omega

theorem first_eq :
    Cursor.first d = some ⟨0, (xs.take (0 + 1)).flatten.length, xs.getD 0 []⟩ := by
  have hflatten := Framing.flatten_of_split h.items
  have hwhole := Framing.whole_of_split h.items
  rw [Cursor.first, h.payload]
  show (sizeAsEncoded s).bind _ = _
  cases xs with
  | nil =>
      subst hflatten
      rfl
  | cons x ys =>
      have hs : s = x ++ ys.flatten := by rw [← hflatten, List.flatten_cons]
      have hsize : sizeAsEncoded s = some x.length := by
        rw [hs]
        exact (hwhole x (.head _)).size_append _
      have hcropped : cropped s 0 x.length = x := by
        rw [hs, cropped, if_pos (by rw [List.length_append]; omega), List.drop_zero, List.take_left]
      rw [hsize, Option.bind_some, hcropped]
      show some (Cursor.mk 0 x.length x) = some (Cursor.mk 0 [x].flatten.length x)
      rw [List.flatten_singleton]

/-- **An index gives the item there**, whatever was asked before. -/
theorem index_eq {c : Cursor} (hc : Caches xs c) {i : Nat} (hi : i < 2 ^ 64) :
    ∃ c', c.index d i = some (xs.getD i [], c') ∧ Caches xs c' := by
  have hflatten := Framing.flatten_of_split h.items
  have hwhole := Framing.whole_of_split h.items
  have hlength : xs.length < maxLength := by
    have hle := length_le_flatten fun x hx => (hwhole x hx).ne_nil
    rw [hflatten] at hle
    exact hle.trans_lt h.lt
  have hsize : ∀ j, ∃ k, sizeAsEncoded (xs.getD j []) = some k := by
    intro j
    by_cases hj : j < xs.length
    · rw [List.getD_eq_getElem _ _ hj]
      have hx := (hwhole _ (List.getElem_mem hj)).size_append []
      rw [List.append_nil] at hx
      exact ⟨_, hx⟩
    · rw [List.getD_eq_default _ _ (by omega)]
      exact ⟨0, rfl⟩
  have hfrom : ∀ j ≤ xs.length, j ≤ i →
      ∃ c', (Cursor.advance d (i - j) ⟨j, (xs.take (j + 1)).flatten.length, xs.getD j []⟩).bind
        (fun c => (sizeAsEncoded c.m_lastItem).bind fun _ => some (c.m_lastItem, c)) =
          some (xs.getD i [], c') ∧ Caches xs c' := by
    intro j hj hle
    obtain ⟨c', hadvance, hcaches, hitem⟩ := advance_eq h (n := i - j) hj
    rw [Nat.add_sub_cancel' hle] at hitem
    obtain ⟨k, hk⟩ := hsize i
    refine ⟨c', ?_, hcaches⟩
    rw [hadvance, Option.bind_some, hitem, hk]
    rfl
  cases hc with
  | fresh =>
      by_cases hlt : i < 2 ^ 64 - 1
      · obtain ⟨c', hc', hcaches⟩ := hfrom 0 (Nat.zero_le _) (Nat.zero_le _)
        refine ⟨c', ?_, hcaches⟩
        rw [Cursor.index, if_pos hlt, first_eq h]
        exact hc'
      · -- the index that the cache has at first
        have hmax : i = 2 ^ 64 - 1 := by omega
        refine ⟨{}, ?_, .fresh⟩
        rw [Cursor.index, if_neg hlt, List.getD_eq_default _ _ (by rw [maxLength] at hlength; omega),
          hmax]
        rfl
  | @found j hj =>
      by_cases hlt : i < j
      · obtain ⟨c', hc', hcaches⟩ := hfrom 0 (Nat.zero_le _) (Nat.zero_le _)
        refine ⟨c', ?_, hcaches⟩
        rw [Cursor.index, if_pos hlt, first_eq h]
        exact hc'
      · obtain ⟨c', hc', hcaches⟩ := hfrom j hj (Nat.le_of_not_lt hlt)
        refine ⟨c', ?_, hcaches⟩
        rw [Cursor.index, if_neg hlt]
        exact hc'

/-- **Indices give the items there**, in any order. -/
theorem indices_eq {is : List Nat} (his : ∀ i ∈ is, i < 2 ^ 64) {c : Cursor} (hc : Caches xs c) :
    Cursor.indices d is c = some (is.map fun i => xs.getD i []) := by
  induction is generalizing c with
  | nil => rfl
  | cons i is ih =>
      obtain ⟨c', hindex, hcaches⟩ := index_eq h hc (his i (.head _))
      rw [Cursor.indices, hindex]
      show (Cursor.indices d is c').bind _ = _
      rw [ih (fun j hj => his j (.tail _ hj)) hcaches]
      rfl

end Whole

end CppSwc.RLP
