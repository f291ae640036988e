import CppSwc.Core.RlpAccess
import CppSwc.Lib.Run

/-!
# Indices after a throw

When `operator[]` goes on to the next item it first makes what is left of the list its last
item, and then reads the size of the item from it.  If that throws, the rest stays where the
last item was, at the index of that one: the item can not be found any more, until an index
below it makes `operator[]` start from the front.

`Cursor.access` is `operator[]` with what it leaves when it throws.  An access of the largest
`size_t` is special as well.  It finds nothing in a fresh object, whose cache has that index,
and looks for an item in any other.
-/

namespace CppSwc.RLP

open Lib

/-! ## An access and what it leaves -/

/-- `(size_t)-1`, the index that the cache has at first. -/
def unset : Nat := 2 ^ 64 - 1

/-- The loop of `operator[]`, for the indices that are missing.  An error is the cache as it
is when an item throws. -/
def Cursor.walk (d : Bytes) : Nat → Cursor → Except Cursor Cursor
  | 0, c => .ok c
  | n + 1, c =>
      if c.m_lastItem.length = 0 then .ok c
      else match payload d with
        | none => .error c
        | some pl =>
            let rest := pl.drop c.m_lastEnd
            match sizeAsEncoded rest with
            | none => .error { c with m_lastItem := rest }
            | some size =>
                let item := cropped rest 0 size
                Cursor.walk d n ⟨c.m_lastIndex + 1, c.m_lastEnd + item.length, item⟩

/-- Where the loop starts from. -/
def Cursor.start (d : Bytes) (i : Nat) (c : Cursor) : Except Cursor Cursor :=
  if i < c.m_lastIndex then
    match Cursor.first d with
    | none => .error c
    | some c => .ok c
  else .ok c

/-- What `operator[]` returns after the loop, unless something throws, and the cache. -/
def Cursor.found : Except Cursor Cursor → Option Bytes × Cursor
  | .error c => (none, c)
  | .ok c => ((sizeAsEncoded c.m_lastItem).map fun _ => c.m_lastItem, c)

/-- `operator[]`. -/
def Cursor.access (d : Bytes) (i : Nat) (c : Cursor) : Option Bytes × Cursor :=
  Cursor.found ((c.start d i).bind fun c => c.walk d (i - c.m_lastIndex))

/-- The cache after an access. -/
def Cursor.next (d : Bytes) (c : Cursor) (i : Nat) : Cursor := (c.access d i).2

/-- What one access after the other finds. -/
def Cursor.history (d : Bytes) : List Nat → Cursor → List (Option Bytes)
  | [], _ => []
  | i :: is, c => (c.access d i).1 :: Cursor.history d is (c.next d i)

/-- What an access finds in a fresh object. -/
def fresh (d : Bytes) (i : Nat) : Option Bytes := (Cursor.access d i {}).1

/-- The access finds what it finds in a fresh object. -/
def Cursor.Faithful (d : Bytes) (c : Cursor) (i : Nat) : Prop := (c.access d i).1 = fresh d i

/-! ## The items and the rest -/

/-- The payload is cut into items and a rest, which is empty or starts with none. -/
structure Cut (d : Bytes) (xs : List Bytes) (rest : Bytes) : Prop where
  payload : payload d = some (xs.flatten ++ rest)
  whole : ∀ x ∈ xs, framing.Whole x
  broken : rest ≠ [] → sizeAsEncoded rest = none

/-- The item at `j` is the last before a rest that starts with none. -/
def BreaksAfter (d : Bytes) (j : Nat) : Prop :=
  ∃ xs rest, Cut d xs rest ∧ xs.length = j + 1 ∧ rest ≠ []

theorem exists_cut {d s : Bytes} (h : payload d = some s) : ∃ xs rest, Cut d xs rest := by
  obtain ⟨xs, rest, rfl, hwhole, hbroken⟩ := Framing.exists_items framing s
  exact ⟨xs, rest, h, hwhole, hbroken⟩

theorem BreaksAfter.unique {d : Bytes} {j k : Nat} (hj : BreaksAfter d j)
    (hk : BreaksAfter d k) : j = k := by
  obtain ⟨xs, rest, hx, hxs, hrest⟩ := hj
  obtain ⟨ys, rest', hy, hys, hrest'⟩ := hk
  have hsame := Option.some.inj (hx.payload.symm.trans hy.payload)
  obtain ⟨rfl, -⟩ :=
    Framing.items_unique hx.whole hy.whole (hx.broken hrest) (hy.broken hrest') hsame
  omega

theorem length_lt {d : Bytes} {l : Nat} (h : length d = some l) : l < maxLength := by
  have hfrom : ∀ (start : Nat) (b : UInt8) (bs : Bytes), lengthFrom start b bs = some l →
      l < maxLength := by
    intro start b bs hl
    rw [lengthFrom] at hl
    split at hl
    · have := Option.some.inj hl
      unfold maxLength
      omega
    · rw [longLength] at hl
      split at hl
      · cases hl
      · dsimp only at hl
        split at hl
        · cases hl
        · have := Option.some.inj hl
          omega
  cases d with
  | nil => exact Option.some.inj h ▸ (by decide)
  | cons b bs =>
      rw [length] at h
      split at h
      · cases h
      · split at h
        · exact Option.some.inj h ▸ (by decide)
        · split at h
          · exact hfrom _ _ _ h
          · exact hfrom _ _ _ h

theorem length_payload_lt {d s : Bytes} (h : payload d = some s) : s.length < unset := by
  obtain ⟨l, hl, hs⟩ := Option.bind_eq_some_iff.mp h
  have hlt := length_lt hl
  split at hs
  · cases hs
  · obtain rfl := Option.some.inj hs
    have hle : (cropped d (payloadOffset d) l).length ≤ l := by
      rw [cropped]
      split
      · exact List.length_take_le _ _
      · exact Nat.zero_le _
    unfold maxLength at hlt
    unfold unset
    omega

section Cut

variable {d rest : Bytes} {xs : List Bytes} {i j k n : Nat}

/-- The cache with the item at an index. -/
def seek (xs : List Bytes) (j : Nat) : Cursor :=
  ⟨j, (xs.take (j + 1)).flatten.length, xs.getD j []⟩

/-- The cache with the rest in place of the last item. -/
def stuck (xs : List Bytes) (rest : Bytes) : Cursor := ⟨xs.length - 1, xs.flatten.length, rest⟩

/-- What an access gives that starts from an item: an item, nothing past the end of the
list, or the throw at the rest. -/
def reach (xs : List Bytes) (rest : Bytes) (i : Nat) : Option Bytes × Cursor :=
  if i < xs.length then (some (xs.getD i []), seek xs i)
  else if rest = [] then (some [], seek xs xs.length)
  else (none, stuck xs rest)

theorem Cut.length_lt (h : Cut d xs rest) : xs.length < unset := by
  have hle := length_le_flatten fun x hx => (h.whole x hx).ne_nil
  have hlt := length_payload_lt h.payload
  rw [List.length_append] at hlt
  omega

theorem walk_of_empty {c : Cursor} (hc : c.m_lastItem = []) : c.walk d n = .ok c := by
  cases n with
  | zero => rfl
  | succ n => rw [Cursor.walk, hc, List.length_nil, if_pos rfl]

theorem seek_end (xs : List Bytes) : (seek xs xs.length).m_lastItem = [] :=
  List.getD_eq_default _ _ (Nat.le_refl _)

theorem found_seek (h : Cut d xs rest) :
    Cursor.found (.ok (seek xs k)) = (some (xs.getD k []), seek xs k) := by
  have hsize : ∃ l, sizeAsEncoded (xs.getD k []) = some l := by
    by_cases hk : k < xs.length
    · rw [List.getD_eq_getElem _ _ hk]
      have hx := (h.whole _ (List.getElem_mem hk)).size_append []
      rw [List.append_nil] at hx
      exact ⟨_, hx⟩
    · rw [List.getD_eq_default _ _ (by omega)]
      exact ⟨0, rfl⟩
  obtain ⟨l, hl⟩ := hsize
  rw [Cursor.found, seek, hl]
  rfl

/-- The loop goes on from an item to the next. -/
theorem walk_succ (h : Cut d xs rest) (hj : j + 1 < xs.length) :
    (seek xs j).walk d (n + 1) = (seek xs (j + 1)).walk d n := by
  have hitem : xs.getD j [] ≠ [] := by
    rw [List.getD_eq_getElem _ _ (by omega)]
    exact (h.whole _ (List.getElem_mem _)).ne_nil
  have hcut : xs.flatten ++ rest =
      (xs.take (j + 1)).flatten ++ (xs[j + 1] ++ ((xs.drop (j + 2)).flatten ++ rest)) := by
    conv_lhs => rw [← List.take_append_drop (j + 1) xs, List.drop_eq_getElem_cons hj]
    rw [List.flatten_append, List.flatten_cons, List.append_assoc, List.append_assoc]
  have hsize : sizeAsEncoded (xs[j + 1] ++ ((xs.drop (j + 2)).flatten ++ rest)) =
      some xs[j + 1].length := (h.whole _ (List.getElem_mem hj)).size_append _
  have hcropped : cropped (xs[j + 1] ++ ((xs.drop (j + 2)).flatten ++ rest)) 0 xs[j + 1].length =
      xs[j + 1] := by
    rw [cropped, if_pos (by rw [List.length_append]; omega), List.drop_zero, List.take_left]
  have htake : (xs.take (j + 1 + 1)).flatten.length =
      (xs.take (j + 1)).flatten.length + xs[j + 1].length := by
    rw [List.take_succ_eq_append_getElem hj, List.flatten_append, List.length_append,
      List.flatten_singleton]
  rw [Cursor.walk, if_neg (by rwa [seek, List.length_eq_zero_iff]), h.payload]
  simp only [seek, hcut, List.drop_left, hsize, hcropped]
  rw [htake, List.getD_eq_getElem _ _ hj]

/-- After the last item the loop comes to the rest. -/
theorem walk_last (h : Cut d xs rest) (hj : j + 1 = xs.length) :
    (seek xs j).walk d (n + 1) =
      if rest = [] then .ok (seek xs xs.length) else .error (stuck xs rest) := by
  have hitem : xs.getD j [] ≠ [] := by
    rw [List.getD_eq_getElem _ _ (by omega)]
    exact (h.whole _ (List.getElem_mem _)).ne_nil
  rw [Cursor.walk, if_neg (by rwa [seek, List.length_eq_zero_iff]), h.payload]
  by_cases hrest : rest = []
  · subst hrest
    have hend := seek_end xs
    simp only [seek] at hend
    simp only [seek, hj, List.take_length, List.drop_left, if_true, hend,
      show sizeAsEncoded [] = some 0 from rfl]
    rw [walk_of_empty rfl, List.take_of_length_le (Nat.le_succ _)]
    rfl
  · simp only [seek, hj, List.take_length, List.drop_left, h.broken hrest, if_neg hrest, stuck]
    rw [← hj, Nat.add_sub_cancel]

/-- The loop from an item. -/
theorem walk_seek (h : Cut d xs rest) (hk : k < xs.length) :
    Cursor.found ((seek xs k).walk d n) = reach xs rest (k + n) := by
  induction n generalizing k with
  | zero =>
      rw [Cursor.walk, found_seek h, Nat.add_zero, reach, if_pos hk]
  | succ n ih =>
      rcases Nat.lt_or_ge (k + 1) xs.length with hnext | hlast
      · rw [walk_succ h hnext, ih hnext, Nat.add_right_comm, Nat.add_assoc]
      · have hpast : ¬k + (n + 1) < xs.length := by omega
        rw [walk_last h (by omega), reach, if_neg hpast]
        split
        · rw [found_seek h, List.getD_eq_default _ _ (Nat.le_refl _)]
        · rfl

/-! ## The four states of the cache -/

theorem first_eq_none (h : Cut d [] rest) (hrest : rest ≠ []) : Cursor.first d = none := by
  rw [Cursor.first, h.payload]
  show (sizeAsEncoded rest).bind _ = none
  rw [h.broken hrest]
  rfl

theorem first_eq_seek (h : Cut d xs rest) (hfirst : xs ≠ [] ∨ rest = []) :
    Cursor.first d = some (seek xs 0) := by
  rw [Cursor.first, h.payload]
  show (sizeAsEncoded (xs.flatten ++ rest)).bind _ = _
  cases xs with
  | nil =>
      obtain rfl : rest = [] := hfirst.resolve_left fun hne => hne rfl
      rfl
  | cons x ys =>
      have hsize : sizeAsEncoded ((x :: ys).flatten ++ rest) = some x.length :=
        Framing.size_flatten_append (h.whole x (.head _)) ys rest
      have hcropped : cropped ((x :: ys).flatten ++ rest) 0 x.length = x := by
        rw [List.flatten_cons, List.append_assoc, cropped,
          if_pos (by rw [List.length_append]; omega), List.drop_zero, List.take_left]
      rw [hsize, Option.bind_some, hcropped]
      show some (Cursor.mk 0 x.length x) = some (Cursor.mk 0 [x].flatten.length x)
      rw [List.flatten_singleton]

/-- The loop from the front. -/
theorem found_walk_first (h : Cut d xs rest) (hfirst : xs ≠ [] ∨ rest = []) :
    Cursor.found ((seek xs 0).walk d i) = reach xs rest i := by
  cases xs with
  | nil =>
      have hlt : ¬i < ([] : List Bytes).length := Nat.not_lt_zero i
      rw [walk_of_empty rfl, found_seek h, reach, if_neg hlt,
        if_pos (hfirst.resolve_left fun hne => hne rfl)]
      rfl
  | cons x ys =>
      rw [walk_seek h (Nat.zero_lt_succ _), Nat.zero_add]

/-- An access below the index of the cache starts from the front. -/
theorem access_of_lt (h : Cut d xs rest) (hfirst : xs ≠ [] ∨ rest = []) {c : Cursor}
    (hi : i < c.m_lastIndex) : c.access d i = reach xs rest i := by
  rw [Cursor.access, Cursor.start, if_pos hi, first_eq_seek h hfirst]
  exact found_walk_first h hfirst

theorem access_unset (d : Bytes) : Cursor.access d unset {} = (some [], {}) := rfl

theorem access_of_first_eq_none (hnone : Cursor.first d = none) (hi : i < 2 ^ 64) :
    (Cursor.access d i {}).2 = {} := by
  by_cases hlt : i < unset
  · have hstart : Cursor.start d i {} = .error {} := by
      rw [Cursor.start, if_pos (show i < ({} : Cursor).m_lastIndex from hlt), hnone]
    rw [Cursor.access, hstart]
    rfl
  · obtain rfl : i = unset := by
      unfold unset at hlt ⊢
      omega
    rw [access_unset]

theorem fresh_eq (h : Cut d xs rest) (hfirst : xs ≠ [] ∨ rest = []) (hi : i < 2 ^ 64) :
    fresh d i = if i = unset then some [] else (reach xs rest i).1 := by
  split
  · rename_i hunset
    rw [hunset, fresh, access_unset]
  · rename_i hne
    have hlt : i < unset := by
      unfold unset at hne ⊢
      omega
    rw [fresh, access_of_lt h hfirst hlt]

theorem access_seek (h : Cut d xs rest) (hk : k < xs.length ∨ k = xs.length ∧ rest = []) :
    (seek xs k).access d i = reach xs rest i := by
  have hfirst : xs ≠ [] ∨ rest = [] := by
    rcases hk with hk | ⟨-, hrest⟩
    · exact .inl (List.length_pos_iff.mp (by omega))
    · exact .inr hrest
  by_cases hlt : i < k
  · exact access_of_lt h hfirst hlt
  · rw [Cursor.access, Cursor.start, if_neg (show ¬i < (seek xs k).m_lastIndex from hlt)]
    show Cursor.found ((seek xs k).walk d (i - k)) = _
    rcases hk with hk | ⟨rfl, hrest⟩
    · rw [walk_seek h hk, Nat.add_sub_cancel' (Nat.le_of_not_lt hlt)]
    · rw [walk_of_empty (seek_end xs), found_seek h, reach, if_neg hlt, if_pos hrest,
        List.getD_eq_default _ _ (Nat.le_refl _)]

theorem access_stuck (h : Cut d xs rest) (hlen : xs.length = j + 1) (hrest : rest ≠ []) :
    (stuck xs rest).access d i = if i < j then reach xs rest i else (none, stuck xs rest) := by
  have hindex : (stuck xs rest).m_lastIndex = j := by
    rw [stuck, hlen, Nat.add_sub_cancel]
  split
  · rename_i hlt
    refine access_of_lt h (.inl fun hnil => ?_) (hindex ▸ hlt)
    rw [hnil] at hlen
    cases hlen
  · rename_i hge
    rw [Cursor.access, Cursor.start, hindex, if_neg hge]
    show Cursor.found ((stuck xs rest).walk d (i - (stuck xs rest).m_lastIndex)) = _
    rw [hindex]
    cases i - j with
    | zero =>
        rw [Cursor.walk, Cursor.found, stuck, h.broken hrest]
        rfl
    | succ n =>
        rw [Cursor.walk, if_neg (by rwa [stuck, List.length_eq_zero_iff]), h.payload]
        simp only [stuck, List.drop_left, h.broken hrest]
        rfl

/-! ## Where the cache is after some accesses -/

/-- Since the last access below `j` there was one beyond it. -/
def Passed (j : Nat) (before : List Nat) : Prop :=
  ∃ i ∈ before.reverse.takeWhile (j ≤ ·), j < i

instance (j : Nat) (before : List Nat) : Decidable (Passed j before) :=
  inferInstanceAs (Decidable (∃ i ∈ before.reverse.takeWhile (j ≤ ·), j < i))

theorem not_passed_nil (j : Nat) : ¬Passed j [] := by
  rintro ⟨i, hi, -⟩
  cases hi

theorem passed_concat {before : List Nat} :
    Passed j (before ++ [i]) ↔ j ≤ i ∧ (j < i ∨ Passed j before) := by
  rw [Passed, List.reverse_append, List.reverse_singleton, List.singleton_append,
    List.takeWhile_cons]
  split
  · rename_i hle
    rw [List.exists_mem_cons_iff, Passed]
    exact (and_iff_right (of_decide_eq_true hle)).symm
  · rename_i hlt
    constructor
    · rintro ⟨m, hm, -⟩
      cases hm
    · rintro ⟨hle, -⟩
      exact absurd (decide_eq_true hle) hlt

/-- The cache is stuck at the rest, or has an item. -/
structure Tracks (xs : List Bytes) (rest : Bytes) (j : Nat) (before : List Nat) (c : Cursor) :
    Prop where
  stuck : Passed j before → c = stuck xs rest
  seek : ¬Passed j before → ∃ k < xs.length, c = seek xs k

theorem reach_snd (hlen : xs.length = j + 1) (hrest : rest ≠ []) :
    (reach xs rest i).2 = if j < i then stuck xs rest else seek xs i := by
  rw [reach, if_neg hrest]
  split <;> split <;> first | rfl | omega

/-- The first access that is not of the largest `size_t`. -/
theorem tracks_singleton (h : Cut d xs rest) (hlen : xs.length = j + 1) (hrest : rest ≠ [])
    (hi : i < unset) : Tracks xs rest j [i] (Cursor.next d {} i) := by
  have hxs : xs ≠ [] := List.length_pos_iff.mp (by omega)
  have hpassed : Passed j [i] ↔ j < i := by
    rw [← List.nil_append [i], passed_concat, or_iff_left (not_passed_nil j)]
    exact and_iff_right_of_imp Nat.le_of_lt
  rw [Cursor.next, access_of_lt h (.inl hxs) (show i < ({} : Cursor).m_lastIndex from hi),
    reach_snd hlen hrest]
  constructor
  · intro hp
    rw [if_pos (hpassed.mp hp)]
  · intro hp
    rw [hpassed] at hp
    rw [if_neg hp]
    exact ⟨i, by omega, rfl⟩

/-- One more access. -/
theorem Tracks.next (h : Cut d xs rest) (hlen : xs.length = j + 1) (hrest : rest ≠ [])
    {before : List Nat} {c : Cursor} (hc : Tracks xs rest j before c) (i : Nat) :
    Tracks xs rest j (before ++ [i]) (c.next d i) := by
  by_cases hp : Passed j before
  · have hnext : c.next d i = if i < j then RLP.seek xs i else RLP.stuck xs rest := by
      rw [hc.stuck hp, Cursor.next, access_stuck h hlen hrest]
      split
      · rw [reach_snd hlen hrest, if_neg (by omega)]
      · rfl
    rw [hnext]
    constructor
    · intro hmore
      rw [passed_concat] at hmore
      rw [if_neg (by omega)]
    · intro hmore
      rw [passed_concat] at hmore
      have hlt : i < j := Nat.lt_of_not_le fun hle => hmore ⟨hle, .inr hp⟩
      rw [if_pos hlt]
      exact ⟨i, by omega, rfl⟩
  · obtain ⟨k, hk, rfl⟩ := hc.seek hp
    have hpassed : Passed j (before ++ [i]) ↔ j < i := by
      rw [passed_concat]
      constructor
      · rintro ⟨-, hlt | hmore⟩
        · exact hlt
        · exact absurd hmore hp
      · intro hlt
        exact ⟨Nat.le_of_lt hlt, .inl hlt⟩
    rw [Cursor.next, access_seek h (.inl hk), reach_snd hlen hrest]
    constructor
    · intro hmore
      rw [if_pos (hpassed.mp hmore)]
    · intro hmore
      rw [hpassed] at hmore
      rw [if_neg hmore]
      exact ⟨i, by omega, rfl⟩

theorem Tracks.foldl (h : Cut d xs rest) (hlen : xs.length = j + 1) (hrest : rest ≠ [])
    {before : List Nat} {c : Cursor} (hc : Tracks xs rest j before c) (is : List Nat) :
    Tracks xs rest j (before ++ is) (is.foldl (Cursor.next d) c) := by
  induction is generalizing before c with
  | nil => rwa [List.append_nil]
  | cons i is ih =>
      have hgo := ih (hc.next h hlen hrest i)
      rwa [List.append_assoc] at hgo

/-- From a cache that has been used, two indices are found otherwise than in a fresh one:
the largest, and that of the lost item. -/
theorem Tracks.faithful_iff (h : Cut d xs rest) (hlen : xs.length = j + 1) (hrest : rest ≠ [])
    {before : List Nat} {c : Cursor} (hc : Tracks xs rest j before c) (hi : i < 2 ^ 64) :
    c.Faithful d i ↔ i ≠ unset ∧ (i = j → ¬Passed j before) := by
  have hxs : xs ≠ [] := List.length_pos_iff.mp (by omega)
  have hshort := h.length_lt
  have hfst : (reach xs rest i).1 = if i ≤ j then some (xs.getD i []) else none := by
    rw [reach, if_neg hrest]
    split <;> split <;> first | rfl | omega
  rw [Cursor.Faithful, fresh_eq h (.inl hxs) hi, hfst]
  by_cases hp : Passed j before
  · have hgot : (c.access d i).1 = if i < j then some (xs.getD i []) else none := by
      rw [hc.stuck hp, access_stuck h hlen hrest]
      split
      · rw [hfst, if_pos (by omega)]
      · rfl
    rw [hgot]
    simp only [hp, not_true, imp_false]
    rcases Nat.lt_trichotomy i j with hlt | rfl | hgt
    · rw [if_pos hlt, if_neg (show i ≠ unset by omega), if_pos (Nat.le_of_lt hlt)]
      exact iff_of_true rfl ⟨by omega, by omega⟩
    · rw [if_neg (Nat.lt_irrefl i), if_neg (show i ≠ unset by omega), if_pos (Nat.le_refl i)]
      exact iff_of_false nofun fun hne => hne.2 rfl
    · rw [if_neg (by omega), if_neg (show ¬i ≤ j by omega)]
      split
      · rename_i hunset
        exact iff_of_false nofun fun hne => hne.1 hunset
      · rename_i hne
        exact iff_of_true rfl ⟨hne, by omega⟩
  · obtain ⟨k, hk, rfl⟩ := hc.seek hp
    rw [access_seek h (.inl hk), hfst]
    simp only [hp, not_false_eq_true, implies_true, and_true]
    split
    · rename_i hle
      have hne : i ≠ unset := by omega
      exact iff_of_true (if_neg hne).symm hne
    · split
      · rename_i hunset
        exact iff_of_false nofun fun hne => hne hunset
      · rename_i hne
        exact iff_of_true rfl hne

end Cut

/-! ## Histories -/

/-- After accesses of the largest `size_t` there is no other of it, and none of `j` after
one beyond it without one below it in between. -/
def Calm (j : Nat) (is : List Nat) : Prop :=
  unset ∉ is.dropWhile (· = unset) ∧
    ∀ before after, is.dropWhile (· = unset) = before ++ j :: after → ¬Passed j before

variable {d : Bytes} {is : List Nat}

theorem history_eq_iff_along (d : Bytes) (is : List Nat) (c : Cursor) :
    Cursor.history d is c = is.map (fresh d) ↔
      Along (Cursor.next d) (Cursor.Faithful d) c is := by
  induction is generalizing c with
  | nil => exact iff_of_true rfl trivial
  | cons i is ih =>
      rw [Cursor.history, List.map_cons, List.cons.injEq, ih]
      rfl

/-- The largest index leaves a fresh object as it is. -/
theorem along_dropWhile (d : Bytes) (is : List Nat) :
    Along (Cursor.next d) (Cursor.Faithful d) {} is ↔
      Along (Cursor.next d) (Cursor.Faithful d) {} (is.dropWhile (· = unset)) := by
  induction is with
  | nil => exact Iff.rfl
  | cons i is ih =>
      rw [List.dropWhile_cons]
      split
      · rename_i hunset
        obtain rfl : i = unset := of_decide_eq_true hunset
        rw [← ih]
        exact and_iff_right rfl
      · exact Iff.rfl

/-- Where a list breaks off, the accesses that find what they find in a fresh object. -/
theorem along_faithful_iff {xs : List Bytes} {rest : Bytes} {j : Nat} (h : Cut d xs rest)
    (hlen : xs.length = j + 1) (hrest : rest ≠ []) (his : ∀ i ∈ is, i < 2 ^ 64) :
    Along (Cursor.next d) (Cursor.Faithful d) {} is ↔ Calm j is := by
  rw [along_dropWhile, Calm]
  have hjs : ∀ i ∈ is.dropWhile (· = unset), i < 2 ^ 64 := fun i hi =>
    his i ((List.dropWhile_sublist _).subset hi)
  have hhead : ∀ i js, is.dropWhile (· = unset) = i :: js → i ≠ unset := by
    intro i js heq hunset
    have hne : is.dropWhile (· = unset) ≠ [] := heq ▸ List.cons_ne_nil i js
    have hnot := List.head_dropWhile_not (· = unset) hne
    simp only [heq, List.head_cons, hunset, decide_true] at hnot
    cases hnot
  cases hdrop : is.dropWhile (· = unset) with
  | nil =>
      refine iff_of_true trivial ⟨List.not_mem_nil, fun before after hsplit => ?_⟩
      cases before <;> cases hsplit
  | cons i js =>
      rw [hdrop] at hjs
      have hi := hhead i js hdrop
      have hlt : i < unset := by
        have := hjs i (.head _)
        unfold unset at hi ⊢
        omega
      have htracks := fun ks => (tracks_singleton h hlen hrest hlt).foldl h hlen hrest ks
      -- At each access after the first the cache has been used.
      have hlater : ∀ before a, a ∈ js → (Cursor.Faithful d
          (before.foldl (Cursor.next d) (Cursor.next d {} i)) a ↔
            a ≠ unset ∧ (a = j → ¬Passed j (i :: before))) := fun before a ha =>
        (htracks before).faithful_iff h hlen hrest (hjs a (.tail _ ha))
      rw [along_iff_forall]
      constructor
      · intro hall
        refine ⟨fun hmem => ?_, fun before after hsplit => ?_⟩
        · rcases List.mem_cons.mp hmem with hunset | hmem
          · exact hi hunset.symm
          · obtain ⟨before, after, rfl⟩ := List.append_of_mem hmem
            have hgood := hall (i :: before) unset after rfl
            exact ((hlater before unset hmem).mp hgood).1 rfl
        · cases before with
          | nil => exact not_passed_nil j
          | cons b before =>
              obtain ⟨rfl, rfl⟩ := List.cons.inj hsplit
              have hgood := hall (i :: before) j after rfl
              exact ((hlater before j (by simp)).mp hgood).2 rfl
      · rintro ⟨hunset, hcalm⟩ before a after hsplit
        cases before with
        | nil => rfl
        | cons b before =>
            obtain ⟨rfl, rfl⟩ := List.cons.inj hsplit
            refine (hlater before a (by simp)).mpr ⟨fun ha => ?_, fun ha => ?_⟩
            · exact hunset (ha ▸ List.mem_cons_of_mem _ (by simp))
            · exact hcalm (i :: before) after (ha ▸ rfl)

/-- If there is no first item the cache stays fresh. -/
theorem along_of_first_eq_none (hnone : Cursor.first d = none) (his : ∀ i ∈ is, i < 2 ^ 64) :
    Along (Cursor.next d) (Cursor.Faithful d) {} is := by
  induction is with
  | nil => exact trivial
  | cons i is ih =>
      refine ⟨rfl, ?_⟩
      rw [Cursor.next, access_of_first_eq_none hnone (his i (.head _))]
      exact ih fun k hk => his k (.tail _ hk)

/-- In a list that is cut to its end the cache is fresh, or has an item or the end. -/
theorem along_of_whole {xs : List Bytes} (h : Cut d xs []) (his : ∀ i ∈ is, i < 2 ^ 64)
    {c : Cursor} (hc : c = {} ∨ ∃ k ≤ xs.length, c = seek xs k) :
    Along (Cursor.next d) (Cursor.Faithful d) c is := by
  have hshort := h.length_lt
  have hfst : ∀ i, (reach xs [] i).1 = some (xs.getD i []) := by
    intro i
    rw [reach]
    split
    · rfl
    · rw [if_pos rfl, List.getD_eq_default _ _ (by omega)]
  have hsnd : ∀ i, ∃ k ≤ xs.length, (reach xs [] i).2 = seek xs k := by
    intro i
    rw [reach]
    split
    · exact ⟨i, by omega, rfl⟩
    · exact ⟨xs.length, Nat.le_refl _, rfl⟩
  induction is generalizing c with
  | nil => exact trivial
  | cons i is ih =>
      have hi := his i (.head _)
      have ih : ∀ {c : Cursor}, (c = {} ∨ ∃ k ≤ xs.length, c = seek xs k) →
          Along (Cursor.next d) (Cursor.Faithful d) c is := ih fun k hk => his k (.tail _ hk)
      rcases hc with rfl | ⟨k, hk, rfl⟩
      · refine ⟨rfl, ih ?_⟩
        by_cases hlt : i < unset
        · rw [Cursor.next, access_of_lt h (.inr rfl) (show i < ({} : Cursor).m_lastIndex from hlt)]
          exact .inr (hsnd i)
        · obtain rfl : i = unset := by
            unfold unset at hlt ⊢
            omega
          exact .inl rfl
      · have hk : k < xs.length ∨ k = xs.length ∧ ([] : Bytes) = [] :=
          (Nat.lt_or_eq_of_le hk).imp_right fun heq => ⟨heq, rfl⟩
        refine ⟨?_, ih ?_⟩
        · rw [Cursor.Faithful, access_seek h hk, fresh_eq h (.inr rfl) hi, hfst]
          split
          · rw [List.getD_eq_default _ _ (by omega)]
          · rfl
        · rw [Cursor.next, access_seek h hk]
          exact .inr (hsnd i)

/-- Where nothing is lost every access finds what it finds in a fresh object. -/
theorem along_faithful (hd : ∀ j, ¬BreaksAfter d j) (his : ∀ i ∈ is, i < 2 ^ 64) :
    Along (Cursor.next d) (Cursor.Faithful d) {} is := by
  cases hpayload : payload d with
  | none => exact along_of_first_eq_none (by rw [Cursor.first, hpayload]; rfl) his
  | some s =>
      obtain ⟨xs, rest, h⟩ := exists_cut hpayload
      by_cases hrest : rest = []
      · subst hrest
        exact along_of_whole h his (.inl rfl)
      · cases xs with
        | nil => exact along_of_first_eq_none (first_eq_none h hrest) his
        | cons x xs => exact absurd ⟨_, _, h, rfl, hrest⟩ (hd xs.length)

/-- **Accesses find what they find in a fresh object** if and only if the list does not
break off, or they are calm about the item where it does. -/
theorem history_eq_iff (d : Bytes) (is : List Nat) (his : ∀ i ∈ is, i < 2 ^ 64) :
    Cursor.history d is {} = is.map (fresh d) ↔ ∀ j, BreaksAfter d j → Calm j is := by
  rw [history_eq_iff_along]
  constructor
  · rintro halong j ⟨xs, rest, h, hlen, hrest⟩
    exact (along_faithful_iff h hlen hrest his).mp halong
  · intro hcalm
    by_cases hd : ∃ j, BreaksAfter d j
    · obtain ⟨j, hj⟩ := hd
      obtain ⟨xs, rest, h, hlen, hrest⟩ := hj
      exact (along_faithful_iff h hlen hrest his).mpr (hcalm j ⟨xs, rest, h, hlen, hrest⟩)
    · exact along_faithful (fun j hj => hd ⟨j, hj⟩) his

/-- A list with one item and the first byte of a string. -/
def brokenList : Bytes := [0xc2, 0x01, 0xb8]

theorem brokenList_breaks : BreaksAfter brokenList 0 := by
  refine ⟨[[0x01]], [0xb8], ⟨by decide +kernel, fun x hx => ?_, fun _ => by decide +kernel⟩, rfl,
    List.cons_ne_nil _ _⟩
  obtain rfl := List.mem_singleton.mp hx
  exact whole_appendData (s := [0x01]) (by decide)

theorem calm_of_history : BreaksAfter brokenList 0 ∧ Calm 0 [0, 1, 5] :=
  ⟨brokenList_breaks, (history_eq_iff brokenList [0, 1, 5] (by decide)).mp (by decide +kernel) 0
    brokenList_breaks⟩

/-- The only item is lost when the next one has thrown. -/
theorem item_lost_after_throw : ¬∀ (d : Bytes) (is : List Nat), (∀ i ∈ is, i < 2 ^ 64) →
    Cursor.history d is {} = is.map (fresh d) :=
  fun h => absurd (h brokenList [1, 0] (by decide)) (by decide +kernel)

end CppSwc.RLP
