import CppSwc.Lib.Run
import CppSwc.Lib.Segments
import Mathlib.Logic.Function.Basic

/-!
# Headers and bodies in chunks

The helper functions of `BlockChainSync` for `m_headers` and `m_bodies`.  A container has the
downloaded items in chunks of consecutive numbers, and the key of a chunk is its first number.
All functions look for a number with `lower_bound`, and step back to the chunk before it if no
chunk starts there (`search`).

`value` is the map that a container stands for.  `mergeInto` sets one number and
`removeAllStartingWith` takes out those from a number on.  But `removeItem` cuts the chunk at the
number, so that it takes out the rest of the chunk too.

A key is an `unsigned`, and the end of a chunk is the sum of one and a `size_t`.
-/

namespace CppSwc.BlockChainSync

open Lib Lib.OrderedMap Lib.Segments

/-- `std::map<unsigned, std::vector<T>>`, in the order of the keys. -/
abbrev Chunks (T : Type*) := List (ℕ × List T)

/-- Where the search for a number leads. -/
inductive Place (T : Type*) where
  /-- To a chunk whose key is the number. -/
  | key (lo : Chunks T) (chunk : List T) (hi : Chunks T)
  /-- To the beginning, as all keys are larger. -/
  | front (c : Chunks T)
  /-- To the last chunk with a smaller key. -/
  | back (lo : Chunks T) (first : ℕ) (chunk : List T) (hi : Chunks T)

variable {T : Type*}

/-- `--lower`, if it is not at the beginning. -/
def stepBack (c : Chunks T) (n : ℕ) : Place T :=
  match (below n c).getLast? with
  | none => .front c
  | some lower => .back (below n c).dropLast lower.1 lower.2 (notBelow n c)

/-- `lower_bound`, and the step back.  An empty container has no lower bound and no chunk to step
back to. -/
def search (c : Chunks T) (n : ℕ) : Place T :=
  match notBelow n c with
  | (key, chunk) :: hi => if key = n then .key (below n c) chunk hi else stepBack c n
  | [] => stepBack c n

/-- `lower->first + lower->second.size()`. -/
def stop (first : ℕ) (chunk : List T) : ℕ := (first + chunk.length) % 2 ^ 64

def haveItem (c : Chunks T) (n : ℕ) : Bool :=
  match search c n with
  | .key _ _ _ => true
  | .front _ => false
  | .back _ first chunk _ => decide (first ≤ n ∧ n < stop first chunk)

/-- `findItem`, where `nullptr` is `none`. -/
def findItem (c : Chunks T) (n : ℕ) : Option T :=
  match search c n with
  | .key _ chunk _ => chunk.head?
  | .front _ => none
  | .back _ first chunk _ => if first ≤ n ∧ n < stop first chunk then chunk[n - first]? else none

def removeItem (c : Chunks T) (n : ℕ) : Chunks T :=
  match search c n with
  | .key lo _ hi => lo ++ hi
  | .front _ => c
  | .back lo first chunk hi =>
      if first ≤ n ∧ n < stop first chunk then lo ++ (first, chunk.take (n - first)) :: hi else c

def removeAllStartingWith (c : Chunks T) (n : ℕ) : Chunks T :=
  match search c n with
  | .key lo _ _ => lo
  | .front _ => []
  | .back lo first chunk _ =>
      if first ≤ n ∧ n < stop first chunk then lo ++ [(first, chunk.take (n - first))]
      else lo ++ [(first, chunk)]

/-- A chunk in its place, merged with the next one if that has the given key. -/
def mergeNext (key first : ℕ) (chunk : List T) : Chunks T → Chunks T
  | [] => [(first, chunk)]
  | next :: hi =>
      if next.1 = key then (first, chunk ++ next.2) :: hi else (first, chunk) :: next :: hi

/-- The chunk at `lower` is extended. -/
def extend (first : ℕ) (chunk : List T) (data : T) (hi : Chunks T) : Chunks T :=
  mergeNext (stop first (chunk ++ [data])) first (chunk ++ [data]) hi

/-- A new chunk is inserted. -/
def insertChunk (n : ℕ) (data : T) (hi : Chunks T) : Chunks T :=
  mergeNext ((n + 1) % 2 ^ 32) n [data] hi

/-- `mergeInto`, or `none` if its assertion fails. -/
def mergeInto (c : Chunks T) (n : ℕ) (data : T) : Option (Chunks T) :=
  if haveItem c n then none
  else
    match search c n with
    -- the assertion has failed
    | .key _ _ _ => none
    | .front [] => some (insertChunk n data [])
    | .front ((first, chunk) :: hi) =>
        if stop first chunk = n then some (extend first chunk data hi)
        else some (insertChunk n data ((first, chunk) :: hi))
    | .back lo first chunk hi =>
        if stop first chunk = n then some (lo ++ extend first chunk data hi)
        else some (lo ++ (first, chunk) :: insertChunk n data hi)

/-- A call that changes a container. -/
inductive ChunkOp (T : Type*) where
  | mergeInto (n : ℕ) (data : T)
  | removeItem (n : ℕ)
  | removeAllStartingWith (n : ℕ)

def apply (c : Chunks T) : ChunkOp T → Option (Chunks T)
  | .mergeInto n data => mergeInto c n data
  | .removeItem n => some (removeItem c n)
  | .removeAllStartingWith n => some (removeAllStartingWith c n)

/-- What the call says it does to a map. -/
def applyPlain (items : ℕ → Option T) : ChunkOp T → ℕ → Option T
  | .mergeInto n data => Function.update items n (some data)
  | .removeItem n => Function.update items n none
  | .removeAllStartingWith n => fun x => if x < n then items x else none

/-! ## Well-formed containers -/

/-- The chunks are separated, and their numbers are values of `unsigned`. -/
structure WellFormed (c : Chunks T) : Prop where
  separated : Separated c
  stop_le : ∀ s ∈ c, s.1 + s.2.length ≤ 2 ^ 32

variable {c lo hi : Chunks T} {first k n x : ℕ} {chunk : List T} {data : T}

theorem WellFormed.nil : WellFormed ([] : Chunks T) := ⟨.nil, by simp⟩

theorem WellFormed.sublist (h : WellFormed c) (hsub : lo.Sublist c) : WellFormed lo :=
  ⟨h.separated.sublist hsub, fun s hs => h.stop_le s (hsub.subset hs)⟩

theorem wellFormed_append_cons : WellFormed (lo ++ (first, chunk) :: hi) ↔
    WellFormed (lo ++ hi) ∧ chunk ≠ [] ∧ (∀ s ∈ lo, s.1 + s.2.length < first) ∧
      (∀ s ∈ hi, first + chunk.length < s.1) ∧ first + chunk.length ≤ 2 ^ 32 := by
  constructor
  · intro h
    obtain ⟨-, hne, hlo, hhi⟩ := separated_append_cons.mp h.separated
    exact ⟨h.sublist ((List.sublist_cons_self _ _).append_left lo), hne, hlo, hhi,
      h.stop_le _ (List.mem_append_right _ (.head _))⟩
  · rintro ⟨h, hne, hlo, hhi, hle⟩
    refine ⟨separated_append_cons.mpr ⟨h.separated, hne, hlo, hhi⟩, fun s hs => ?_⟩
    rcases List.mem_append.mp hs with hs | hs
    · exact h.stop_le s (List.mem_append_left _ hs)
    · rcases List.mem_cons.mp hs with rfl | hs
      · exact hle
      · exact h.stop_le s (List.mem_append_right _ hs)

theorem stop_eq (h : first + chunk.length ≤ 2 ^ 32) : stop first chunk = first + chunk.length :=
  Nat.mod_eq_of_lt (h.trans_lt (by decide))

/-- A chunk that is cut, but not at its first number. -/
theorem WellFormed.cut (h : WellFormed (lo ++ (first, chunk) :: hi)) (hk : 0 < k) :
    WellFormed (lo ++ (first, chunk.take k) :: hi) := by
  obtain ⟨hrest, hne, hlo, hhi, hlt⟩ := wellFormed_append_cons.mp h
  have hle : (chunk.take k).length ≤ chunk.length := List.length_take_le' k chunk
  refine wellFormed_append_cons.mpr ⟨hrest, ?_, hlo, ?_, ?_⟩
  · rw [Ne, List.take_eq_nil_iff, not_or]
    exact ⟨hk.ne', hne⟩
  · intro s hs
    have := hhi s hs
    omega
  · omega

/-! ## The search -/

/-- What is known of the place that a search leads to.  The chunk before a number either has it
or ends before it. -/
inductive Placed (c : Chunks T) (n : ℕ) : Place T → Prop where
  | key {lo hi : Chunks T} {chunk : List T} : c = lo ++ (n, chunk) :: hi →
      Placed c n (.key lo chunk hi)
  | front : (∀ s ∈ c, n < s.1) → Placed c n (.front c)
  | inside {lo hi : Chunks T} {first : ℕ} {chunk : List T} : c = lo ++ (first, chunk) :: hi →
      first < n → n < first + chunk.length → first ≤ n ∧ n < stop first chunk →
      Placed c n (.back lo first chunk hi)
  | behind {lo hi : Chunks T} {first : ℕ} {chunk : List T} : c = lo ++ (first, chunk) :: hi →
      first + chunk.length ≤ n → (∀ s ∈ hi, n < s.1) → ¬(first ≤ n ∧ n < stop first chunk) →
      Placed c n (.back lo first chunk hi)

theorem placed_stepBack (h : WellFormed c) (hlarge : ∀ s ∈ notBelow n c, n < s.1) :
    Placed c n (stepBack c n) := by
  have hsplit : below n c ++ notBelow n c = c := below_append_notBelow n c
  rw [stepBack]
  cases hlast : (below n c).getLast? with
  | none =>
      rw [List.getLast?_eq_none_iff.mp hlast, List.nil_append] at hsplit
      rw [hsplit] at hlarge
      exact .front hlarge
  | some lower =>
      obtain ⟨lo, hlo⟩ := List.getLast?_eq_some_iff.mp hlast
      have hfirst : lower.1 < n := lt_of_mem_below (List.mem_of_getLast? hlast)
      have hc : c = (below n c).dropLast ++ (lower.1, lower.2) :: notBelow n c := by
        rw [hlo, List.append_assoc] at hsplit
        rw [hlo, List.dropLast_concat]
        exact hsplit.symm
      have hstop : stop lower.1 lower.2 = lower.1 + lower.2.length := by
        rw [hc, wellFormed_append_cons] at h
        exact stop_eq h.2.2.2.2
      rcases lt_or_ge n (lower.1 + lower.2.length) with hlt | hge
      · exact .inside hc hfirst hlt ⟨hfirst.le, hstop ▸ hlt⟩
      · exact .behind hc hge hlarge fun hmem => (hstop ▸ hge).not_gt hmem.2

theorem placed_search (h : WellFormed c) (n : ℕ) : Placed c n (search c n) := by
  have hsplit : below n c ++ notBelow n c = c := below_append_notBelow n c
  have hle : ∀ s ∈ notBelow n c, n ≤ s.1 := fun s => le_of_mem_notBelow h.separated.increasing
  have hincreasing : Increasing (notBelow n c) :=
    h.separated.increasing.sublist (List.dropWhile_sublist _)
  rw [search]
  cases hhi : notBelow n c with
  | nil => exact placed_stepBack h fun s hs => by rw [hhi] at hs; cases hs
  | cons s hi =>
      rw [hhi] at hsplit hle hincreasing
      rw [Increasing, List.pairwise_cons] at hincreasing
      dsimp only
      split
      · rename_i hkey
        subst hkey
        exact .key hsplit.symm
      · rename_i hkey
        have hlt : n < s.1 := lt_of_le_of_ne (hle s (.head _)) (Ne.symm hkey)
        refine placed_stepBack h fun t ht => ?_
        rw [hhi] at ht
        rcases List.mem_cons.mp ht with rfl | ht
        · exact hlt
        · exact hlt.trans (hincreasing.1 t ht)

/-- Behind a chunk and before the next one, a number has no value. -/
theorem value_behind (h : WellFormed (lo ++ (first, chunk) :: hi)) (hn : first + chunk.length ≤ n)
    (hhi : ∀ s ∈ hi, n < s.1) : value (lo ++ (first, chunk) :: hi) n = none := by
  obtain ⟨-, -, hlo, -⟩ := wellFormed_append_cons.mp h
  rw [value_append, value_cons, value_of_before fun s hs => by have := hlo s hs; omega,
    valueAt_of_le (s := (first, chunk)) hn, value_of_after hhi]
  rfl

theorem isSome_value (h : WellFormed (lo ++ (first, chunk) :: hi)) (hfirst : first ≤ n)
    (hlt : n < first + chunk.length) : (value (lo ++ (first, chunk) :: hi) n).isSome := by
  rw [value_of_mem h.separated hfirst hlt, List.getElem?_eq_getElem (by omega)]
  rfl

theorem key_lt (h : WellFormed (lo ++ (first, chunk) :: hi)) : first < first + chunk.length := by
  obtain ⟨-, hne, -⟩ := wellFormed_append_cons.mp h
  exact Nat.lt_add_of_pos_right (List.length_pos_iff.mpr hne)

/-- `findItem` is the value at a number. -/
theorem findItem_eq (h : WellFormed c) (n : ℕ) : findItem c n = value c n := by
  have hplace := placed_search h n
  rw [findItem]
  generalize search c n = place at hplace ⊢
  cases hplace with
  | key hc =>
      subst hc
      rw [value_of_mem h.separated le_rfl (key_lt h), Nat.sub_self]
      exact List.head?_eq_getElem?
  | front hlarge => exact (value_of_after hlarge).symm
  | inside hc hfirst hlt hmem =>
      subst hc
      rw [value_of_mem h.separated hfirst.le hlt]
      exact if_pos hmem
  | behind hc hge hlarge hmem =>
      subst hc
      rw [value_behind h hge hlarge]
      exact if_neg hmem

theorem haveItem_eq (h : WellFormed c) (n : ℕ) : haveItem c n = (value c n).isSome := by
  have hplace := placed_search h n
  rw [haveItem]
  generalize search c n = place at hplace ⊢
  cases hplace with
  | key hc =>
      subst hc
      exact (isSome_value h le_rfl (key_lt h)).symm
  | front hlarge => rw [value_of_after hlarge]; rfl
  | inside hc hfirst hlt hmem =>
      subst hc
      rw [isSome_value h hfirst.le hlt]
      exact decide_eq_true hmem
  | behind hc hge hlarge hmem =>
      subst hc
      rw [value_behind h hge hlarge]
      exact decide_eq_false hmem

/-! ## Removal -/

/-- `removeItem` removes the numbers from the given one up to the first that is absent. -/
theorem value_removeItem (h : WellFormed c) (n : ℕ) :
    WellFormed (removeItem c n) ∧ ∃ last, n ≤ last ∧ value c last = none ∧
      (∀ x, n ≤ x → x < last → (value c x).isSome) ∧
      ∀ x, value (removeItem c n) x = if n ≤ x ∧ x < last then none else value c x := by
  have hplace := placed_search h n
  rw [removeItem]
  generalize search c n = place at hplace ⊢
  cases hplace with
  | @key lo hi chunk hc =>
      subst hc
      refine ⟨(wellFormed_append_cons.mp h).1, n + chunk.length, Nat.le_add_right _ _,
        value_end h.separated, fun x => isSome_value h, fun x => ?_⟩
      have hcut := value_cut h.separated 0 x
      rwa [List.take_zero, value_append, value_cons, valueAt_empty, Option.none_or,
        ← value_append] at hcut
  | front hlarge =>
      refine ⟨h, n, le_rfl, value_of_after hlarge, by omega, fun x => ?_⟩
      exact (if_neg (by omega)).symm
  | @inside lo hi first chunk hc hfirst hlt hmem =>
      subst hc
      dsimp only
      rw [if_pos hmem]
      refine ⟨h.cut (by omega), first + chunk.length, hlt.le, value_end h.separated,
        fun x hle => isSome_value h (hfirst.le.trans hle), fun x => ?_⟩
      rw [value_cut h.separated, Nat.add_sub_cancel' hfirst.le]
  | behind hc hge hlarge hmem =>
      subst hc
      dsimp only
      rw [if_neg hmem]
      refine ⟨h, n, le_rfl, value_behind h hge hlarge, by omega, fun x => ?_⟩
      exact (if_neg (by omega)).symm

/-- The chunks up to one that ends before a number are what is below the number. -/
theorem value_upTo (h : WellFormed (lo ++ (first, chunk) :: hi)) (hn : first + chunk.length ≤ n)
    (hhi : ∀ s ∈ hi, n ≤ s.1) (x : ℕ) : value (lo ++ [(first, chunk)]) x =
      if x < n then value (lo ++ (first, chunk) :: hi) x else none := by
  obtain ⟨-, -, hlo, -⟩ := wellFormed_append_cons.mp h
  have hends : ∀ s ∈ lo ++ [(first, chunk)], s.1 + s.2.length ≤ n := by
    intro s hs
    rcases List.mem_append.mp hs with hs | hs
    · have := hlo s hs
      omega
    · rwa [List.mem_singleton.mp hs]
  rw [value_of_split hends hhi, List.append_assoc, List.singleton_append]

theorem WellFormed.upTo (h : WellFormed (lo ++ (first, chunk) :: hi)) :
    WellFormed (lo ++ [(first, chunk)]) :=
  h.sublist (((List.nil_sublist hi).cons_cons _).append_left lo)

/-- `removeAllStartingWith` removes the numbers from the given one on. -/
theorem value_removeAllStartingWith (h : WellFormed c) (n : ℕ) :
    WellFormed (removeAllStartingWith c n) ∧
      ∀ x, value (removeAllStartingWith c n) x = if x < n then value c x else none := by
  have hplace := placed_search h n
  rw [removeAllStartingWith]
  generalize search c n = place at hplace ⊢
  cases hplace with
  | @key lo hi chunk hc =>
      subst hc
      obtain ⟨-, -, hlo, hhi, -⟩ := wellFormed_append_cons.mp h
      refine ⟨h.sublist (List.sublist_append_left _ _), value_of_split (fun s hs => (hlo s hs).le) ?_⟩
      rintro s (_ | ⟨_, hs⟩)
      · exact le_rfl
      · exact (Nat.le_add_right _ _).trans (hhi s hs).le
  | front hlarge => exact ⟨.nil, value_of_split (by simp) fun s hs => (hlarge s hs).le⟩
  | @inside lo hi first chunk hc hfirst hlt hmem =>
      subst hc
      dsimp only
      rw [if_pos hmem]
      have hcut : WellFormed (lo ++ (first, chunk.take (n - first)) :: hi) := h.cut (by omega)
      obtain ⟨-, -, -, hhi, -⟩ := wellFormed_append_cons.mp h
      refine ⟨hcut.upTo, fun x => ?_⟩
      rw [value_upTo hcut (n := n) (by simp; omega) fun s hs => (hlt.trans (hhi s hs)).le]
      refine ite_congr rfl (fun hx => ?_) fun _ => rfl
      rw [value_cut h.separated, if_neg (by omega)]
  | behind hc hge hlarge hmem =>
      subst hc
      dsimp only
      rw [if_neg hmem]
      exact ⟨h.upTo, value_upTo h hge fun s hs => (hlarge s hs).le⟩

/-- The numbers up to the first absent one are one number or none exactly if the first or the
second of them is absent. -/
theorem removed_eq_update_iff {items : ℕ → Option T} {last : ℕ} (hle : n ≤ last)
    (hlast : items last = none) (hsome : ∀ x, n ≤ x → x < last → (items x).isSome) :
    (fun x => if n ≤ x ∧ x < last then none else items x) = Function.update items n none ↔
      items n = none ∨ items (n + 1) = none := by
  have hnone : ∀ x, n ≤ x → items x = none → last ≤ x := by
    intro x hx habs
    refine not_lt.mp fun hlt => ?_
    have := hsome x hx hlt
    rw [habs] at this
    cases this
  constructor
  · intro heq
    have hnext := congrFun heq (n + 1)
    rw [Function.update_of_ne (Nat.succ_ne_self n)] at hnext
    by_cases hlt : n + 1 < last
    · rw [if_pos ⟨Nat.le_succ n, hlt⟩] at hnext
      exact .inr hnext.symm
    · rcases Nat.eq_or_lt_of_le hle with rfl | hlt'
      · exact .inl hlast
      · have hend : last = n + 1 := by omega
        exact .inr (hend ▸ hlast)
  · intro habs
    have hshort : last ≤ n + 1 := by
      rcases habs with habs | habs
      · exact (hnone n le_rfl habs).trans (Nat.le_succ n)
      · exact hnone (n + 1) (Nat.le_succ n) habs
    funext x
    rcases eq_or_ne x n with rfl | hne
    · rw [Function.update_self]
      split
      · rfl
      · rename_i hout
        have hend : last = x := by omega
        exact hend ▸ hlast
    · rw [Function.update_of_ne hne, if_neg (by omega)]

/-! ## Merging -/

theorem value_mergeNext :
    value (lo ++ mergeNext (first + chunk.length) first chunk hi) x =
      value (lo ++ (first, chunk) :: hi) x := by
  cases hi with
  | nil => rfl
  | cons next hi =>
      rw [mergeNext]
      split
      · rename_i hkey
        rw [value_join, ← hkey]
      · rfl

theorem wellFormed_mergeNext (h : WellFormed (lo ++ hi)) (hne : chunk ≠ [])
    (hlo : ∀ s ∈ lo, s.1 + s.2.length < first) (hhi : ∀ s ∈ hi, first + chunk.length ≤ s.1)
    (hlt : first + chunk.length ≤ 2 ^ 32) :
    WellFormed (lo ++ mergeNext (first + chunk.length) first chunk hi) := by
  cases hi with
  | nil => exact wellFormed_append_cons.mpr ⟨h, hne, hlo, by simp, hlt⟩
  | cons next hi =>
      obtain ⟨hrest, hne', hlo', hhi', hlt'⟩ := wellFormed_append_cons.mp h
      have hnext : first + chunk.length ≤ next.1 := hhi next (.head _)
      rw [mergeNext]
      split
      · rename_i hkey
        have hlen : first + (chunk ++ next.2).length = next.1 + next.2.length := by
          rw [List.length_append]
          omega
        rw [← hlen] at hhi' hlt'
        exact wellFormed_append_cons.mpr ⟨hrest, List.append_ne_nil_of_left_ne_nil hne _, hlo,
          hhi', hlt'⟩
      · rename_i hkey
        refine wellFormed_append_cons.mpr ⟨h, hne, hlo, ?_, hlt⟩
        rintro s (_ | ⟨_, hs⟩)
        · exact lt_of_le_of_ne hnext (Ne.symm hkey)
        · have := hhi' s hs
          omega

/-- A new chunk is merged with the one behind it. -/
theorem insertChunk_spec (h : WellFormed (lo ++ hi)) (hn : n < 2 ^ 32)
    (hlo : ∀ s ∈ lo, s.1 + s.2.length < n) (hhi : ∀ s ∈ hi, n < s.1) (data : T) :
    WellFormed (lo ++ insertChunk n data hi) ∧ ∀ x, value (lo ++ insertChunk n data hi) x =
      if x = n then some data else value (lo ++ hi) x := by
  have hmerge : insertChunk n data hi = mergeNext (n + [data].length) n [data] hi := by
    cases hi with
    | nil => rfl
    | cons s hi =>
        -- the key that is looked for does not wrap, as there is a chunk behind the number
        obtain ⟨-, hne, -, -, hle⟩ := wellFormed_append_cons.mp h
        have hkey : n < s.1 := hhi s (.head _)
        have hlen : 0 < s.2.length := List.length_pos_of_ne_nil hne
        rw [insertChunk, Nat.mod_eq_of_lt (by omega)]
        rfl
  rw [hmerge]
  refine ⟨wellFormed_mergeNext h (List.cons_ne_nil _ _) hlo hhi (by simp; omega), fun x => ?_⟩
  rw [value_mergeNext]
  exact value_insert (value_of_before fun s hs => (hlo s hs).le) x

/-- A chunk that ends at a number gets that number, and is merged with the one behind it. -/
theorem extend_spec (h : WellFormed (lo ++ (first, chunk) :: hi)) (hn : n < 2 ^ 32)
    (hstop : first + chunk.length = n) (data : T) :
    WellFormed (lo ++ extend first chunk data hi) ∧ ∀ x, value (lo ++ extend first chunk data hi) x =
      if x = n then some data else value (lo ++ (first, chunk) :: hi) x := by
  obtain ⟨hrest, hne, hlo, hhi, hlt⟩ := wellFormed_append_cons.mp h
  have hlen : first + (chunk ++ [data]).length = n + 1 := by
    rw [List.length_append, List.length_singleton]
    omega
  rw [extend, stop_eq (by omega)]
  refine ⟨wellFormed_mergeNext hrest (List.append_ne_nil_of_right_ne_nil _ (List.cons_ne_nil _ _)) hlo
    (fun s hs => ?_) (by omega), fun x => ?_⟩
  · have := hhi s hs
    omega
  · have habs : value (lo ++ [(first, chunk)]) n = none := by
      rw [value_upTo h hstop.le fun s hs => (hstop ▸ hhi s hs).le, if_neg (lt_irrefl n)]
    have hput : value ((lo ++ [(first, chunk)]) ++ (n, [data]) :: hi) x =
        if x = n then some data else value ((lo ++ [(first, chunk)]) ++ hi) x := value_insert habs x
    rw [List.append_assoc, List.append_assoc] at hput
    rw [value_mergeNext, value_join, hstop]
    exact hput

/-- `mergeInto` at a number that is absent adds it. -/
theorem mergeInto_spec (h : WellFormed c) (hn : n < 2 ^ 32) (habs : haveItem c n = false)
    (data : T) : ∃ c', mergeInto c n data = some c' ∧ WellFormed c' ∧
      ∀ x, value c' x = if x = n then some data else value c x := by
  have hplace := placed_search h n
  have hnone : value c n = none := by
    rw [haveItem_eq h] at habs
    exact Option.not_isSome_iff_eq_none.mp (by rw [habs]; exact Bool.false_ne_true)
  rw [mergeInto, if_neg (by rw [habs]; exact Bool.false_ne_true)]
  generalize search c n = place at hplace ⊢
  cases hplace with
  | key hc =>
      subst hc
      have := isSome_value h le_rfl (key_lt h)
      rw [hnone] at this
      cases this
  | front hlarge =>
      have hput := insertChunk_spec (show WellFormed ([] ++ c) from h) hn (by simp) hlarge data
      cases c with
      | nil => exact ⟨_, rfl, hput⟩
      | cons s hi =>
          have hkey : n < s.1 := hlarge s (.head _)
          have hne : stop s.1 s.2 ≠ n := by
            rw [stop_eq (h.stop_le s (.head _))]
            omega
          exact ⟨_, if_neg hne, hput⟩
  | inside hc hfirst hlt hmem =>
      subst hc
      have := isSome_value h hfirst.le hlt
      rw [hnone] at this
      cases this
  | @behind lo hi first chunk hc hge hlarge hmem =>
      subst hc
      obtain ⟨-, -, hlo, -, hlt⟩ := wellFormed_append_cons.mp h
      dsimp only
      rw [stop_eq hlt]
      split
      · rename_i hstop
        exact ⟨_, rfl, extend_spec h hn hstop data⟩
      · rename_i hstop
        have hends : ∀ s ∈ lo ++ [(first, chunk)], s.1 + s.2.length < n := by
          intro s hs
          rcases List.mem_append.mp hs with hs | hs
          · have := hlo s hs
            omega
          · rw [List.mem_singleton.mp hs]
            exact lt_of_le_of_ne hge hstop
        have hsplit : lo ++ (first, chunk) :: hi = (lo ++ [(first, chunk)]) ++ hi :=
          List.append_cons ..
        rw [hsplit] at h ⊢
        rw [List.append_cons]
        exact ⟨_, rfl, insertChunk_spec h hn hends hlarge data⟩

/-! ## Runs -/

/-- A container, and the map that the plain operations give. -/
structure ChunkSession (T : Type*) where
  chunks : Chunks T
  items : ℕ → Option T

namespace ChunkSession

def start : ChunkSession T := ⟨[], fun _ => none⟩

def next (s : ChunkSession T) (op : ChunkOp T) : ChunkSession T :=
  ⟨(apply s.chunks op).getD s.chunks, applyPlain s.items op⟩

/-- Numbers are below the largest `unsigned`, and what is merged is absent. -/
def Proper (s : ChunkSession T) : ChunkOp T → Prop
  | .mergeInto n _ => n < 2 ^ 32 - 1 ∧ haveItem s.chunks n = false
  | .removeItem n => n < 2 ^ 32 - 1
  | .removeAllStartingWith n => n < 2 ^ 32 - 1

/-- The chunks are separated, and the container is the map. -/
structure IsMap (s : ChunkSession T) : Prop where
  separated : Separated s.chunks
  haveItem_eq : ∀ n, haveItem s.chunks n = (s.items n).isSome
  findItem_eq : ∀ n, findItem s.chunks n = s.items n

/-- `removeItem` is called for a number that is absent, or whose successor is. -/
def Exact (s : ChunkSession T) : ChunkOp T → Prop
  | .removeItem n => s.items n = none ∨ s.items (n + 1) = none
  | _ => True

/-- The container stands for the map. -/
structure Kept (s : ChunkSession T) : Prop where
  wellFormed : WellFormed s.chunks
  value_eq : value s.chunks = s.items

variable {s : ChunkSession T} {op : ChunkOp T}

theorem Kept.isMap (h : s.Kept) : s.IsMap :=
  ⟨h.wellFormed.separated, fun n => by rw [BlockChainSync.haveItem_eq h.wellFormed, h.value_eq],
    fun n => by rw [BlockChainSync.findItem_eq h.wellFormed, h.value_eq]⟩

theorem IsMap.kept (h : s.IsMap) (hwell : WellFormed s.chunks) : s.Kept :=
  ⟨hwell, funext fun n => by rw [← BlockChainSync.findItem_eq hwell, h.findItem_eq]⟩

/-- Every call leaves the chunks separated. -/
theorem wellFormed_next (h : WellFormed s.chunks) (hin : s.Proper op) :
    WellFormed (s.next op).chunks := by
  cases op with
  | mergeInto n data =>
      obtain ⟨c', hrun, hwell, -⟩ := mergeInto_spec h (hin.1.trans (by decide)) hin.2 data
      rw [next, apply, hrun]
      exact hwell
  | removeItem n => exact (value_removeItem h n).1
  | removeAllStartingWith n => exact (value_removeAllStartingWith h n).1

/-- A call does to the container what it says exactly if it is exact. -/
theorem value_next_iff (h : s.Kept) (hin : s.Proper op) :
    value (s.next op).chunks = (s.next op).items ↔ s.Exact op := by
  cases op with
  | mergeInto n data =>
      refine iff_of_true (funext fun x => ?_) trivial
      obtain ⟨c', hrun, -, hvalue⟩ := mergeInto_spec h.wellFormed (hin.1.trans (by decide)) hin.2 data
      rw [next, apply, hrun, Option.getD_some, hvalue, h.value_eq]
      exact (Function.update_apply ..).symm
  | removeItem n =>
      obtain ⟨-, last, hle, hlast, hsome, hvalue⟩ := value_removeItem h.wellFormed n
      rw [h.value_eq] at hlast hsome hvalue
      rw [Exact, ← removed_eq_update_iff hle hlast hsome]
      exact iff_of_eq (congrArg (· = Function.update s.items n none) (funext hvalue))
  | removeAllStartingWith n =>
      refine iff_of_true (funext fun x => ?_) trivial
      have hvalue := (value_removeAllStartingWith h.wellFormed n).2 x
      rw [h.value_eq] at hvalue
      exact hvalue

theorem isMap_next_iff (h : s.Kept) (hin : s.Proper op) : (s.next op).IsMap ↔ s.Exact op := by
  have hwell : WellFormed (s.next op).chunks := wellFormed_next h.wellFormed hin
  rw [← value_next_iff h hin]
  exact ⟨fun hmap => (hmap.kept hwell).value_eq, fun hvalue => Kept.isMap ⟨hwell, hvalue⟩⟩

theorem kept_next (h : s.Kept) (hin : s.Proper op) (hexact : s.Exact op) : (s.next op).Kept :=
  ⟨wellFormed_next h.wellFormed hin, (value_next_iff h hin).mpr hexact⟩

theorem kept_start : (start : ChunkSession T).Kept := ⟨.nil, rfl⟩

/-- The chunks stay separated in every run.  A container is the map throughout a run exactly if
every removed number is absent, or has an absent successor. -/
theorem isMap_run_iff (ops : List (ChunkOp T)) (hin : Along next Proper start ops) :
    (∀ s ∈ trail next id start ops, Separated s.chunks) ∧
      ((∀ s ∈ trail next id start ops, s.IsMap) ↔ Along next Exact start ops) := by
  have hwell : ∀ s ∈ trail next id start ops, WellFormed s.chunks :=
    forall_trail_of_along (fun _ _ => wellFormed_next) ops .nil hin
  refine ⟨fun s hs => (hwell s hs).separated, ?_⟩
  rw [forall_trail_iff_along, and_iff_right kept_start.isMap]
  exact along_iff (fun _ _ => isMap_next_iff) (fun _ _ => kept_next) ops kept_start hin

/-- Three numbers in the order in which the second joins both neighbours, and removals at the end
of a chunk. -/
def joined : List (ChunkOp ℕ) :=
  [.mergeInto 7 70, .mergeInto 5 50, .mergeInto 6 60, .removeItem 7, .removeItem 9,
    .removeAllStartingWith 6]

theorem isMap_run_iff_joined :
    Along next Proper start joined ∧ ∀ s ∈ trail next id start joined, s.IsMap := by
  have hin : Along next Proper start joined := by
    simp only [joined, Along, Proper]
    decide
  have hexact : Along next Exact start joined := by
    simp only [joined, Along, Exact]
    decide
  exact ⟨hin, (isMap_run_iff joined hin).2.mpr hexact⟩

/-- One number is removed from a chunk of three. -/
def firstRemoved : List (ChunkOp ℕ) :=
  [.mergeInto 1 10, .mergeInto 2 20, .mergeInto 3 30, .removeItem 1]

/-- The other two are gone with it. -/
theorem firstRemoved_not_isMap :
    Along next Proper start firstRemoved ∧
      ¬∀ s ∈ trail next id start firstRemoved, s.IsMap := by
  refine ⟨by simp only [firstRemoved, Along, Proper]; decide, fun h => ?_⟩
  have hlast : (firstRemoved.foldl next start).IsMap := by
    refine h _ ?_
    simp [firstRemoved, trail]
  have hlost := hlast.haveItem_eq 3
  revert hlost
  decide

end ChunkSession

end CppSwc.BlockChainSync
