import Mathlib.Data.List.FinRange
import CppSwc.Trie.Node

/-!
# The trie from scratch

`TrieHash` of libdevcore builds the node of the trie that holds a whole map, from its entries in
the order of their keys.  What it builds is canonical and holds just the entries.
-/

namespace CppSwc.Trie

open Lib Std

/-- `BytesMap`. -/
abbrev BytesMap := ExtTreeMap Bytes Bytes

/-- `HexMap`. -/
abbrev HexMap := ExtTreeMap Nibbles Bytes

/-- An entry of a `HexMap`. -/
abbrev Entry := Nibbles × Bytes

/-! ## Building -/

/-- The number of nibbles that two keys share up to `x`, counted from `preLen` on. -/
def sharedUpTo (preLen x : ℕ) (a b : Nibbles) : ℕ :=
  preLen + shared ((a.take x).drop preLen) ((b.take x).drop preLen)

/-- The loop of `hash256rlp` for `sharedPre`, over the entries behind the first one. -/
def sharedPreOf (preLen : ℕ) (first : Nibbles) : List Entry → ℕ → ℕ
  | [], sharedPre => sharedPre
  | e :: s, sharedPre =>
      if sharedPre = 0 then sharedPre
      else sharedPreOf preLen first s
        (min (sharedUpTo preLen (min sharedPre (min first.length e.1.length)) first e.1) sharedPre)

section

variable (sha3 : Rlp → H256)

/-- The loop of `hash256rlp` over the sixteen entries of a branch. -/
def slots (aux : List Entry → Option Rlp) (preLen : ℕ) :
    List (Fin 16) → List Entry → Option (List Rlp)
  | [], _ => some []
  | i :: is, b =>
      let range := b.takeWhile fun e => e.1[preLen]? = some i
      (if range = [] then some (.data []) else aux range).bind fun r =>
        (slots aux preLen is (b.dropWhile fun e => e.1[preLen]? = some i)).map (r :: ·)

/-- `hash256rlp`.  The bound before the first comparison, `(unsigned)-1`, is the length of the
first key here, to which the comparison brings it down. -/
def hash256rlp : ℕ → List Entry → ℕ → Option Rlp
  | 0, _, _ => none
  | _ + 1, [], _ => some (.data [])
  | _ + 1, [e], preLen => some (pair (e.1.drop preLen) true (.data e.2))
  | fuel + 1, first :: second :: s, preLen =>
      -- `hash256aux`
      let aux (range : List Entry) (preLen : ℕ) : Option Rlp :=
        (hash256rlp fuel range preLen).map (ref sha3)
      let sharedPre := sharedPreOf preLen first.1 (second :: s) first.1.length
      if preLen < sharedPre then do
        let r ← aux (first :: second :: s) sharedPre
        some (pair ((first.1.take sharedPre).drop preLen) false r)
      else do
        let here := preLen = first.1.length
        let b := if here then second :: s else first :: second :: s
        let rs ← slots (fun range => aux range (preLen + 1)) preLen (List.finRange 16) b
        some (.list (rs ++ [.data (if here then first.2 else [])]))

/-- The entries by nibbles. -/
def hexMap (s : BytesMap) : HexMap :=
  s.toList.reverse.foldl (fun m e => m.insert (asNibbles e.1) e.2) ∅

/-- The entries in order. -/
def entriesOf (s : BytesMap) : List Entry := (hexMap s).toList

/-- The length of the longest key. -/
def longest (s : List Entry) : ℕ := s.foldr (fun e n => max e.1.length n) 0

/-- `rlp256`. -/
def rlp256 (s : BytesMap) : Option Rlp :=
  if s.isEmpty then some RLPNull
  else hash256rlp sha3 (longest (entriesOf s) + 1) (entriesOf s) 0

/-- `hash256`. -/
def hash256 (s : BytesMap) : Option H256 := (rlp256 sha3 s).map sha3

end

/-! ## Shared prefixes -/

theorem shared_take (a b : Nibbles) (j : ℕ) :
    shared (a.take j) (b.take j) = min (shared a b) j := by
  induction a generalizing b j with
  | nil => simp [shared, Patricia.shared]
  | cons x a ih =>
      cases b with
      | nil => cases j <;> simp [shared, Patricia.shared]
      | cons y b =>
          cases j with
          | zero => simp [shared, Patricia.shared]
          | succ j =>
              have := ih b j
              simp only [shared] at this
              simp only [shared, List.take_succ_cons, Patricia.shared, this]
              split <;> omega

/-- The least number of nibbles that a key shares with others. -/
def sharedAll (a : Nibbles) : List Nibbles → ℕ → ℕ
  | [], c => c
  | b :: bs, c => sharedAll a bs (min (shared a b) c)

theorem sharedAll_le (a : Nibbles) (bs : List Nibbles) (c : ℕ) : sharedAll a bs c ≤ c := by
  induction bs generalizing c with
  | nil => exact le_rfl
  | cons b bs ih => exact (ih _).trans (min_le_right _ _)

theorem sharedAll_le_of_mem {a b : Nibbles} {bs : List Nibbles} (hb : b ∈ bs) (c : ℕ) :
    sharedAll a bs c ≤ shared a b := by
  induction bs generalizing c with
  | nil => cases hb
  | cons d bs ih =>
      rcases List.mem_cons.mp hb with rfl | hb
      · exact (sharedAll_le a bs _).trans (min_le_left _ _)
      · exact ih hb _

/-- One of the keys attains it. -/
theorem exists_sharedAll (a : Nibbles) (bs : List Nibbles) (c : ℕ) :
    sharedAll a bs c = c ∨ ∃ b ∈ bs, sharedAll a bs c = shared a b := by
  induction bs generalizing c with
  | nil => exact .inl rfl
  | cons d bs ih =>
      rw [sharedAll]
      rcases ih (min (shared a d) c) with h | ⟨b, hb, h⟩
      · rcases min_choice (shared a d) c with hmin | hmin
        · exact .inr ⟨d, List.mem_cons_self, h.trans hmin⟩
        · exact .inl (h.trans hmin)
      · exact .inr ⟨b, List.mem_cons_of_mem d hb, h⟩

theorem sharedUpTo_append (pre a b : Nibbles) {c : ℕ} (hlength : a.length = b.length)
    (hc : c ≤ a.length) :
    sharedUpTo pre.length (min (pre.length + c) (min (pre ++ a).length (pre ++ b).length))
      (pre ++ a) (pre ++ b) = pre.length + min (shared a b) c := by
  have hx : min (pre.length + c) (min (pre ++ a).length (pre ++ b).length) = pre.length + c := by
    rw [List.length_append, List.length_append]
    omega
  rw [sharedUpTo, hx, List.take_length_add_append, List.take_length_add_append, List.drop_left,
    List.drop_left, shared_take]

theorem sharedPreOf_eq (pre a : Nibbles) (s : List Entry) {c : ℕ} (hc : c ≤ a.length)
    (hs : ∀ e ∈ s, ∃ b, b.length = a.length ∧ e.1 = pre ++ b) :
    sharedPreOf pre.length (pre ++ a) s (pre.length + c) =
      pre.length + sharedAll a (s.map fun e => e.1.drop pre.length) c := by
  induction s generalizing c with
  | nil => rfl
  | cons e s ih =>
      obtain ⟨b, hb, he⟩ := hs e List.mem_cons_self
      have hrest := fun e' he' => hs e' (List.mem_cons_of_mem e he')
      rw [sharedPreOf, List.map_cons, sharedAll, he, List.drop_left,
        sharedUpTo_append pre a b hb.symm hc]
      have hmin : min (pre.length + min (shared a b) c) (pre.length + c) =
          pre.length + min (shared a b) c := by omega
      split
      · next hzero =>
          obtain rfl : c = 0 := by omega
          rw [Nat.min_zero]
          have := sharedAll_le a (s.map fun e => e.1.drop pre.length) 0
          omega
      · rw [hmin, ih (by omega) hrest]

/-! ## Ranges -/

theorem takeWhile_eq_filter {α : Type} {p : α → Bool} {l : List α}
    (h : l.Pairwise fun a b => p b = true → p a = true) :
    l.takeWhile p = l.filter p ∧ l.dropWhile p = l.filter fun a => !p a := by
  induction l with
  | nil => exact ⟨rfl, rfl⟩
  | cons a l ih =>
      obtain ⟨ha, hl⟩ := List.pairwise_cons.mp h
      by_cases hp : p a = true
      · obtain ⟨ih₁, ih₂⟩ := ih hl
        simp [hp, ih₁, ih₂]
      · have hnone : ∀ b ∈ l, p b = false := fun b hb =>
          Bool.eq_false_iff.mpr fun hpb => hp (ha b hb hpb)
        have hfilter : l.filter p = [] := List.filter_eq_nil_iff.mpr fun b hb => by simp [hnone b hb]
        have hall : l.filter (fun a => !p a) = l :=
          List.filter_eq_self.mpr fun b hb => by simp [hnone b hb]
        simp [hp, hfilter, hall]

/-- Entries in the order of their digits fall into one range a digit. -/
theorem slots_eq {aux : List Entry → Option Rlp} {preLen : ℕ} {g : Fin 16 → Rlp}
    {is : List (Fin 16)} {b : List Entry} (digit : Entry → Fin 16)
    (hdigit : ∀ e ∈ b, e.1[preLen]? = some (digit e)) (hmem : ∀ e ∈ b, digit e ∈ is)
    (hsorted : b.Pairwise fun e e' => digit e ≤ digit e') (his : is.Pairwise (· < ·))
    (haux : ∀ i ∈ is, (if b.filter (fun e => e.1[preLen]? = some i) = [] then some (.data [])
      else aux (b.filter fun e => e.1[preLen]? = some i)) = some (g i)) :
    slots aux preLen is b = some (is.map g) := by
  induction is generalizing b with
  | nil => rfl
  | cons i is ih =>
      obtain ⟨hi, his⟩ := List.pairwise_cons.mp his
      have hge : ∀ e ∈ b, i ≤ digit e := by
        intro e he
        rcases List.mem_cons.mp (hmem e he) with h | h
        · exact h.ge
        · exact (hi _ h).le
      obtain ⟨htake, hdrop⟩ := takeWhile_eq_filter (p := fun e => e.1[preLen]? = some i) (l := b) (by
        refine List.Pairwise.imp_of_mem (fun {e e'} he he' hle hp => ?_) hsorted
        rw [decide_eq_true_iff, hdigit e' he', Option.some.injEq] at hp
        rw [decide_eq_true_iff, hdigit e he, Option.some.injEq]
        exact Fin.le_antisymm (hle.trans hp.le) (hge e he))
      simp only [slots, htake, hdrop]
      rw [haux i List.mem_cons_self, Option.bind_some]
      rw [ih (fun e he => hdigit e (List.mem_of_mem_filter he)) ?_
        (hsorted.filter _) his ?_]
      · rfl
      · intro e he
        obtain ⟨heb, hne⟩ := List.mem_filter.mp he
        refine (List.mem_cons.mp (hmem e heb)).resolve_left fun heq => ?_
        rw [hdigit e heb, heq] at hne
        simp at hne
      · intro j hj
        have hfilter : (b.filter fun e => !decide (e.1[preLen]? = some i)).filter
            (fun e => e.1[preLen]? = some j) = b.filter fun e => e.1[preLen]? = some j := by
          rw [List.filter_filter]
          refine List.filter_congr fun e _ => ?_
          rcases eq_or_ne e.1[preLen]? (some j) with h | h
          · simp [h, (hi j hj).ne']
          · simp [h]
        rw [hfilter]
        exact haux j (List.mem_cons_of_mem i hj)

/-! ## The order of the keys -/

theorem compare_append (pre a b : Nibbles) : compare (pre ++ a) (pre ++ b) = compare a b := by
  induction pre with
  | nil => rfl
  | cons x pre ih =>
      have hx : compare x x = .eq := ReflCmp.compare_self
      rw [List.cons_append, List.cons_append, List.compare_cons_cons, ih, hx]
      rfl

theorem le_of_compare {i j : Fin 16} {a b : Nibbles} (h : compare (i :: a) (j :: b) = .lt) :
    i ≤ j := by
  rw [List.compare_cons_cons] at h
  by_contra hlt
  rw [compare_gt_iff_gt.mpr (Fin.not_le.mp hlt)] at h
  cases h

/-- Entries in order, with keys that begin with `pre` and go on for `m` nibbles. -/
structure Segment (pre : Nibbles) (m : ℕ) (s : List Entry) : Prop where
  sorted : s.Pairwise fun e e' => compare e.1 e'.1 = .lt
  keys : ∀ e ∈ s, ∃ k, k.length = m ∧ e.1 = pre ++ k

/-- The trie holds the entries, by what follows `pre`. -/
def Lists (pre : Nibbles) (s : List Entry) (t : Map) : Prop :=
  ∀ k v, t.lookup k = some v ↔ (pre ++ k, v) ∈ s

variable {sha3 : Rlp → H256} {pre q : Nibbles} {m fuel : ℕ} {s : List Entry} {t : Map}

theorem Segment.filter (hs : Segment pre m s) (p : Entry → Bool) : Segment pre m (s.filter p) where
  sorted := hs.sorted.filter p
  keys e he := hs.keys e (List.mem_of_mem_filter he)

/-- Going on by more nibbles that all keys share. -/
theorem Segment.extend {c : ℕ} (hs : Segment pre m s) (hc : q.length + c = m)
    (hq : ∀ e ∈ s, pre ++ q <+: e.1) : Segment (pre ++ q) c s where
  sorted := hs.sorted
  keys := by
    intro e he
    obtain ⟨k, hk, hek⟩ := hs.keys e he
    obtain ⟨l, hl⟩ := hq e he
    refine ⟨l, ?_, hl.symm⟩
    have := congrArg List.length (hl.trans hek)
    simp only [List.length_append] at this
    omega

/-- Two keys that share `shared` nibbles part behind them. -/
theorem exists_split_shared {a b : Nibbles} (hlength : a.length = b.length) (hne : a ≠ b) :
    ∃ q i r j l, a = q ++ i :: r ∧ b = q ++ j :: l ∧ i ≠ j ∧ shared a b = q.length := by
  obtain ⟨q, i, r, j, l, rfl, rfl, hij⟩ := Patricia.exists_split_of_length_le hlength.le
    fun hp => hne (hp.eq_of_length hlength)
  exact ⟨q, i, r, j, l, rfl, rfl, hij, Patricia.shared_append hij q r l⟩

theorem take_prefix_of_le_shared {a b : Nibbles} {c : ℕ} (h : c ≤ shared a b) : a.take c <+: b := by
  induction a generalizing b c with
  | nil => simp
  | cons x a ih =>
      cases b with
      | nil =>
          obtain rfl : c = 0 := Nat.le_zero.mp h
          simp
      | cons y b =>
          cases c with
          | zero => simp
          | succ c =>
              rw [shared, Patricia.shared] at h
              split at h
              · next hxy =>
                  rw [List.take_succ_cons, hxy, List.cons_prefix_cons]
                  exact ⟨rfl, ih (Nat.le_of_succ_le_succ h)⟩
              · omega

/-- A canonical trie with keys that part at once is a branch. -/
theorem exists_branch_of_lookup {i j : Fin 16} {a b : Nibbles} (ht : Patricia.Canonical m t)
    (hi : t.lookup (i :: a) ≠ none) (hj : t.lookup (j :: b) ≠ none) (hij : i ≠ j) :
    ∃ cs, t = .branch cs := by
  cases ht with
  | @leaf _ k w hk =>
      simp only [Patricia.lookup_leaf, ne_eq, ite_eq_right_iff, not_forall] at hi hj
      obtain ⟨hi, -⟩ := hi
      obtain ⟨hj, -⟩ := hj
      exact absurd (List.cons.inj (hi.trans hj.symm)).1 hij
  | ext hne hm hb =>
      have := Patricia.prefix_of_split (p := []) hij (Patricia.prefix_of_lookup_ext hi)
        (Patricia.prefix_of_lookup_ext hj)
      exact absurd (List.prefix_nil.mp this) hne
  | branch _ _ => exact ⟨_, rfl⟩

/-- The entries with a digit behind `pre`. -/
def range (pre : Nibbles) (s : List Entry) (i : Fin 16) : List Entry :=
  s.filter fun e => e.1[pre.length]? = some i

/-- One range of a branch, as it stands there. -/
theorem exists_child (hs : Segment pre (m + 1) s)
    (ih : ∀ {pre : Nibbles} {s : List Entry}, Segment pre m s → ∃ t,
      hash256rlp sha3 fuel s pre.length = some (node sha3 t) ∧ Patricia.Slot m t ∧ Lists pre s t)
    (i : Fin 16) : ∃ t : Map,
      (if range pre s i = [] then some (.data [])
        else (hash256rlp sha3 fuel (range pre s i) (pre.length + 1)).map (ref sha3)) =
          some (ref sha3 (node sha3 t)) ∧
      Patricia.Slot m t ∧ Lists (pre ++ [i]) (range pre s i) t := by
  have hsub : Segment (pre ++ [i]) m (range pre s i) := by
    refine (hs.filter _).extend (Nat.add_comm 1 m) fun e he => ?_
    obtain ⟨hmem, hdigit⟩ := List.mem_filter.mp he
    obtain ⟨k, hk, hek⟩ := hs.keys e hmem
    rw [decide_eq_true_iff, hek, List.getElem?_append_right le_rfl, Nat.sub_self] at hdigit
    cases k with
    | nil => cases hdigit
    | cons j k =>
        obtain rfl : j = i := by simpa using hdigit
        rw [hek]
        exact (List.prefix_append_right_inj pre).mpr (List.cons_prefix_cons.mpr ⟨rfl, k.nil_prefix⟩)
  obtain ⟨t, hrun, hslot, hlists⟩ := ih hsub
  refine ⟨t, ?_, hslot, hlists⟩
  rw [List.length_append, List.length_singleton] at hrun
  split
  · next hnil =>
      have hempty : t = .empty := by
        by_contra hne
        obtain ⟨k, v, hk⟩ := (hslot hne).exists_lookup
        have := (hlists k v).mp hk
        rw [hnil] at this
        cases this
      rw [hempty, node, ref_RLPNull]
      rfl
  · rw [hrun]
    rfl

/-- The loop over the entries of a branch gives the children. -/
theorem slots_segment {g : Fin 16 → Rlp} (hs : Segment pre (m + 1) s)
    (hg : ∀ i, (if range pre s i = [] then some (.data [])
      else (hash256rlp sha3 fuel (range pre s i) (pre.length + 1)).map (ref sha3)) = some (g i)) :
    slots (fun range => (hash256rlp sha3 fuel range (pre.length + 1)).map (ref sha3)) pre.length
      (List.finRange 16) s = some ((List.finRange 16).map g) := by
  have hdigit : ∀ e ∈ s, ∃ i k, e.1 = pre ++ i :: k ∧ e.1[pre.length]? = some i := by
    intro e he
    obtain ⟨k, hk, heq⟩ := hs.keys e he
    cases k with
    | nil => cases hk
    | cons i k =>
        refine ⟨i, k, heq, ?_⟩
        rw [heq, List.getElem?_append_right le_rfl, Nat.sub_self]
        rfl
  refine slots_eq (fun e => (e.1[pre.length]?).getD 0) ?_ (fun e _ => List.mem_finRange _) ?_
    (List.pairwise_lt_finRange 16) fun i _ => hg i
  · intro e he
    obtain ⟨i, k, -, hi⟩ := hdigit e he
    rw [hi, Option.getD_some]
  · refine List.Pairwise.imp_of_mem (fun {e e'} he he' hlt => ?_) hs.sorted
    obtain ⟨i, k, heq, hi⟩ := hdigit e he
    obtain ⟨j, l, heq', hj⟩ := hdigit e' he'
    rw [heq, heq', compare_append] at hlt
    rw [hi, hj]
    exact le_of_compare hlt

/-- Children that hold the ranges make a branch that holds the entries. -/
theorem lists_branch {cs : Fin 16 → Map} (hs : Segment pre (m + 1) s)
    (hcs : ∀ i, Lists (pre ++ [i]) (range pre s i) (cs i)) : Lists pre s (.branch cs) := by
  intro k v
  cases k with
  | nil =>
      rw [Patricia.lookup_branch_nil, List.append_nil]
      refine iff_of_false (by simp) fun hmem => ?_
      obtain ⟨k, hk, heq⟩ := hs.keys _ hmem
      have hlength : pre.length = (pre ++ k).length := congrArg List.length heq
      rw [List.length_append] at hlength
      omega
  | cons i k =>
      have hassoc : pre ++ [i] ++ k = pre ++ i :: k := by simp
      rw [Patricia.lookup_branch_cons, hcs i k v, hassoc, range, List.mem_filter,
        decide_eq_true_iff, List.getElem?_append_right le_rfl, Nat.sub_self]
      exact and_iff_left rfl

/-- The builder gives the node of a canonical trie that holds the entries. -/
theorem exists_hash256rlp (hs : Segment pre m s) (hfuel : m < fuel) : ∃ t,
    hash256rlp sha3 fuel s pre.length = some (node sha3 t) ∧ Patricia.Slot m t ∧ Lists pre s t := by
  induction fuel generalizing pre m s with
  | zero => cases hfuel
  | succ fuel ih =>
  rcases s with - | ⟨first, - | ⟨second, rest⟩⟩
  · exact ⟨.empty, rfl, fun h => absurd rfl h, fun k v => iff_of_false (by simp) (by simp)⟩
  · obtain ⟨k₀, hk₀, he⟩ := hs.keys first List.mem_cons_self
    refine ⟨.leaf k₀ first.2, ?_, fun _ => .leaf hk₀, fun k v => ?_⟩
    · rw [hash256rlp, he, List.drop_left]
      rfl
    · obtain ⟨key, w⟩ := first
      obtain rfl : key = pre ++ k₀ := he
      rw [Patricia.lookup_leaf, List.mem_singleton, Prod.mk.injEq, List.append_cancel_left_eq]
      split
      · next heq => simp [heq, eq_comm]
      · next hne => simp [hne]
  · obtain ⟨a, ha, hfirst⟩ := hs.keys first List.mem_cons_self
    obtain ⟨hlt, hsorted⟩ := List.pairwise_cons.mp hs.sorted
    have hrest : ∀ e ∈ second :: rest, ∃ b, b.length = a.length ∧ e.1 = pre ++ b := by
      intro e he
      obtain ⟨b, hb, heq⟩ := hs.keys e (List.mem_cons_of_mem first he)
      exact ⟨b, hb.trans ha.symm, heq⟩
    set others := (second :: rest).map fun e => e.1.drop pre.length with hothers
    have hpre : sharedPreOf pre.length first.1 (second :: rest) first.1.length =
        pre.length + sharedAll a others a.length := by
      rw [hfirst, List.length_append]
      exact sharedPreOf_eq pre a _ le_rfl hrest
    -- the key that shares least with the first one parts from it behind `q`
    have hparts : ∀ b ∈ others, b.length = a.length ∧ a ≠ b ∧
        ∃ v, (pre ++ b, v) ∈ first :: second :: rest := by
      intro b hb
      obtain ⟨e, he, rfl⟩ := List.mem_map.mp hb
      obtain ⟨b, hb, heq⟩ := hrest e he
      have hdrop : e.1.drop pre.length = b := by rw [heq, List.drop_left]
      rw [hdrop]
      refine ⟨hb, ?_, e.2, heq ▸ List.mem_cons_of_mem first he⟩
      rintro rfl
      have hlt' := hlt e he
      rw [hfirst, heq] at hlt'
      have hself : compare (pre ++ a) (pre ++ a) = .eq := ReflCmp.compare_self
      rw [hself] at hlt'
      cases hlt'
    obtain ⟨b, hb, hmin⟩ : ∃ b ∈ others, sharedAll a others a.length = shared a b := by
      rcases exists_sharedAll a others a.length with h | h
      · obtain ⟨b, hb⟩ : ∃ b, b ∈ others := ⟨_, List.mem_cons_self⟩
        obtain ⟨hlength, hne, -⟩ := hparts b hb
        obtain ⟨q, i, r, j, l, rfl, rfl, hij, hshared⟩ := exists_split_shared hlength.symm hne
        have := sharedAll_le_of_mem (a := q ++ i :: r) hb (q ++ i :: r).length
        rw [h, hshared] at this
        simp at this
      · exact h
    obtain ⟨hlength, hne, v, hmem⟩ := hparts b hb
    obtain ⟨q, i, r, j, l, rfl, rfl, hij, hshared⟩ := exists_split_shared hlength.symm hne
    rw [hmin, hshared] at hpre
    have hpos : ∀ e ∈ first :: second :: rest, pre ++ q <+: e.1 := by
      intro e he
      rcases List.mem_cons.mp he with rfl | he
      · rw [hfirst, ← List.append_assoc]
        exact List.prefix_append _ _
      · obtain ⟨b, -, heq⟩ := hrest e he
        have hdrop : b ∈ others := List.mem_map.mpr ⟨e, he, by rw [heq, List.drop_left]⟩
        have hle := sharedAll_le_of_mem (a := q ++ i :: r) hdrop (q ++ i :: r).length
        rw [hmin, hshared] at hle
        have htake := take_prefix_of_le_shared hle
        rw [List.take_left] at htake
        rw [heq]
        exact (List.prefix_append_right_inj pre).mpr htake
    have hmem₀ : (pre ++ (q ++ i :: r), first.2) ∈ first :: second :: rest := by
      rw [← hfirst]
      exact List.mem_cons_self
    rw [List.length_append, List.length_cons] at ha
    rcases eq_or_ne q [] with rfl | hq
    · obtain rfl : r.length + 1 = m := by simpa using ha
      choose cs hcs using exists_child hs fun hseg => ih hseg (by omega)
      have hlists := lists_branch hs fun i => (hcs i).2.2
      have hin : ∀ {i k w}, (pre ++ i :: k, w) ∈ first :: second :: rest → cs i ≠ .empty := by
        intro i k w hmem he
        have hlookup := (hlists (i :: k) w).mpr hmem
        rw [Patricia.lookup_branch_cons, he] at hlookup
        cases hlookup
      refine ⟨.branch cs, ?_, fun _ => .branch ⟨i, j, hij, hin hmem₀, hin hmem⟩
        fun i hi => (hcs i).2.1 hi, hlists⟩
      have hlt : ¬pre.length = first.1.length := by
        rw [hfirst]
        simp
      simp only [hash256rlp, hpre, List.length_nil, Nat.add_zero, Nat.lt_irrefl, if_false, hlt,
        slots_segment hs fun i => (hcs i).1]
      rw [node, seventeen, List.ofFn_eq_map]
      rfl
    · have hqpos : 0 < q.length := List.length_pos_of_ne_nil hq
      obtain ⟨t, hrun, hslot, hlists⟩ := ih (hs.extend ha hpos) (by omega)
      have hi := (hlists (i :: r) first.2).mpr (by rwa [List.append_assoc])
      have hj := (hlists (j :: l) v).mpr (by rwa [List.append_assoc])
      have ht : Patricia.Canonical (r.length + 1) t := hslot (by rintro rfl; cases hi)
      obtain ⟨cs, rfl⟩ := exists_branch_of_lookup ht
        (ne_of_eq_of_ne hi (Option.some_ne_none _)) (ne_of_eq_of_ne hj (Option.some_ne_none _)) hij
      refine ⟨.ext q (.branch cs), ?_, fun _ => .ext hq ha ht, fun k w => ?_⟩
      · rw [List.length_append] at hrun
        simp only [hash256rlp, hpre]
        rw [if_pos (Nat.lt_add_of_pos_right hqpos), hrun, hfirst, List.take_length_add_append,
          List.drop_left, List.take_left]
        rfl
      · by_cases hqk : q <+: k
        · obtain ⟨k, rfl⟩ := hqk
          rw [Patricia.lookup_ext_append, hlists, List.append_assoc]
        · rw [Patricia.lookup_ext_apart hqk]
          exact iff_of_false (by simp) fun hmem =>
            hqk ((List.prefix_append_right_inj pre).mp (hpos _ hmem))

end CppSwc.Trie
