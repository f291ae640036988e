import Mathlib.Data.List.Infix
import Mathlib.Data.Set.Function
import Mathlib.Logic.ExistsUnique
import Mathlib.Tactic.Common

/-!
# Patricia tries

Tries over an alphabet `ι` with compressed paths, and values at keys of one length.  A
canonical trie has no extension over an extension or a leaf, and every branch has two
children at least.  Then its shape is determined by its lookups (`Canonical.eq_of_lookup`),
insertion and deletion keep it, and so a trie does not tell how it was built.
-/

namespace CppSwc.Lib

universe u v

/-- A trie.  The key of a leaf or an extension is what is left of the path. -/
inductive Patricia (ι : Type u) (υ : Type v) where
  | empty
  | leaf (key : List ι) (value : υ)
  | ext (key : List ι) (child : Patricia ι υ)
  | branch (children : ι → Patricia ι υ)

namespace Patricia

variable {ι : Type u} {υ : Type v} [DecidableEq ι]

/-! ## Shared prefixes -/

/-- The number of digits that two keys share at their beginning. -/
def shared : List ι → List ι → ℕ
  | a :: k, b :: l => if a = b then shared k l + 1 else 0
  | _, _ => 0

/-- Keys that are no prefixes of each other part at some digit. -/
theorem exists_split {k l : List ι} (hk : ¬k <+: l) (hl : ¬l <+: k) :
    ∃ p a r b s, k = p ++ a :: r ∧ l = p ++ b :: s ∧ a ≠ b := by
  induction k generalizing l with
  | nil => exact absurd List.nil_prefix hk
  | cons a k ih =>
      cases l with
      | nil => exact absurd List.nil_prefix hl
      | cons b l =>
          by_cases hab : a = b
          · subst hab
            obtain ⟨p, a', r, b', s, rfl, rfl, hne⟩ :=
              ih (fun h => hk (List.cons_prefix_cons.mpr ⟨rfl, h⟩))
                fun h => hl (List.cons_prefix_cons.mpr ⟨rfl, h⟩)
            exact ⟨a :: p, a', r, b', s, rfl, rfl, hne⟩
          · exact ⟨[], a, k, b, l, rfl, rfl, hab⟩

/-- They share what comes before. -/
@[simp] theorem shared_append {a b : ι} (hab : a ≠ b) (p r s : List ι) :
    shared (p ++ a :: r) (p ++ b :: s) = p.length := by
  induction p with
  | nil => simp [shared, hab]
  | cons c p ih => simp [shared, ih]

omit [DecidableEq ι] in
theorem not_prefix_of_split {a b : ι} (hab : a ≠ b) (p r s : List ι) :
    ¬p ++ a :: r <+: p ++ b :: s := by
  rw [List.prefix_append_right_inj, List.cons_prefix_cons]
  exact fun h => hab h.1

/-! ## Lookups -/

/-- The value at a key. -/
def lookup : Patricia ι υ → List ι → Option υ
  | empty, _ => none
  | leaf k₀ v, k => if k = k₀ then some v else none
  | ext k₀ c, k => if k₀ <+: k then c.lookup (k.drop k₀.length) else none
  | branch cs, k => match k with
      | [] => none
      | i :: k => (cs i).lookup k

@[simp] theorem lookup_empty (k : List ι) : (empty : Patricia ι υ).lookup k = none := rfl

@[simp] theorem lookup_leaf (k₀ k : List ι) (v : υ) :
    (leaf k₀ v).lookup k = if k = k₀ then some v else none := rfl

@[simp] theorem lookup_ext_append (p k : List ι) (c : Patricia ι υ) :
    (ext p c).lookup (p ++ k) = c.lookup k := by
  rw [lookup, if_pos (List.prefix_append p k), List.drop_left]

theorem lookup_ext_apart {p k : List ι} {c : Patricia ι υ} (h : ¬p <+: k) :
    (ext p c).lookup k = none := if_neg h

@[simp] theorem lookup_branch_nil (cs : ι → Patricia ι υ) : (branch cs).lookup [] = none := rfl

@[simp] theorem lookup_branch_cons (cs : ι → Patricia ι υ) (i : ι) (k : List ι) :
    (branch cs).lookup (i :: k) = (cs i).lookup k := rfl

/-! ## Canonical tries -/

omit [DecidableEq ι] in
/-- Two children of a branch are in use. -/
def Forks (cs : ι → Patricia ι υ) : Prop := ∃ i j, i ≠ j ∧ cs i ≠ empty ∧ cs j ≠ empty

omit [DecidableEq ι] in
/-- One of them is not the child at `i`. -/
theorem Forks.exists_other {cs : ι → Patricia ι υ} (h : Forks cs) (i : ι) :
    ∃ j, j ≠ i ∧ cs j ≠ empty := by
  obtain ⟨j, l, hjl, hj, hl⟩ := h
  by_cases hji : j = i
  · exact ⟨l, fun hli => hjl (hji.trans hli.symm), hl⟩
  · exact ⟨j, hji, hj⟩

/-- A trie that holds something, with keys of length `n` and no node that could be left out. -/
inductive Canonical : ℕ → Patricia ι υ → Prop where
  | leaf {n : ℕ} {k : List ι} {v : υ} : k.length = n → Canonical n (leaf k v)
  | ext {n m : ℕ} {k : List ι} {cs : ι → Patricia ι υ} :
      k ≠ [] → k.length + m = n → Canonical m (branch cs) → Canonical n (ext k (branch cs))
  | branch {n : ℕ} {cs : ι → Patricia ι υ} :
      Forks cs → (∀ i, cs i ≠ empty → Canonical n (cs i)) → Canonical (n + 1) (branch cs)

omit [DecidableEq ι] in
theorem Canonical.ne_empty {n : ℕ} {t : Patricia ι υ} (h : Canonical n t) : t ≠ empty := by
  rintro rfl
  cases h

/-- Nothing, or a canonical trie. -/
def Slot (n : ℕ) (t : Patricia ι υ) : Prop := t ≠ empty → Canonical n t

variable {n m : ℕ} {t u : Patricia ι υ} {cs : ι → Patricia ι υ} {k l : List ι} {v : υ}

omit [DecidableEq ι] in
theorem Slot.of_leaf (h : Slot n (leaf k v)) : k.length = n := by
  cases h (by simp) with
  | leaf hn => exact hn

omit [DecidableEq ι] in
theorem Slot.of_ext {c : Patricia ι υ} (h : Slot n (ext k c)) :
    ∃ cs m, c = branch cs ∧ k ≠ [] ∧ k.length + m = n ∧ Canonical m (branch cs) := by
  cases h (by simp) with
  | ext hne hn hb => exact ⟨_, _, rfl, hne, hn, hb⟩

omit [DecidableEq ι] in
theorem Slot.of_branch (h : Slot n (branch cs)) :
    ∃ m, n = m + 1 ∧ Forks cs ∧ ∀ i, Slot m (cs i) := by
  cases h (by simp) with
  | branch hforks hcs => exact ⟨_, rfl, hforks, hcs⟩

/-- All keys have the same length. -/
theorem Canonical.length_eq (h : Canonical n t) (hk : t.lookup k = some v) : k.length = n := by
  induction h generalizing k with
  | leaf hn =>
      rw [lookup_leaf] at hk
      split at hk
      · next heq => rw [heq, hn]
      · cases hk
  | ext hne hn _ ih =>
      rw [lookup] at hk
      split at hk
      · next hprefix =>
          have hlength := ih hk
          have := hprefix.length_le
          rw [List.length_drop] at hlength
          omega
      · cases hk
  | branch _ _ ih =>
      cases k with
      | nil => cases hk
      | cons i k =>
          rw [lookup_branch_cons] at hk
          rw [List.length_cons, ih i (fun he => by rw [he] at hk; cases hk) hk]

/-- A canonical trie holds something. -/
theorem Canonical.exists_lookup (h : Canonical n t) : ∃ k v, t.lookup k = some v := by
  induction h with
  | leaf hn => exact ⟨_, _, if_pos rfl⟩
  | ext hne hn _ ih =>
      obtain ⟨k, v, hk⟩ := ih
      exact ⟨_, v, (lookup_ext_append _ k _).trans hk⟩
  | branch hforks _ ih =>
      obtain ⟨i, -, -, hi, -⟩ := hforks
      obtain ⟨k, v, hk⟩ := ih i hi
      exact ⟨i :: k, v, hk⟩

/-- A branch holds keys with different digits in front. -/
theorem Canonical.exists_lookup_branch (h : Canonical n (Patricia.branch cs)) :
    ∃ i j k l, i ≠ j ∧ (cs i).lookup k ≠ none ∧ (cs j).lookup l ≠ none := by
  cases h with
  | branch hforks hcs =>
      obtain ⟨i, j, hij, hi, hj⟩ := hforks
      obtain ⟨k, v, hk⟩ := (hcs i hi).exists_lookup
      obtain ⟨l, w, hl⟩ := (hcs j hj).exists_lookup
      exact ⟨i, j, k, l, hij, by simp [hk], by simp [hl]⟩

theorem prefix_of_lookup_ext {p : List ι} (h : (ext p t).lookup k ≠ none) : p <+: k := by
  by_contra hp
  exact h (lookup_ext_apart hp)

/-- A prefix of keys that part behind `p` is a prefix of `p`. -/
theorem prefix_of_split {p q : List ι} {i j : ι} (hij : i ≠ j) (hk : q <+: p ++ i :: k)
    (hl : q <+: p ++ j :: l) : q <+: p := by
  by_contra hq
  rcases Nat.lt_or_ge p.length q.length with hlt | hge
  · have hi := List.prefix_of_prefix_length_le
      (List.prefix_append_right_inj p |>.mpr (List.cons_prefix_cons.mpr ⟨rfl, k.nil_prefix⟩)) hk
      (by rw [List.length_append, List.length_singleton]; omega)
    exact not_prefix_of_split hij p [] l (hi.trans hl)
  · exact hq (List.prefix_of_prefix_length_le hk (List.prefix_append p _) hge)

/-- A canonical trie is determined by its lookups. -/
theorem Canonical.eq_of_lookup (ht : Canonical n t) (hu : Canonical m u)
    (h : ∀ k, t.lookup k = u.lookup k) : t = u := by
  have alone : ∀ {k₀ : List ι} {w : υ} {cs : ι → Patricia ι υ} {l : ℕ} (p : List ι),
      Canonical l (Patricia.branch cs) →
      ¬∀ k, (Patricia.leaf k₀ w).lookup (p ++ k) = (Patricia.branch cs).lookup k := by
    intro k₀ w cs l p hb hall
    obtain ⟨i, j, k, l, hij, hi, hj⟩ := hb.exists_lookup_branch
    rw [← lookup_branch_cons cs, ← hall, lookup_leaf, ne_eq, ite_eq_right_iff, not_forall] at hi hj
    obtain ⟨hi, -⟩ := hi
    obtain ⟨hj, -⟩ := hj
    exact hij (List.cons.inj (List.append_cancel_left (hi.trans hj.symm))).1
  have apart : ∀ {k₀ : List ι} {c : Patricia ι υ} {cs : ι → Patricia ι υ} {l : ℕ}, k₀ ≠ [] →
      Canonical l (Patricia.branch cs) →
      ¬∀ k, (Patricia.ext k₀ c).lookup k = (Patricia.branch cs).lookup k := by
    intro k₀ c cs l hne hb hall
    obtain ⟨i, j, k, l, hij, hi, hj⟩ := hb.exists_lookup_branch
    rw [← lookup_branch_cons cs, ← hall] at hi hj
    exact hne (List.prefix_nil.mp (prefix_of_split (p := []) hij (prefix_of_lookup_ext hi)
      (prefix_of_lookup_ext hj)))
  induction ht generalizing m u with
  | @leaf n k₀ w hn =>
      cases hu with
      | leaf hm =>
          have hself := h k₀
          rw [lookup_leaf, if_pos rfl, lookup_leaf] at hself
          split at hself
          · next heq => rw [heq, Option.some.inj hself]
          · cases hself
      | ext hne hm hb => exact absurd (fun k => (h _).trans (lookup_ext_append _ k _)) (alone _ hb)
      | branch hforks hcs => exact absurd h (alone [] (.branch hforks hcs))
  | @ext n m' p cs hne hn hb ih =>
      cases hu with
      | leaf hm => exact absurd (fun k => (h _).symm.trans (lookup_ext_append _ k _)) (alone _ hb)
      | @ext _ l q ds hne' hm hb' =>
          have hle : ∀ {p q : List ι} {cs ds : ι → Patricia ι υ} {l : ℕ},
              Canonical l (Patricia.branch cs) →
              (∀ k, (Patricia.ext p (Patricia.branch cs)).lookup k =
                (Patricia.ext q (Patricia.branch ds)).lookup k) → q <+: p := by
            intro p q cs ds l hb hall
            obtain ⟨i, j, k, l, hij, hi, hj⟩ := hb.exists_lookup_branch
            rw [← lookup_branch_cons cs, ← lookup_ext_append p, hall] at hi hj
            exact prefix_of_split hij (prefix_of_lookup_ext hi) (prefix_of_lookup_ext hj)
          have hpq : p = q := (hle hb' fun k => (h k).symm).eq_of_length_le (hle hb h).length_le
          subst hpq
          rw [ih hb' fun k => by rw [← lookup_ext_append p, h, lookup_ext_append]]
      | branch hforks hcs => exact absurd h (apart hne (.branch hforks hcs))
  | @branch n cs hforks hcs ih =>
      cases hu with
      | leaf hm => exact absurd (fun k => (h k).symm) (alone [] (.branch hforks hcs))
      | ext hne hm hb =>
          exact absurd (fun k => (h k).symm) (apart hne (.branch hforks hcs))
      | @branch _ ds hforks' hcs' =>
          have hchild : ∀ i k, (cs i).lookup k = (ds i).lookup k := fun i k => h (i :: k)
          congr 1
          funext i
          by_cases hi : cs i = empty
          · by_contra hne
            obtain ⟨k, w, hk⟩ := (hcs' i fun he => hne (hi.trans he.symm)).exists_lookup
            rw [← hchild, hi] at hk
            cases hk
          · refine ih i hi (hcs' i fun he => ?_) (hchild i)
            obtain ⟨k, w, hk⟩ := (hcs i hi).exists_lookup
            rw [hchild, he] at hk
            cases hk

/-- So is nothing. -/
theorem Slot.eq_of_lookup (ht : Slot n t) (hu : Slot m u) (h : ∀ k, t.lookup k = u.lookup k) :
    t = u := by
  by_cases hte : t = empty
  · by_contra hne
    obtain ⟨k, w, hk⟩ := (hu fun he => hne (hte.trans he.symm)).exists_lookup
    rw [← h, hte] at hk
    cases hk
  · refine (ht hte).eq_of_lookup (hu fun he => ?_) h
    obtain ⟨k, w, hk⟩ := (ht hte).exists_lookup
    rw [h, he] at hk
    cases hk

/-- What a prefix of the keys leaves below it. -/
def Below (p : List ι) (t u : Patricia ι υ) : Prop := ∀ k, u.lookup k = t.lookup (p ++ k)

/-! ## Paths in front of a trie -/

omit [DecidableEq ι] in
/-- A trie with a path put in front of it. -/
def prepend : List ι → Patricia ι υ → Patricia ι υ
  | [], t => t
  | i :: p, t => ext (i :: p) t

omit [DecidableEq ι] in
/-- So too, where a leaf or an extension takes the path into its own key. -/
def join (p : List ι) : Patricia ι υ → Patricia ι υ
  | empty => empty
  | leaf k v => leaf (p ++ k) v
  | ext k c => ext (p ++ k) c
  | branch cs => prepend p (branch cs)

omit [DecidableEq ι] in
theorem prepend_of_ne {p : List ι} (hp : p ≠ []) (t : Patricia ι υ) : prepend p t = ext p t := by
  cases p with
  | nil => exact absurd rfl hp
  | cons i p => rfl

theorem lookup_prepend (p : List ι) (t : Patricia ι υ) (k : List ι) :
    (prepend p t).lookup k = if p <+: k then t.lookup (k.drop p.length) else none := by
  cases p with
  | nil => rw [if_pos List.nil_prefix]; rfl
  | cons i p => rfl

@[simp] theorem lookup_prepend_append (p k : List ι) (t : Patricia ι υ) :
    (prepend p t).lookup (p ++ k) = t.lookup k := by
  rw [lookup_prepend, if_pos (List.prefix_append p k), List.drop_left]

theorem lookup_prepend_apart {p : List ι} (h : ¬p <+: k) :
    (prepend p t).lookup k = none := by
  rw [lookup_prepend, if_neg h]

/-- Tries behind the same path are compared behind it. -/
theorem lookup_prepend_congr {p : List ι} {t u : Patricia ι υ} {k : List ι}
    (h : ∀ l, k = p ++ l → t.lookup l = u.lookup k) (hnot : ¬p <+: k → u.lookup k = none) :
    (prepend p t).lookup k = u.lookup k := by
  by_cases hp : p <+: k
  · obtain ⟨l, rfl⟩ := hp
    rw [lookup_prepend_append, h l rfl]
  · rw [lookup_prepend_apart hp, hnot hp]

/-- Paths in front of each other are one path. -/
theorem lookup_prepend_prepend (p q : List ι) (t : Patricia ι υ) (k : List ι) :
    (prepend p (prepend q t)).lookup k = (prepend (p ++ q) t).lookup k := by
  refine lookup_prepend_congr ?_ fun hp =>
    lookup_prepend_apart fun hpq => hp ((List.prefix_append p q).trans hpq)
  rintro l rfl
  simp only [lookup_prepend, List.prefix_append_right_inj, List.length_append, ← List.drop_drop,
    List.drop_left]

/-- A leaf is a value behind its key. -/
theorem lookup_prepend_leaf (p q : List ι) (v : υ) (k : List ι) :
    (prepend p (leaf q v)).lookup k = (leaf (p ++ q) v).lookup k := by
  refine lookup_prepend_congr ?_ fun hp => if_neg ?_
  · rintro l rfl
    simp only [lookup_leaf, List.append_cancel_left_eq]
  · rintro rfl
    exact hp (List.prefix_append p q)

/-- Joining keys does not change what is behind the path. -/
theorem lookup_join (p : List ι) (t : Patricia ι υ) (k : List ι) :
    (join p t).lookup k = (prepend p t).lookup k := by
  cases t with
  | empty => rw [lookup_prepend]; exact (ite_self none).symm
  | leaf q v => exact (lookup_prepend_leaf p q v k).symm
  | branch cs => rfl
  | ext q c =>
      cases q with
      | nil =>
          rw [join, List.append_nil, lookup_prepend]
          simp [lookup]
      | cons i q =>
          have hne : p ++ i :: q ≠ [] := by simp
          rw [join, ← prepend_of_ne hne, ← lookup_prepend_prepend]
          rfl

omit [DecidableEq ι] in
/-- A path in front of a branch. -/
theorem Canonical.prepend (p : List ι) (h : Canonical m (Patricia.branch cs)) :
    Canonical (p.length + m) (Patricia.prepend p (Patricia.branch cs)) := by
  cases p with
  | nil => rwa [List.length_nil, Nat.zero_add]
  | cons i p => exact .ext (List.cons_ne_nil i p) rfl h

omit [DecidableEq ι] in
/-- A path in front of any trie. -/
theorem Canonical.join (p : List ι) (h : Canonical m t) : Canonical (p.length + m) (join p t) := by
  cases h with
  | leaf hm => exact .leaf (by rw [List.length_append, hm])
  | ext hne hm hb => exact .ext (by simp [hne]) (by rw [List.length_append]; omega) hb
  | branch hforks hcs => exact Canonical.prepend p (.branch hforks hcs)

/-! ## Insertion -/

/-- The children of a branch of which two are in use. -/
def two (a : ι) (t : Patricia ι υ) (b : ι) (u : Patricia ι υ) : ι → Patricia ι υ :=
  Function.update (Function.update (fun _ => empty) a t) b u

/-- Puts a value next to a node whose key `k₀` parts from the key `k` of the value.  What stays
of the node behind the digit where they part is `rest`. -/
def fork (k₀ : List ι) (rest : List ι → Patricia ι υ) (k : List ι) (v : υ) : Patricia ι υ :=
  match k₀.drop (shared k k₀), k.drop (shared k k₀) with
  | a :: r, b :: s => prepend (k₀.take (shared k k₀)) (branch (two a (rest r) b (leaf s v)))
  | _, _ => empty

/-- The trie with a value at a key. -/
def insert : Patricia ι υ → List ι → υ → Patricia ι υ
  | empty, k, v => leaf k v
  | leaf k₀ w, k, v => if k₀ = k then leaf k v else fork k₀ (leaf · w) k v
  | ext k₀ c, k, v =>
      if k₀ <+: k then ext k₀ (c.insert (k.drop k₀.length) v) else fork k₀ (prepend · c) k v
  | branch cs, k, v => match k with
      | [] => branch cs
      | i :: k => branch (Function.update cs i ((cs i).insert k v))

variable {a b : ι} {p r s : List ι} {w : υ} {c : Patricia ι υ}

theorem fork_append (hab : a ≠ b) (rest : List ι → Patricia ι υ) :
    fork (p ++ a :: r) rest (p ++ b :: s) v = prepend p (branch (two a (rest r) b (leaf s v))) := by
  rw [fork, shared_append (Ne.symm hab)]
  simp

omit [DecidableEq ι] in
/-- A key that is no prefix of a longer one parts from it. -/
theorem exists_split_of_length_le {k₀ : List ι} (hle : k₀.length ≤ k.length) (h : ¬k₀ <+: k) :
    ∃ p a r b s, k₀ = p ++ a :: r ∧ k = p ++ b :: s ∧ a ≠ b := by
  classical
  exact exists_split h fun hk => h (hk.eq_of_length_le hle ▸ List.prefix_rfl)

@[simp] theorem insert_ext_append (k : List ι) :
    (ext p c).insert (p ++ k) v = ext p (c.insert k v) := by
  rw [insert, if_pos (List.prefix_append p k), List.drop_left]

@[simp] theorem insert_branch_cons (i : ι) (k : List ι) :
    (branch cs).insert (i :: k) v = branch (Function.update cs i ((cs i).insert k v)) := rfl

theorem insert_leaf_self : (leaf k w).insert k v = leaf k v := if_pos rfl

theorem insert_leaf_split (hab : a ≠ b) :
    (leaf (p ++ a :: r) w).insert (p ++ b :: s) v =
      prepend p (branch (two a (leaf r w) b (leaf s v))) := by
  rw [insert, if_neg (by simp [hab]), fork_append hab]

theorem insert_ext_split (hab : a ≠ b) :
    (ext (p ++ a :: r) c).insert (p ++ b :: s) v =
      prepend p (branch (two a (prepend r c) b (leaf s v))) := by
  rw [insert, if_neg (not_prefix_of_split hab p r s), fork_append hab]

/-- The value is at its key, and behind the digits of the old node is what was there. -/
theorem lookup_two (hab : a ≠ b) (t : Patricia ι υ) (k : List ι) :
    (prepend p (branch (two a t b (leaf s v)))).lookup k =
      if k = p ++ b :: s then some v else (prepend (p ++ [a]) t).lookup k := by
  by_cases hp : p <+: k
  · obtain ⟨l, rfl⟩ := hp
    rw [lookup_prepend_append, ← lookup_prepend_prepend, lookup_prepend_append]
    cases l with
    | nil => simp [lookup_prepend]
    | cons i l =>
        simp only [lookup_branch_cons, two, List.append_cancel_left_eq, List.cons.injEq]
        rcases eq_or_ne i b with rfl | hib
        · rw [Function.update_self, lookup_leaf,
            lookup_prepend_apart (by simp [List.cons_prefix_cons, hab])]
          simp
        · rw [Function.update_of_ne hib, if_neg fun h => hib h.1]
          rcases eq_or_ne i a with rfl | hia
          · rw [Function.update_self]
            exact (lookup_prepend_append [i] l t).symm
          · rw [Function.update_of_ne hia, lookup_empty,
              lookup_prepend_apart (by simp [List.cons_prefix_cons, hia.symm])]
  · have hk : k ≠ p ++ b :: s := by
      rintro rfl
      exact hp (List.prefix_append p _)
    rw [lookup_prepend_apart hp, if_neg hk,
      lookup_prepend_apart fun h => hp ((List.prefix_append p [a]).trans h)]

/-- Insertion changes the value at its key and no other. -/
theorem Canonical.lookup_insert (h : Canonical n t) (hk : k.length = n) (l : List ι) :
    (t.insert k v).lookup l = if l = k then some v else t.lookup l := by
  induction h generalizing k l with
  | @leaf n k₀ w hn =>
      rcases eq_or_ne k₀ k with rfl | hne
      · rw [insert_leaf_self, lookup_leaf, lookup_leaf]
        split <;> rfl
      · obtain ⟨p, a, r, b, s, rfl, rfl, hab⟩ := exists_split_of_length_le (hn.trans hk.symm).le
          fun hp => hne (hp.eq_of_length (hn.trans hk.symm))
        rw [insert_leaf_split hab, lookup_two hab, lookup_prepend_leaf, List.append_assoc,
          List.singleton_append]
  | @ext n m k₀ cs hne hn hb ih =>
      by_cases hp : k₀ <+: k
      · obtain ⟨k, rfl⟩ := hp
        rw [insert_ext_append]
        rw [List.length_append] at hk
        by_cases hl : k₀ <+: l
        · obtain ⟨l, rfl⟩ := hl
          rw [lookup_ext_append, lookup_ext_append, ih (by omega)]
          simp only [List.append_cancel_left_eq]
        · have hne : l ≠ k₀ ++ k := by
            rintro rfl
            exact hl (List.prefix_append k₀ k)
          rw [lookup_ext_apart hl, lookup_ext_apart hl, if_neg hne]
      · obtain ⟨p, a, r, b, s, rfl, rfl, hab⟩ := exists_split_of_length_le (by omega) hp
        rw [insert_ext_split hab, lookup_two hab, lookup_prepend_prepend, List.append_assoc,
          List.singleton_append, prepend_of_ne (by simp)]
  | @branch n cs hforks hcs ih =>
      cases k with
      | nil => cases hk
      | cons i k =>
          rw [insert_branch_cons]
          cases l with
          | nil => rfl
          | cons j l =>
              rw [lookup_branch_cons, lookup_branch_cons]
              rcases eq_or_ne j i with rfl | hji
              · rw [Function.update_self]
                by_cases hj : cs j = empty
                · rw [hj]
                  simp [insert]
                · rw [ih j hj (Nat.succ.inj hk)]
                  simp
              · rw [Function.update_of_ne hji]
                simp [hji]

/-- Two children make a canonical branch. -/
theorem Canonical.two (hab : a ≠ b) (ht : Canonical m t) (hu : Canonical m u) :
    Canonical (m + 1) (Patricia.branch (Patricia.two a t b u)) := by
  have ha : Patricia.two a t b u a = t := by
    rw [Patricia.two, Function.update_of_ne hab, Function.update_self]
  have hb : Patricia.two a t b u b = u := Function.update_self ..
  refine .branch ⟨a, b, hab, fun h => ht.ne_empty (ha.symm.trans h),
    fun h => hu.ne_empty (hb.symm.trans h)⟩ fun i hi => ?_
  rcases eq_or_ne i b with rfl | hib
  · rwa [hb]
  · rcases eq_or_ne i a with rfl | hia
    · rwa [ha]
    · rw [Patricia.two, Function.update_of_ne hib, Function.update_of_ne hia] at hi
      exact absurd rfl hi

/-- Insertion keeps the shape. -/
theorem Canonical.insert (h : Canonical n t) (hk : k.length = n) : Canonical n (t.insert k v) := by
  induction h generalizing k with
  | @leaf n k₀ w hn =>
      rcases eq_or_ne k₀ k with rfl | hne
      · rw [insert_leaf_self]
        exact .leaf hk
      · obtain ⟨p, a, r, b, s, rfl, rfl, hab⟩ := exists_split_of_length_le (hn.trans hk.symm).le
          fun hp => hne (hp.eq_of_length (hn.trans hk.symm))
        rw [insert_leaf_split hab]
        simp only [List.length_append, List.length_cons] at hn hk
        have hfork := (Canonical.two hab (.leaf rfl) (.leaf (by omega)) :
          Canonical (r.length + 1) (Patricia.branch (Patricia.two a (.leaf r w) b (.leaf s v))))
        have := hfork.prepend p
        rwa [hn] at this
  | @ext n m k₀ cs hne hn hb ih =>
      by_cases hp : k₀ <+: k
      · obtain ⟨k, rfl⟩ := hp
        rw [List.length_append] at hk
        rw [insert_ext_append]
        cases k with
        | nil =>
            cases hb
            simp at hk
            omega
        | cons i k =>
            have hchild := ih (k := i :: k) (by omega)
            rw [insert_branch_cons] at hchild ⊢
            exact .ext hne hn hchild
      · obtain ⟨p, a, r, b, s, rfl, rfl, hab⟩ := exists_split_of_length_le (by omega) hp
        rw [insert_ext_split hab]
        simp only [List.length_append, List.length_cons] at hn hk
        have hfork : Canonical (r.length + m + 1)
            (Patricia.branch (Patricia.two a (Patricia.prepend r (.branch cs)) b (.leaf s v))) :=
          Canonical.two hab (hb.prepend r) (.leaf (by omega))
        have := hfork.prepend p
        rwa [show p.length + (r.length + m + 1) = n by omega] at this
  | @branch n cs hforks hcs ih =>
      cases k with
      | nil => cases hk
      | cons i k =>
          rw [insert_branch_cons]
          have hchild : Canonical n ((cs i).insert k v) := by
            by_cases hi : cs i = empty
            · rw [hi]
              exact .leaf (Nat.succ.inj hk)
            · exact ih i hi (Nat.succ.inj hk)
          obtain ⟨j, l, hjl, hj, hl⟩ := hforks
          have hkept : ∀ j, cs j ≠ empty → Function.update cs i ((cs i).insert k v) j ≠ empty := by
            intro j hj
            rcases eq_or_ne j i with rfl | hji
            · rw [Function.update_self]
              exact hchild.ne_empty
            · rwa [Function.update_of_ne hji]
          refine .branch ⟨j, l, hjl, hkept j hj, hkept l hl⟩ fun j hj => ?_
          rcases eq_or_ne j i with rfl | hji
          · rwa [Function.update_self]
          · rw [Function.update_of_ne hji] at hj ⊢
            exact hcs j hj

/-- Into nothing too. -/
theorem Slot.insert (h : Slot n t) (hk : k.length = n) : Canonical n (t.insert k v) := by
  by_cases ht : t = empty
  · subst ht
    exact .leaf hk
  · exact (h ht).insert hk

theorem Slot.lookup_insert (h : Slot n t) (hk : k.length = n) (l : List ι) :
    (t.insert k v).lookup l = if l = k then some v else t.lookup l := by
  by_cases ht : t = empty
  · subst ht
    rfl
  · exact (h ht).lookup_insert hk l

/-! ## Deletion -/

open Classical in
/-- A branch, or its child if there is only one. -/
noncomputable def squash (cs : ι → Patricia ι υ) : Patricia ι υ :=
  if h : ∃ i, cs i ≠ empty ∧ ∀ j, cs j ≠ empty → j = i then join [h.choose] (cs h.choose)
  else branch cs

/-- The trie without the value at a key. -/
noncomputable def erase : Patricia ι υ → List ι → Patricia ι υ
  | empty, _ => empty
  | leaf k₀ v, k => if k₀ = k then empty else leaf k₀ v
  | ext k₀ c, k => if k₀ <+: k then join k₀ (c.erase (k.drop k₀.length)) else ext k₀ c
  | branch cs, k => match k with
      | [] => branch cs
      | i :: k => squash (Function.update cs i ((cs i).erase k))

omit [DecidableEq ι] in
theorem squash_of_only {i : ι} (hi : cs i ≠ empty) (h : ∀ j, cs j ≠ empty → j = i) :
    squash cs = join [i] (cs i) := by
  have hex : ∃ i, cs i ≠ empty ∧ ∀ j, cs j ≠ empty → j = i := ⟨i, hi, h⟩
  rw [squash, dif_pos hex, h _ hex.choose_spec.1]

omit [DecidableEq ι] in
theorem squash_of_forks (h : Forks cs) : squash cs = branch cs := by
  obtain ⟨i, j, hij, hi, hj⟩ := h
  exact dif_neg fun ⟨_, _, hall⟩ => hij ((hall i hi).trans (hall j hj).symm)

omit [DecidableEq ι] in
/-- Some child in use is the only one, or there are two. -/
theorem only_or_forks {i : ι} (hi : cs i ≠ empty) :
    (∀ j, cs j ≠ empty → j = i) ∨ Forks cs := by
  by_cases h : ∀ j, cs j ≠ empty → j = i
  · exact .inl h
  · push Not at h
    obtain ⟨j, hj, hji⟩ := h
    exact .inr ⟨j, i, hji, hj, hi⟩

theorem lookup_squash (cs : ι → Patricia ι υ) (k : List ι) :
    (squash cs).lookup k = (branch cs).lookup k := by
  by_cases hex : ∃ i, cs i ≠ empty ∧ ∀ j, cs j ≠ empty → j = i
  · obtain ⟨i, hi, hall⟩ := hex
    rw [squash_of_only hi hall, lookup_join]
    cases k with
    | nil => exact lookup_prepend_apart (by simp)
    | cons j k =>
        rcases eq_or_ne j i with rfl | hji
        · exact lookup_prepend_append [j] k _
        · rw [lookup_prepend_apart (by simp [List.cons_prefix_cons, hji.symm]),
            lookup_branch_cons, not_not.mp fun hj => hji (hall j hj), lookup_empty]
  · rw [squash, dif_neg hex]

@[simp] theorem erase_ext_append (k : List ι) :
    (ext p c).erase (p ++ k) = join p (c.erase k) := by
  rw [erase, if_pos (List.prefix_append p k), List.drop_left]

@[simp] theorem erase_branch_cons (i : ι) (k : List ι) :
    (branch cs).erase (i :: k) = squash (Function.update cs i ((cs i).erase k)) := rfl

/-- Deletion changes the value at its key and no other. -/
theorem lookup_erase (t : Patricia ι υ) (k l : List ι) :
    (t.erase k).lookup l = if l = k then none else t.lookup l := by
  induction t generalizing k l with
  | empty => rw [erase, lookup_empty, ite_self]
  | leaf k₀ v =>
      rw [erase]
      rcases eq_or_ne k₀ k with rfl | hne
      · rw [if_pos rfl, lookup_empty, lookup_leaf]
        split <;> rfl
      · rw [if_neg hne, lookup_leaf]
        split
        · next heq => rw [if_neg (heq ▸ hne)]
        · rw [ite_self]
  | ext k₀ c ih =>
      by_cases hp : k₀ <+: k
      · obtain ⟨k, rfl⟩ := hp
        rw [erase_ext_append, lookup_join]
        by_cases hl : k₀ <+: l
        · obtain ⟨l, rfl⟩ := hl
          rw [lookup_prepend_append, lookup_ext_append, ih]
          simp only [List.append_cancel_left_eq]
        · rw [lookup_prepend_apart hl, lookup_ext_apart hl, ite_self]
      · rw [erase, if_neg hp]
        split
        · next heq => rw [heq, lookup_ext_apart hp]
        · rfl
  | branch cs ih =>
      cases k with
      | nil => cases l <;> rfl
      | cons i k =>
          rw [erase_branch_cons, lookup_squash]
          cases l with
          | nil => rfl
          | cons j l =>
              rw [lookup_branch_cons, lookup_branch_cons]
              rcases eq_or_ne j i with rfl | hji
              · rw [Function.update_self, ih]
                simp
              · rw [Function.update_of_ne hji]
                simp [hji]

/-- Deletion keeps the shape, and something of every branch. -/
theorem Canonical.erase (h : Canonical n t) (k : List ι) :
    Slot n (t.erase k) ∧ ∀ cs, t = Patricia.branch cs → t.erase k ≠ empty := by
  induction h generalizing k with
  | @leaf n k₀ w hn =>
      rw [Patricia.erase]
      refine ⟨fun hne => ?_, nofun⟩
      split
      · next heq => exact absurd (if_pos heq) hne
      · exact .leaf hn
  | @ext n m k₀ cs hne hn hb ih =>
      refine ⟨fun _ => ?_, nofun⟩
      by_cases hp : k₀ <+: k
      · obtain ⟨k, rfl⟩ := hp
        rw [erase_ext_append, ← hn]
        exact ((ih k).1 ((ih k).2 cs rfl)).join k₀
      · rw [Patricia.erase, if_neg hp]
        exact .ext hne hn hb
  | @branch n cs hforks hcs ih =>
      have hall : Canonical (n + 1) ((Patricia.branch cs).erase k) := by
        cases k with
        | nil => exact .branch hforks hcs
        | cons i k =>
            rw [erase_branch_cons]
            have hslot : ∀ j, Slot n (Function.update cs i ((cs i).erase k) j) := by
              intro j hj
              rcases eq_or_ne j i with rfl | hji
              · rw [Function.update_self] at hj ⊢
                by_cases hempty : cs j = empty
                · rw [hempty] at hj
                  exact absurd rfl hj
                · exact (ih j hempty k).1 hj
              · rw [Function.update_of_ne hji] at hj ⊢
                exact hcs j hj
            -- at least one of two children is not the one at `i`
            obtain ⟨j, hji, hj⟩ := hforks.exists_other i
            have hin : Function.update cs i ((cs i).erase k) j ≠ empty := by
              rwa [Function.update_of_ne hji]
            rcases only_or_forks hin with honly | hforks'
            · rw [squash_of_only hin honly, Nat.add_comm n 1]
              exact (hslot j hin).join [j]
            · rw [squash_of_forks hforks']
              exact .branch hforks' hslot
      exact ⟨fun _ => hall, fun _ _ => hall.ne_empty⟩

theorem Slot.erase (h : Slot n t) (k : List ι) : Slot n (t.erase k) := by
  by_cases ht : t = empty
  · subst ht
    exact fun hne => absurd rfl hne
  · exact ((h ht).erase k).1

end Patricia

end CppSwc.Lib
