import Mathlib.Data.List.Induction
import Mathlib.Data.List.Perm.Basic

/-!
# Worklists over a multimap

A multimap is the list of its entries by increasing key, equal keys in the order of
insertion.  Each value has a name, and the entries under a key are its children.
`gather` starts from some keys, takes out the children of each in turn, and puts their
names at the end of the worklist.

`Gathered` is what it does.  The entries taken out come parents first, and the rest is
what has no parent among the keys and the names taken.  Together these say that the
names taken are those that descend from the keys, `Gathered.descends_iff`.

The last section is about lists that come parents first.  `ParentsFirst` says so of a list whose
elements may also have parents among some roots.
-/

namespace CppSwc.Lib

universe u v

variable {κ : Type u} {β : Type v}

/-- The multimap with one more entry, behind those of the same key. -/
def insertEntry [LE κ] [DecidableLE κ] (k : κ) (v : β) (m : List (κ × β)) : List (κ × β) :=
  m.takeWhile (·.1 ≤ k) ++ (k, v) :: m.dropWhile (·.1 ≤ k)

theorem insertEntry_perm [LE κ] [DecidableLE κ] (k : κ) (v : β) (m : List (κ × β)) :
    (insertEntry k v m).Perm ((k, v) :: m) := by
  have hperm : (insertEntry k v m).Perm
      ((k, v) :: (m.takeWhile (·.1 ≤ k) ++ m.dropWhile (·.1 ≤ k))) :=
    List.perm_middle
  rwa [List.takeWhile_append_dropWhile] at hperm

/-- What is reached from the roots along edges from a parent to a child. -/
inductive Descends (edges : List (κ × κ)) (roots : List κ) : κ → Prop where
  | root {k : κ} : k ∈ roots → Descends edges roots k
  | child {p k : κ} : Descends edges roots p → (p, k) ∈ edges → Descends edges roots k

variable [DecidableEq κ]

/-- The entries taken out by a worklist, and the rest. -/
def gather (name : β → κ) : Nat → List κ → List (κ × β) → List (κ × β) × List (κ × β)
  | _, [], m => ([], m)
  | 0, _ :: _, m => ([], m)
  | n + 1, k :: ks, m =>
      let taken := m.filter fun e => e.1 = k
      let next := gather name n (ks ++ taken.map fun e => name e.2) (m.filter fun e => e.1 ≠ k)
      (taken ++ next.1, next.2)

/-- The entries taken out come parents first, and the rest has no parent among them. -/
structure Gathered (name : β → κ) (ks : List κ) (m taken rest : List (κ × β)) : Prop where
  perm : (taken ++ rest).Perm m
  grounded : ∀ l e r, taken = l ++ e :: r → e.1 ∈ ks ∨ e.1 ∈ l.map fun e => name e.2
  rest_eq : rest = m.filter fun e => e.1 ∉ ks ++ taken.map fun e => name e.2

variable {name : β → κ} {ks ks' : List κ} {m taken rest taken' rest' : List (κ × β)}

/-- With enough rounds the worklist runs empty. -/
theorem gathered_gather {n : Nat} (hn : ks.length + m.length ≤ n) :
    Gathered name ks m (gather name n ks m).1 (gather name n ks m).2 := by
  induction n generalizing ks m with
  | zero =>
      have hks : ks = [] := List.length_eq_zero_iff.mp (by omega)
      subst hks
      exact ⟨.refl _, by simp [gather], by simp [gather]⟩
  | succ n ih =>
      cases ks with
      | nil => exact ⟨.refl _, by simp [gather], by simp [gather]⟩
      | cons k ks =>
          have hsplit : ((m.filter fun e => e.1 = k) ++ m.filter fun e => e.1 ≠ k).Perm m := by
            have := List.filter_append_perm (fun e : κ × β => decide (e.1 = k)) m
            simpa only [decide_not] using this
          have hlength := hsplit.length_eq
          rw [List.length_append] at hlength
          have hrounds : (ks ++ (m.filter fun e => e.1 = k).map fun e => name e.2).length +
              (m.filter fun e => e.1 ≠ k).length ≤ n := by
            rw [List.length_append, List.length_map]
            rw [List.length_cons] at hn
            omega
          have hrec := ih hrounds
          simp only [gather]
          refine ⟨?_, ?_, ?_⟩
          · rw [List.append_assoc]
            exact (List.Perm.append_left _ hrec.perm).trans hsplit
          · intro l e r heq
            rcases List.append_eq_append_iff.mp heq with ⟨l', rfl, hnext⟩ | ⟨l', htaken, hrest⟩
            · rcases hrec.grounded l' e r hnext with hmem | hmem
              · rcases List.mem_append.mp hmem with hmem | hmem
                · exact .inl (.tail _ hmem)
                · exact .inr (by rw [List.map_append]; exact List.mem_append_left _ hmem)
              · exact .inr (by rw [List.map_append]; exact List.mem_append_right _ hmem)
            · cases l' with
              | nil =>
                  rw [List.append_nil] at htaken
                  rcases hrec.grounded [] e r hrest.symm with hmem | hmem
                  · rcases List.mem_append.mp hmem with hmem | hmem
                    · exact .inl (.tail _ hmem)
                    · exact .inr (htaken ▸ hmem)
                  · cases hmem
              | cons e' l' =>
                  have hkey : e ∈ m.filter fun e => e.1 = k := by
                    rw [htaken, (List.cons.inj hrest).1]
                    exact List.mem_append_right _ (.head _)
                  refine .inl ?_
                  rw [of_decide_eq_true (List.mem_filter.mp hkey).2]
                  exact .head _
          · rw [hrec.rest_eq, List.filter_filter]
            refine List.filter_congr ?_
            intro e _
            simp only [List.mem_append, List.map_append, List.mem_cons, ← Bool.decide_and,
              decide_eq_decide]
            tauto

/-- Gathering from some keys and then from others. -/
theorem Gathered.append (h : Gathered name ks m taken rest)
    (h' : Gathered name ks' rest taken' rest') :
    Gathered name (ks ++ ks') m (taken ++ taken') rest' := by
  refine ⟨?_, ?_, ?_⟩
  · rw [List.append_assoc]
    exact (List.Perm.append_left _ h'.perm).trans h.perm
  · intro l e r heq
    rcases List.append_eq_append_iff.mp heq with ⟨l', rfl, hnext⟩ | ⟨l', htaken, hrest⟩
    · rcases h'.grounded l' e r hnext with hmem | hmem
      · exact .inl (List.mem_append_right _ hmem)
      · exact .inr (by rw [List.map_append]; exact List.mem_append_right _ hmem)
    · cases l' with
      | nil =>
          rw [List.append_nil] at htaken
          rcases h'.grounded [] e r hrest.symm with hmem | hmem
          · exact .inl (List.mem_append_right _ hmem)
          · cases hmem
      | cons e' l' =>
          obtain ⟨rfl, -⟩ := List.cons.inj hrest
          rcases h.grounded l e l' htaken with hmem | hmem
          · exact .inl (List.mem_append_left _ hmem)
          · exact .inr hmem
  · rw [h'.rest_eq, h.rest_eq, List.filter_filter]
    refine List.filter_congr ?_
    intro e _
    simp only [List.mem_append, List.map_append, ← Bool.decide_and, decide_eq_decide]
    tauto

/-- The names taken, with the keys, are those that descend from the keys. -/
theorem Gathered.descends_iff (h : Gathered name ks m taken rest) {k : κ} :
    Descends (m.map fun e => (e.1, name e.2)) ks k ↔
      k ∈ ks ++ taken.map fun e => name e.2 := by
  constructor
  · intro hd
    induction hd with
    | root hk => exact List.mem_append_left _ hk
    | child _ hedge ih =>
        obtain ⟨e, he, heq⟩ := List.mem_map.mp hedge
        cases heq
        -- The rest has no entry under this parent.
        rcases List.mem_append.mp (h.perm.mem_iff.mpr he) with htaken | hrest
        · exact List.mem_append_right _ (List.mem_map.mpr ⟨e, htaken, rfl⟩)
        · rw [h.rest_eq] at hrest
          exact absurd ih (of_decide_eq_true (List.mem_filter.mp hrest).2)
  · intro hk
    -- Along the entries taken, each has its parent before it.
    have hall : ∀ l r, taken = l ++ r → ∀ k ∈ l.map fun e => name e.2,
        Descends (m.map fun e => (e.1, name e.2)) ks k := by
      intro l
      induction l using List.reverseRecOn with
      | nil => exact fun _ _ _ hk => nomatch hk
      | append_singleton l e ih =>
          intro r heq k hk
          rw [List.append_assoc] at heq
          rw [List.map_append, List.mem_append] at hk
          rcases hk with hk | hk
          · exact ih _ heq k hk
          · rw [List.map_singleton, List.mem_singleton] at hk
            subst hk
            have hmem : e ∈ m := by
              refine h.perm.mem_iff.mp (List.mem_append_left _ ?_)
              rw [heq]
              exact List.mem_append_right _ (.head _)
            refine .child ?_ (List.mem_map.mpr ⟨e, hmem, rfl⟩)
            rcases h.grounded l e r heq with hroot | hparent
            · exact .root hroot
            · exact ih _ heq _ hparent
    rcases List.mem_append.mp hk with hk | hk
    · exact .root hk
    · exact hall taken [] (List.append_nil _).symm k hk

/-! ## Lists that come parents first -/

section ParentsFirst

variable {α : Type u} {parent : α → α} {roots roots' : α → Prop} {a : α} {l l' : List α}

/-- The parent of every element is a root or comes before it. -/
def ParentsFirst (parent : α → α) : (α → Prop) → List α → Prop
  | _, [] => True
  | roots, a :: l => roots (parent a) ∧ ParentsFirst parent (fun b => roots b ∨ b = a) l

theorem ParentsFirst.mono (hroots : ∀ a, roots a → roots' a) (h : ParentsFirst parent roots l) :
    ParentsFirst parent roots' l := by
  induction l generalizing roots roots' with
  | nil => exact trivial
  | cons a l ih => exact ⟨hroots _ h.1, ih (fun b hb => hb.imp_left (hroots b)) h.2⟩

theorem parentsFirst_append : ParentsFirst parent roots (l ++ l') ↔
    ParentsFirst parent roots l ∧ ParentsFirst parent (fun b => roots b ∨ b ∈ l) l' := by
  induction l generalizing roots with
  | nil => simp [ParentsFirst]
  | cons a l ih =>
      rw [List.cons_append, ParentsFirst, ParentsFirst, ih, and_assoc]
      simp only [List.mem_cons, or_assoc]

/-- An element that has become a root may go. -/
theorem ParentsFirst.tail (ha : ∀ b, b = a → roots' b) (hroots : ∀ b, roots b → roots' b)
    (h : ParentsFirst parent roots (a :: l)) : ParentsFirst parent roots' l :=
  h.2.mono fun b hb => hb.elim (hroots b) (ha b)

/-- Elements that are roots may be left out. -/
theorem ParentsFirst.filter {β : Type v} {f : β → α} {p : β → Bool} {m : List β}
    (hgone : ∀ x ∈ m, p x = false → roots (f x)) (h : ParentsFirst parent roots (m.map f ++ l)) :
    ParentsFirst parent roots ((m.filter p).map f ++ l) := by
  induction m generalizing roots with
  | nil => exact h
  | cons x m ih =>
      cases hp : p x with
      | true =>
          rw [List.filter_cons_of_pos hp]
          exact ⟨h.1, ih (fun y hy hpy => .inl (hgone y (.tail _ hy) hpy)) h.2⟩
      | false =>
          rw [List.filter_cons_of_neg (by rw [hp]; exact Bool.false_ne_true)]
          refine ih (fun y hy hpy => hgone y (.tail _ hy) hpy) (h.tail ?_ fun b hb => hb)
          rintro b rfl
          exact hgone x (.head _) hp

theorem parentsFirst_of_split
    (h : ∀ l₁ b l₂, l = l₁ ++ b :: l₂ → roots (parent b) ∨ parent b ∈ l₁) :
    ParentsFirst parent roots l := by
  induction l generalizing roots with
  | nil => exact trivial
  | cons a l ih =>
      refine ⟨(h [] a l rfl).resolve_right List.not_mem_nil, ih ?_⟩
      rintro l₁ b l₂ rfl
      rcases h (a :: l₁) b l₂ rfl with hroot | hbefore
      · exact .inl (.inl hroot)
      · exact (List.mem_cons.mp hbefore).imp_left .inr

end ParentsFirst

/-- What a worklist takes out comes parents first. -/
theorem Gathered.parentsFirst {parent : κ → κ} (h : Gathered name ks m taken rest)
    (hparent : ∀ e ∈ taken, parent (name e.2) = e.1) :
    ParentsFirst parent (· ∈ ks) (taken.map fun e => name e.2) := by
  refine parentsFirst_of_split ?_
  intro l₁ k l₂ heq
  obtain ⟨t₁, t₂, hsplit, rfl, hmap⟩ := List.map_eq_append_iff.mp heq
  obtain ⟨e, t₃, rfl, rfl, -⟩ := List.map_eq_cons_iff.mp hmap
  rw [hparent e (by rw [hsplit]; exact List.mem_append_right _ (.head _))]
  exact h.grounded t₁ e t₃ hsplit

end CppSwc.Lib
