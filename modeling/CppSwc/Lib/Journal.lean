import Mathlib.Order.Nat
import Mathlib.Tactic.Common

/-!
# Journals

A state with a journal keeps a record of its changes, the newest first.  `undo` takes
the newest one back and off the journal, and `rollback n` does so until `n` are left.

Undoing need not give the old state itself.  It is enough that it gives one that
*covers* the old state, for a preorder that undoing keeps where the entries are *held*:
what an entry is about must still be there when it is undone.  `Undoes s t` says that
`t` has been reached from `s` by changes whose undoing covers `s`.  It is closed under
composition (`Undoes.trans`) and under rollbacks in between (`Undoes.rollback`), so that
it has to be proved of single changes only.
-/

namespace CppSwc.Lib

universe u v

/-- A state with a journal, newest entry first. -/
structure Journal (σ : Type u) (ε : Type v) where
  log : σ → List ε
  /-- Takes back an entry, which is the newest one. -/
  undo : σ → ε → σ
  log_undo : ∀ s c, log (undo s c) = (log s).tail

namespace Journal

variable {σ : Type u} {ε : Type v} (J : Journal σ ε)

/-- Undoes all but the oldest `n` entries. -/
def rollback (n : Nat) (s : σ) : σ := ((J.log s).take ((J.log s).length - n)).foldl J.undo s

variable {J} {n m : Nat} {s t r : σ} {c : ε} {l : List ε}

theorem rollback_of_length_le (h : (J.log s).length ≤ n) : J.rollback n s = s := by
  rw [rollback, Nat.sub_eq_zero_of_le h, List.take_zero, List.foldl_nil]

theorem rollback_of_cons (h : J.log s = c :: l) (hn : n ≤ l.length) :
    J.rollback n s = J.rollback n (J.undo s c) := by
  have hlog : J.log (J.undo s c) = l := by rw [J.log_undo, h, List.tail_cons]
  rw [rollback, rollback, hlog, h, List.length_cons, Nat.succ_sub hn, List.take_succ_cons,
    List.foldl_cons]

/-- A rollback on the way is part of the rollback. -/
theorem rollback_rollback (hn : n ≤ m) (s : σ) :
    J.rollback n (J.rollback m s) = J.rollback n s := by
  induction hlog : J.log s generalizing s with
  | nil => rw [rollback_of_length_le (n := m) (by simp [hlog])]
  | cons c l ih =>
      rcases Nat.lt_or_ge l.length m with hm | hm
      · rw [rollback_of_length_le (n := m) (by rw [hlog]; exact hm)]
      · rw [rollback_of_cons hlog hm, rollback_of_cons hlog (hn.trans hm)]
        exact ih _ (by rw [J.log_undo, hlog, List.tail_cons])

/-- A preorder on states that undoing keeps. -/
structure Covering (J : Journal σ ε) where
  /-- What is true of every state. -/
  Good : σ → Prop
  /-- What the entry is about is there. -/
  Holds : σ → ε → Prop
  Covers : σ → σ → Prop
  refl : ∀ {s}, Good s → Covers s s
  trans : ∀ {s t r}, Covers s t → Covers t r → Covers s r
  log_eq : ∀ {s t}, Covers s t → J.log s = J.log t
  good : ∀ {s t}, Covers s t → Good t → Good s
  holds : ∀ {s t c}, Covers s t → Holds t c → Holds s c
  undo : ∀ {s t c l}, Covers s t → Good t → J.log t = c :: l → Holds t c →
    Covers (J.undo s c) (J.undo t c)

variable (C : J.Covering)

/-- Every entry beyond the oldest `n` is held when its turn comes. -/
inductive Sound (C : J.Covering) (n : Nat) : σ → Prop where
  | base {s : σ} : C.Good s → (J.log s).length = n → Sound C n s
  | step {s : σ} {c : ε} {l : List ε} : C.Good s → J.log s = c :: l → n ≤ l.length →
      C.Holds s c → Sound C n (J.undo s c) → Sound C n s

variable {C}

theorem Sound.good (h : Sound C n s) : C.Good s := by
  cases h with
  | base hgood _ => exact hgood
  | step hgood _ _ _ _ => exact hgood

theorem Sound.le (h : Sound C n s) : n ≤ (J.log s).length := by
  cases h with
  | base _ hlen => exact hlen.ge
  | step _ hlog hle _ _ =>
      rw [hlog, List.length_cons]
      exact Nat.le_succ_of_le hle

/-- A state that covers a sound one is sound, and stays above it. -/
theorem Sound.cover (h : Sound C n t) (hs : C.Covers s t) :
    Sound C n s ∧ C.Covers (J.rollback n s) (J.rollback n t) := by
  induction h generalizing s with
  | base hgood hlen =>
      rw [rollback_of_length_le hlen.le, rollback_of_length_le ((C.log_eq hs) ▸ hlen.le)]
      exact ⟨.base (C.good hs hgood) ((C.log_eq hs) ▸ hlen), hs⟩
  | step hgood hlog hle hholds _ ih =>
      have hlogs := (C.log_eq hs).trans hlog
      obtain ⟨hsound, hcovers⟩ := ih (C.undo hs hgood hlog hholds)
      rw [rollback_of_cons hlog hle, rollback_of_cons hlogs hle]
      exact ⟨.step (C.good hs hgood) hlogs hle (C.holds hs hholds) hsound, hcovers⟩

/-- What is sound down to a sound state is sound as far as that state. -/
theorem Sound.extend (h : Sound C m s) (hr : Sound C n (J.rollback m s)) (hn : n ≤ m) :
    Sound C n s := by
  induction h with
  | base _ hlen => rwa [rollback_of_length_le hlen.le] at hr
  | step hgood hlog hle hholds _ ih =>
      rw [rollback_of_cons hlog hle] at hr
      exact .step hgood hlog (hn.trans hle) hholds (ih hr)

/-- A rollback of a sound state is sound. -/
theorem Sound.rollback (h : Sound C n s) (hn : n ≤ m) : Sound C n (J.rollback m s) := by
  induction h with
  | base hgood hlen =>
      rw [rollback_of_length_le (hlen.le.trans hn)]
      exact .base hgood hlen
  | step hgood hlog hle hholds hrest ih =>
      rename_i s c l
      rcases Nat.lt_or_ge l.length m with hm | hm
      · rw [rollback_of_length_le (by rw [hlog]; exact hm)]
        exact .step hgood hlog hle hholds hrest
      · rw [rollback_of_cons hlog hm]
        exact ih

variable (C)

/-- From `s` the state `t` is reached by changes whose undoing covers `s`. -/
def Undoes (s t : σ) : Prop :=
  C.Good s → Sound C (J.log s).length t ∧ C.Covers (J.rollback (J.log s).length t) s

variable {C}

/-- A change without an entry. -/
theorem Undoes.of_covers (h : C.Good s → C.Covers t s) : Undoes C s t := by
  intro hs
  have ht := h hs
  have hlen : (J.log t).length = (J.log s).length := by rw [C.log_eq ht]
  rw [rollback_of_length_le hlen.le]
  exact ⟨.base (C.good ht hs) hlen, ht⟩

/-- A change with one entry. -/
theorem Undoes.of_entry (hlog : J.log t = c :: J.log s) (hgood : C.Good s → C.Good t)
    (hholds : C.Good s → C.Holds t c) (h : C.Good s → C.Covers (J.undo t c) s) :
    Undoes C s t := by
  intro hs
  have hcovers := h hs
  have hlen : (J.log (J.undo t c)).length = (J.log s).length := by rw [C.log_eq hcovers]
  rw [rollback_of_cons hlog le_rfl, rollback_of_length_le hlen.le]
  exact ⟨.step (hgood hs) hlog le_rfl (hholds hs) (.base (C.good hcovers hs) hlen), hcovers⟩

theorem Undoes.refl (s : σ) : Undoes C s s := .of_covers C.refl

theorem Undoes.trans (hst : Undoes C s t) (htr : Undoes C t r) : Undoes C s r := by
  intro hs
  obtain ⟨hsound, hcovers⟩ := hst hs
  obtain ⟨hsound', hcovers'⟩ := htr hsound.good
  obtain ⟨hlower, hlower'⟩ := hsound.cover hcovers'
  rw [rollback_rollback hsound.le] at hlower'
  exact ⟨hsound'.extend hlower hsound.le, C.trans hlower' hcovers⟩

/-- A rollback that stays above the start. -/
theorem Undoes.rollback (h : Undoes C s t) (hn : (J.log s).length ≤ n) :
    Undoes C s (J.rollback n t) := by
  intro hs
  obtain ⟨hsound, hcovers⟩ := h hs
  rw [rollback_rollback hn]
  exact ⟨hsound.rollback hn, hcovers⟩

end Journal

end CppSwc.Lib
