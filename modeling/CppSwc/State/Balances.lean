import CppSwc.Lib.Ledger
import CppSwc.State.Base
import CppSwc.State.Savepoints

/-!
# Balances

The balances of a state are a ledger.  Reading accounts leaves it alone, and so do all
changes but those of balances.  A rollback restores it whatever has been done in between:
other than for the rest of an account it is enough that the accounts in the change log are
in the cache and dirty.  `Level s t` says that `s` has the balances of `t`, and `Runs` that
a state has been reached by changes that a rollback takes back to that.
-/

namespace CppSwc.State

open Std Lib CodeHash Account

variable {H : Type}

/-- The balance that the trie holds. -/
def trieBalance (s : State H) (a : Address) : U256 := s.trie[a]?.elim 0 Leaf.balance

/-- The account is in the cache and dirty. -/
def IsDirty (s : State H) (a : Address) : Prop := ∃ x, s.cache[a]? = some x ∧ x.isDirty = true

/-- There is no account in the trie at the addresses that are noted as unused, and clean
accounts have the balance that the trie holds. -/
structure Balanced (s : State H) : Prop where
  absent : ∀ a ∈ s.nonExistingAccountsCache, s.trie[a]? = none
  clean : ∀ (a : Address) (x : Account H), s.cache[a]? = some x → x.isDirty = false →
    x.balance = s.trieBalance a

/-- `s` has the balances of `t`, and its dirty accounts. -/
structure Level (s t : State H) : Prop extends Balanced s where
  trie : s.trie = t.trie
  changeLog : s.changeLog = t.changeLog
  balance : ∀ a, s.balanceAt a = t.balanceAt a
  dirty : ∀ a, t.IsDirty a → s.IsDirty a

variable {s t r : State H} {a b : Address} {x y : Account H} {c : Change H}

theorem Coherent.balanced [DecidableEq H] [CodeHash H] (h : s.Coherent) : s.Balanced where
  absent a ha := (h.absent a ha).1
  clean a x hx hclean := by
    obtain ⟨leaf, hleaf, hsame⟩ := h.clean a x hx hclean
    rw [hsame.balance, trieBalance, hleaf]
    rfl

theorem Reachable.balanced [DecidableEq H] [CodeHash H] (h : Reachable s) : s.Balanced :=
  h.coherent.balanced

/-! ## Balances of the cache -/

theorem balanceAt_of_cache (hx : s.cache[a]? = some x) : s.balanceAt a = x.balance := by
  rw [balanceAt, view, hx, Option.some_or, Option.elim_some]

theorem balanceAt_of_none (hnone : s.cache[a]? = none) : s.balanceAt a = s.trieBalance a := by
  rw [balanceAt, view, hnone, Option.none_or, trieBalance]
  cases s.trie[a]? with
  | none => rfl
  | some leaf => rfl

theorem balanceAt_put (s : State H) (a b : Address) (x : Account H) :
    (s.put a x).balanceAt b = if a = b then x.balance else s.balanceAt b := by
  rw [balanceAt, put_view]
  by_cases hab : a = b
  · rw [if_pos hab, if_pos hab, Option.elim_some]
  · rw [if_neg hab, if_neg hab, balanceAt]

theorem isDirty_put (hdirty : x.isDirty = true) : (s.put a x).IsDirty b ↔ a = b ∨ s.IsDirty b := by
  unfold IsDirty
  rw [put_cache]
  by_cases hab : a = b
  · rw [if_pos hab]
    exact ⟨fun _ => .inl hab, fun _ => ⟨x, rfl, hdirty⟩⟩
  · rw [if_neg hab]
    exact ⟨.inr, fun h => h.resolve_left hab⟩

theorem Balanced.put (h : s.Balanced) (hx : x.isDirty = false → x.balance = s.trieBalance a) :
    (s.put a x).Balanced where
  absent := h.absent
  clean b y hy hclean := by
    rw [put_cache] at hy
    by_cases hab : a = b
    · rw [if_pos hab] at hy
      cases hy
      exact hab ▸ hx hclean
    · rw [if_neg hab] at hy
      exact h.clean b y hy hclean

/-- A dirty account may have any balance. -/
theorem Balanced.putDirty (h : s.Balanced) (hdirty : x.isDirty = true) : (s.put a x).Balanced :=
  h.put fun hclean => by
    rw [hdirty] at hclean
    cases hclean

namespace Level

theorem refl (h : s.Balanced) : Level s s := ⟨h, rfl, rfl, fun _ => rfl, fun _ h => h⟩

theorem trans (h : Level s t) (h' : Level t r) : Level s r where
  toBalanced := h.toBalanced
  trie := h.trie.trans h'.trie
  changeLog := h.changeLog.trans h'.changeLog
  balance a := (h.balance a).trans (h'.balance a)
  dirty a ha := h.dirty a (h'.dirty a ha)

theorem trieBalance_eq (h : Level s t) (a : Address) : s.trieBalance a = t.trieBalance a := by
  rw [trieBalance, trieBalance, h.trie]

end Level

/-- An account of the cache is replaced by one with the same balance that is not less
dirty. -/
theorem level_put (hs : s.Balanced) (hbalance : y.balance = s.balanceAt a)
    (hclean : y.isDirty = false → y.balance = s.trieBalance a)
    (hdirty : s.IsDirty a → y.isDirty = true) : Level (s.put a y) s where
  toBalanced := hs.put hclean
  trie := rfl
  changeLog := rfl
  balance b := by
    rw [balanceAt_put]
    by_cases hab : a = b
    · rw [if_pos hab, ← hab, hbalance]
    · rw [if_neg hab]
  dirty b hb := by
    obtain ⟨x, hx, hx'⟩ := hb
    by_cases hab : a = b
    · exact ⟨y, (put_cache a b y s).trans (if_pos hab), hdirty (hab ▸ ⟨x, hx, hx'⟩)⟩
    · exact ⟨x, (put_cache a b y s).trans ((if_neg hab).trans hx), hx'⟩

/-! ## Loading accounts -/

/-- A clean account is dropped. -/
theorem level_erase (hs : s.Balanced) (hx : s.cache[a]? = some x) (hclean : x.isDirty = false) :
    Level { s with cache := s.cache.erase a } s where
  absent := hs.absent
  clean b y hy := by
    rw [getElem?_erase_eq] at hy
    split at hy
    · cases hy
    · exact hs.clean b y hy
  trie := rfl
  changeLog := rfl
  balance b := by
    by_cases hab : a = b
    · have hnone : ({ s with cache := s.cache.erase a } : State H).cache[b]? = none := by
        rw [getElem?_erase_eq, if_pos hab]
      rw [balanceAt_of_none hnone, balanceAt_of_cache (hab ▸ hx), hs.clean a x hx hclean, hab]
      rfl
    · rw [balanceAt, balanceAt, erase_view, if_neg hab]
  dirty b hb := by
    obtain ⟨y, hy, hdirty⟩ := hb
    have hab : a ≠ b := by
      rintro rfl
      rw [hx] at hy
      cases hy
      rw [hclean] at hdirty
      cases hdirty
    exact ⟨y, getElem?_erase_eq.trans ((if_neg hab).trans hy), hdirty⟩

/-- The list of unchanged entries does not matter. -/
theorem Level.withEntries (h : Level s t) (entries : List Address) :
    Level { s with unchangedCacheEntries := entries } t :=
  { h with balance := h.balance, absent := h.absent, clean := h.clean }

theorem level_evict (hs : s.Balanced) (i : Nat) : Level (s.evict i) s := by
  unfold evict
  dsimp only
  split
  · next x hx =>
      cases hdirty : x.isDirty with
      | true => exact (Level.refl hs).withEntries _
      | false => exact (level_erase hs hx hdirty).withEntries _
  · exact (Level.refl hs).withEntries _

theorem level_clearCacheIfTooLarge (pick : Pick) (hs : s.Balanced) (n : Nat) :
    Level (clearCacheIfTooLarge pick n s) s := by
  induction n generalizing s with
  | zero => exact Level.refl hs
  | succ n ih =>
      unfold clearCacheIfTooLarge
      split
      · have hevict := level_evict hs (pick s.unchangedCacheEntries % s.unchangedCacheEntries.length)
        exact (ih hevict.toBalanced).trans hevict
      · exact Level.refl hs

/-- **Loading an account does not change balances.** -/
theorem level_load (pick : Pick) (a : Address) (hs : s.Balanced) : Level (s.load pick a) s := by
  unfold load
  split
  · exact Level.refl hs
  · next hmissing =>
      rw [not_or] at hmissing
      have hnone : s.cache[a]? = none := by
        rw [ExtTreeMap.contains_eq_isSome_getElem?] at hmissing
        simpa using hmissing.1
      split
      · next hleaf =>
          refine { Level.refl hs with absent := fun b hb => ?_, clean := hs.clean, balance := fun _ => rfl }
          rcases mem_insert_iff.mp hb with rfl | hb
          · exact hleaf
          · exact hs.absent b hb
      · next leaf hleaf =>
          have hclear := level_clearCacheIfTooLarge pick hs s.unchangedCacheEntries.length
          have hnone' := clearCacheIfTooLarge_none pick s.unchangedCacheEntries.length hnone
          refine Level.trans (Level.withEntries (level_put hclear.toBalanced ?_ ?_ ?_) _) hclear
          · rw [balanceAt_of_none hnone', trieBalance, hclear.trie, hleaf]
            rfl
          · intro _
            rw [trieBalance, hclear.trie, hleaf]
            rfl
          · rintro ⟨x, hx, -⟩
            rw [hnone'] at hx
            cases hx

/-- What `account` finds has the balance, and else there is none. -/
theorem load_balance (pick : Pick) (a : Address) (hs : s.Balanced) :
    s.balanceAt a = (s.load pick a).cache[a]?.elim 0 Account.balance := by
  rw [load_found pick a (hs.absent a), balanceAt]

/-- An account that is not found is not in the trie. -/
theorem load_trie (pick : Pick) (hs : s.Balanced) (hnone : (s.load pick a).cache[a]? = none) :
    (s.load pick a).trie[a]? = none := by
  rw [load_found pick a (hs.absent a), view, Option.or_eq_none_iff, Option.map_eq_none_iff] at hnone
  rw [(level_load pick a hs).trie]
  exact hnone.2

/-! ## The change log -/

/-- The account of the change is in the cache and dirty, and one that becomes clean has the
balance that the trie holds. -/
def Found (s : State H) (c : Change H) : Prop :=
  s.IsDirty c.address ∧ ∀ a, c = .touch a → s.balanceAt a = s.trieBalance a

theorem Level.found (h : Level s t) (hc : t.Found c) : s.Found c := by
  refine ⟨h.dirty _ hc.1, fun a ha => ?_⟩
  rw [h.balance, h.trieBalance_eq]
  exact hc.2 a ha

theorem Level.tail (h : Level s t) :
    Level { s with changeLog := s.changeLog.tail } { t with changeLog := t.changeLog.tail } :=
  { h with
    absent := h.absent
    clean := h.clean
    changeLog := congrArg List.tail h.changeLog
    balance := h.balance }

/-- Like accounts are assigned. -/
theorem Level.put (h : Level s t) (hbalance : x.balance = y.balance) (hdirty : x.isDirty = y.isDirty)
    (hclean : x.isDirty = false → x.balance = s.trieBalance a) :
    Level (s.put a x) (t.put a y) where
  toBalanced := h.toBalanced.put hclean
  trie := h.trie
  changeLog := h.changeLog
  balance b := by
    rw [balanceAt_put, balanceAt_put, hbalance, h.balance]
  dirty b := by
    rintro ⟨z, hz, hz'⟩
    rw [put_cache] at hz
    by_cases hab : a = b
    · rw [if_pos hab] at hz
      cases hz
      exact ⟨x, (put_cache a b x s).trans (if_pos hab), hdirty.trans hz'⟩
    · rw [if_neg hab] at hz
      obtain ⟨u, hu, hu'⟩ := h.dirty b ⟨z, hz, hz'⟩
      exact ⟨u, (put_cache a b x s).trans ((if_neg hab).trans hu), hu'⟩

/-- A created account goes away. -/
theorem Level.erase (h : Level s t) (a : Address) :
    Level { s with cache := s.cache.erase a } { t with cache := t.cache.erase a } where
  absent := h.absent
  clean b y hy := by
    rw [getElem?_erase_eq] at hy
    split at hy
    · cases hy
    · exact h.clean b y hy
  trie := h.trie
  changeLog := h.changeLog
  balance b := by
    rw [balanceAt, balanceAt, erase_view, erase_view]
    by_cases hab : a = b
    · rw [if_pos hab, if_pos hab, h.trie]
    · rw [if_neg hab, if_neg hab]
      exact h.balance b
  dirty b := by
    rintro ⟨z, hz, hz'⟩
    rw [getElem?_erase_eq] at hz
    split at hz
    · cases hz
    · next hab =>
        obtain ⟨u, hu, hu'⟩ := h.dirty b ⟨z, hz, hz'⟩
        exact ⟨u, getElem?_erase_eq.trans ((if_neg hab).trans hu), hu'⟩

variable [CodeHash H]

/-- Undoing a change that is found keeps the relation. -/
theorem Level.undo (h : Level s t) (hc : t.Found c) : Level (s.undo c) (t.undo c) := by
  obtain ⟨⟨y, hy, hdirty⟩, htouch⟩ := hc
  obtain ⟨x, hx, hdirty'⟩ := h.dirty _ ⟨y, hy, hdirty⟩
  have hbalance : x.balance = y.balance := by
    rw [← balanceAt_of_cache hx, ← balanceAt_of_cache hy, h.balance]
  have hdead : ∀ {z : Account H} {p : Prop}, z.isDirty = true → z.isDirty = false → p := by
    intro z p hz hz'
    rw [hz] at hz'
    cases hz'
  simp only [State.undo, entry_of_cache hx, entry_of_cache hy]
  cases c with
  | storage a key value => exact h.tail.put hbalance rfl (hdead rfl)
  | storageRoot a value => exact h.tail.put hbalance rfl (hdead rfl)
  | balance a value => exact h.tail.put (congrArg (· + (0 - value)) hbalance) rfl (hdead rfl)
  | nonce a value => exact h.tail.put hbalance rfl (hdead rfl)
  | create a => exact h.tail.erase a
  | code a oldCode =>
      exact h.tail.put hbalance (hdirty'.trans hdirty.symm) (hdead hdirty')
  | touch a =>
      have hput : Level (State.put a x.untouch { s with changeLog := s.changeLog.tail })
          (State.put a y.untouch { t with changeLog := t.changeLog.tail }) := by
        refine h.tail.put hbalance rfl fun _ => ?_
        show x.balance = s.trieBalance a
        rw [hbalance, h.trieBalance_eq, ← htouch a rfl]
        exact (balanceAt_of_cache hy).symm
      exact { hput.withEntries _ with balance := hput.balance }

/-- The relation that rollbacks keep. -/
def leveling : (journal (H := H)).Covering where
  Good := Balanced
  Holds := Found
  Covers := Level
  refl := Level.refl
  trans := Level.trans
  log_eq h := h.changeLog
  good h _ := h.toBalanced
  holds := Level.found
  undo h _ _ hc := h.undo hc

/-- From `s` the state `t` is reached by changes that a rollback takes back to the balances
of `s`, and dirty accounts have stayed dirty. -/
def Runs (s t : State H) : Prop :=
  Journal.Undoes leveling s t ∧ (s.Balanced → ∀ a, s.IsDirty a → t.IsDirty a)

namespace Runs

theorem refl (s : State H) : Runs s s := ⟨Journal.Undoes.refl s, fun _ _ h => h⟩

theorem balanced (h : Runs s t) (hs : s.Balanced) : t.Balanced := (h.1 hs).1.good

theorem trans (h : Runs s t) (h' : Runs t r) : Runs s r :=
  ⟨h.1.trans h'.1, fun hs a ha => h'.2 (h.balanced hs) a (h.2 hs a ha)⟩

theorem of_level (h : s.Balanced → Level t s) : Runs s t :=
  ⟨Journal.Undoes.of_covers h, fun hs => (h hs).dirty⟩

/-- A rollback to the start restores the balances. -/
theorem level (h : Runs s t) (hs : s.Balanced) : Level (t.rollback s.savepoint) s := (h.1 hs).2

/-- The balances may be assumed to be in order. -/
theorem of_balanced (h : s.Balanced → Runs s t) : Runs s t :=
  ⟨fun hs => (h hs).1 hs, fun hs => (h hs).2 hs⟩

theorem bind {α β : Type} {m : Action H α} {f : α → Action H β} (hm : Runs s (after m s))
    (hf : ∀ v t, m s = .ok v t → Runs t (after (f v) t)) : Runs s (after (m >>= f) s) := by
  refine after_bind (fun e t h => ?_) fun v t h => ?_
  · rwa [after_of_error h] at hm
  · rw [after_of_ok h] at hm
    exact hm.trans (hf v t h)

end Runs

/-! ## Single changes -/

/-- An account is changed to a dirty one, with an entry that takes the change of the balance
back. -/
theorem runs_put (hc : c.address = a) (hcreate : ∀ b, c ≠ .create b) (hdirty : y.isDirty = true)
    (hback : s.Balanced → Level (s.put a (revert c y)) s)
    (htouch : s.Balanced → ∀ b, c = .touch b → y.balance = s.trieBalance a) :
    Runs s ((s.put a y).logged c) := by
  have hcache : ((s.put a y).logged c).cache[a]? = some y := (put_cache a a y s).trans (if_pos rfl)
  refine ⟨Journal.Undoes.of_entry rfl ?_ ?_ ?_, fun _ b hb => ?_⟩
  · intro hs
    have hput := hs.putDirty (a := a) hdirty
    exact ⟨hput.absent, hput.clean⟩
  · intro hs
    refine ⟨⟨y, by rw [hc]; exact hcache, hdirty⟩, fun b hb => ?_⟩
    subst hb
    cases hc
    exact (balanceAt_of_cache hcache).trans (htouch hs _ rfl)
  · intro hs
    obtain ⟨entries, hundo⟩ := undo_logged hc hcreate s y
    show Level (((s.put a y).logged c).undo c) s
    rw [hundo]
    exact (hback hs).withEntries entries
  · exact (isDirty_put hdirty).mpr (.inr hb)

/-- An account is created where there is none. -/
theorem runs_create (hnone : s.cache[a]? = none)
    (hdirty : x.isDirty = true) : Runs s (s.created a x) := by
  have hsmall : s.Balanced → Balanced { s with
      nonExistingAccountsCache := s.nonExistingAccountsCache.erase a } := fun hs =>
    ⟨fun b hb => hs.absent b (mem_erase_iff.mp hb).2, hs.clean⟩
  refine ⟨Journal.Undoes.of_entry rfl ?_ ?_ ?_, fun _ b hb => ?_⟩
  · intro hs
    have hput := (hsmall hs).putDirty (a := a) hdirty
    exact ⟨hput.absent, hput.clean⟩
  · intro _
    exact ⟨⟨x, (put_cache a a x s).trans (if_pos rfl), hdirty⟩, fun b hb => by cases hb⟩
  · intro hs
    have herase : (s.cache.insert a x).erase a = s.cache := by
      apply ExtTreeMap.ext_getElem?
      intro b
      rw [getElem?_erase_eq, getElem?_insert_eq]
      split
      · next hab => rw [← hab, hnone]
      · rfl
    show Level { s.put a x with
      nonExistingAccountsCache := _, changeLog := _, cache := (s.cache.insert a x).erase a } s
    rw [herase]
    have hrefl := Level.refl hs
    exact { hrefl with absent := (hsmall hs).absent, clean := hs.clean, balance := hrefl.balance }
  · exact (isDirty_put hdirty).mpr (.inr hb)

/-! ## Operations that leave the balances alone -/

/-- The balances are as before. -/
def Steady (s t : State H) : Prop := Runs s t ∧ (s.Balanced → t.balanceAt = s.balanceAt)

instance : Std.Refl (Steady (H := H)) where
  refl s := ⟨Runs.refl s, fun _ => rfl⟩

instance : IsTrans (State H) (Steady (H := H)) where
  trans _ _ _ hst htr :=
    ⟨hst.1.trans htr.1, fun hs => (htr.2 (hst.1.balanced hs)).trans (hst.2 hs)⟩

theorem Steady.of_level (h : s.Balanced → Level t s) : Steady s t :=
  ⟨Runs.of_level h, fun hs => funext (h hs).balance⟩

theorem steady_load (pick : Pick) (a : Address) (s : State H) : Steady s (s.load pick a) :=
  .of_level (level_load pick a)

theorem Steady.of_balanced (h : s.Balanced → Steady s t) : Steady s t :=
  ⟨Runs.of_balanced fun hs => (h hs).1, fun hs => (h hs).2 hs⟩

theorem Steady.bind {α β : Type} {m : Action H α} {f : α → Action H β} (hm : Steady s (after m s))
    (hf : s.Balanced → ∀ v t, m s = .ok v t → Steady t (after (f v) t)) :
    Steady s (after (m >>= f) s) := by
  refine .of_balanced fun hs => after_bind (fun e t h => ?_) fun v t h => ?_
  · rwa [after_of_error h] at hm
  · rw [after_of_ok h] at hm
    exact trans_of Steady hm (hf hs v t h)

/-- An action that starts with `account`. -/
theorem steady_account {α : Type} {pick : Pick} {f : Option (Account H) → Action H α}
    (h : s.Balanced → Steady (s.load pick a)
      (after (f (s.load pick a).cache[a]?) (s.load pick a))) :
    Steady s (after (account pick a >>= f) s) :=
  .of_balanced fun hs => trans_of Steady (steady_load pick a s) (h hs)

/-- A function of the account that is found. -/
theorem steady_reader {α : Type} {pick : Pick} {f : Option (Account H) → α} :
    Moves Steady (do let x ← account pick a; pure (f x) : Action H α) := fun _ =>
  steady_account fun _ => refl_of Steady _

theorem steady_getNonce (pick : Pick) (a : Address) :
    Moves Steady (getNonce pick a : Action H U256) := fun _ =>
  steady_account fun _ => refl_of Steady _

/-- An account of the cache is replaced by one with the same balance and the same mark. -/
theorem steady_note (hx : s.cache[a]? = some x) (hbalance : y.balance = x.balance)
    (hdirty : y.isDirty = x.isDirty) : Steady s (s.put a y) := by
  refine .of_level fun hs => level_put hs (hbalance.trans (balanceAt_of_cache hx).symm) ?_ ?_
  · intro hclean
    rw [hbalance]
    exact hs.clean a x hx (hdirty ▸ hclean)
  · rintro ⟨z, hz, hz'⟩
    rw [hx] at hz
    cases hz
    exact hdirty.trans hz'

theorem steady_readStorage (key : U256) (hx : s.cache[a]? = some x) :
    Steady s (after (readStorage a key x) s) := by
  rw [readStorage, after_modify_bind, after_pure]
  split
  · exact refl_of Steady s
  · exact steady_note hx rfl rfl

theorem steady_readCode [DecidableEq H] (hx : s.cache[a]? = some x) : Steady s (after (readCode a x) s) := by
  rw [readCode, after_get_bind]
  split
  · exact refl_of Steady s
  · split
    · rw [after_throwIf_bind]
      split
      · exact refl_of Steady s
      · rw [after_modify_bind, after_pure]
        exact steady_note hx rfl rfl
    · exact refl_of Steady s

theorem steady_code [DecidableEq H] (pick : Pick) (a : Address) : Moves Steady (code pick a : Action H Bytes) := by
  intro s
  refine steady_account fun _ => ?_
  cases hx : (s.load pick a).cache[a]? with
  | none => exact refl_of Steady _
  | some x => exact steady_readCode hx

/-- A change with an entry that keeps the balance. -/
theorem steady_put (hc : c.address = a) (hcreate : ∀ b, c ≠ .create b) (htouch : ∀ b, c ≠ .touch b)
    (hdirty : y.isDirty = true) (hdirty' : (revert c y).isDirty = true)
    (hbalance : y.balance = s.balanceAt a) (hbalance' : (revert c y).balance = s.balanceAt a) :
    Steady s ((s.put a y).logged c) := by
  constructor
  · refine runs_put hc hcreate hdirty (fun hs => ?_) fun _ b hb => absurd hb (htouch b)
    refine level_put hs hbalance' (fun hclean => ?_) fun _ => hdirty'
    rw [hdirty'] at hclean
    cases hclean
  · intro _
    funext b
    refine (balanceAt_put s a b y).trans ?_
    split
    · next hab => rw [hbalance, hab]
    · rfl

/-- A new account without balance. -/
theorem steady_create (hnone : s.cache[a]? = none) (hleaf : s.trie[a]? = none)
    (hdirty : x.isDirty = true) (hbalance : x.balance = 0) : Steady s (s.created a x) := by
  refine ⟨runs_create hnone hdirty, fun _ => funext fun b => ?_⟩
  refine (balanceAt_put s a b x).trans ?_
  split
  · next hab => rw [hbalance, ← hab, balanceAt_of_none hnone, trieBalance, hleaf, Option.elim_none]
  · rfl

theorem steady_createAccount (pick : Pick) (a : Address) (hdirty : x.isDirty = true)
    (hbalance : x.balance = 0) : Moves Steady (createAccount pick a x : Action H Unit) := by
  intro s
  rw [createAccount, addressInUse, bind_assoc]
  refine steady_account fun hs => ?_
  rw [pure_bind, after_throwIf_bind]
  cases hx : (s.load pick a).cache[a]? with
  | some y => exact refl_of Steady _
  | none => exact steady_create hx (load_trie pick hs hx) hdirty hbalance

theorem steady_requireAccountStartNonce :
    Moves Steady (requireAccountStartNonce : Action H U256) :=
  Moves.bind Moves.get fun _ => Moves.bind (Moves.throwIf _ _) fun _ => Moves.pure _

theorem steady_writeNonce (pick : Pick) (a : Address) (new : Account H → U256)
    {first : Action H U256} (hfirst : Moves Steady first) :
    Moves Steady (writeNonce pick a new first) := by
  intro s
  refine steady_account fun hs => ?_
  cases hx : (s.load pick a).cache[a]? with
  | none =>
      exact Moves.bind hfirst (fun nonce => steady_createAccount pick a rfl rfl) _
  | some x =>
      have hbalance := (balanceAt_of_cache hx).symm
      exact steady_put rfl (by simp) (by simp) rfl rfl hbalance hbalance

theorem steady_incNonce (pick : Pick) (a : Address) :
    Moves Steady (incNonce pick a : Action H Unit) :=
  steady_writeNonce pick a _ (Moves.bind steady_requireAccountStartNonce fun _ => Moves.pure _)

theorem steady_setNonce (pick : Pick) (a : Address) (nonce : U256) :
    Moves Steady (setNonce pick a nonce : Action H Unit) :=
  steady_writeNonce pick a _ (Moves.pure nonce)

/-- An account whose nonce is written is dirty. -/
theorem isDirty_setNonce {pick : Pick} {nonce : U256} {u : Unit}
    (h : setNonce pick a nonce s = .ok u t) : t.IsDirty a := by
  rw [setNonce, writeNonce, account_bind] at h
  cases hx : (s.load pick a).cache[a]? with
  | some x =>
      rw [hx] at h
      rw [modify_eq_ok.mp h]
      exact (isDirty_put rfl).mpr (.inl rfl)
  | none =>
      rw [hx] at h
      obtain ⟨nonce, r, -, h⟩ := bind_eq_ok.mp h
      obtain ⟨inUse, r, -, h⟩ := bind_eq_ok.mp h
      rw [modify_eq_ok.mp (throwIf_bind_eq_ok.mp h).2]
      exact (isDirty_put rfl).mpr (.inl rfl)

theorem steady_storage (pick : Pick) (a : Address) (key : U256) :
    Moves Steady (storage pick a key : Action H U256) := by
  intro s
  refine steady_account fun _ => ?_
  cases hx : (s.load pick a).cache[a]? with
  | none => exact refl_of Steady _
  | some x => exact steady_readStorage key hx

/-- An account of the cache has the balance, and a new one has none. -/
theorem entry_balance (h : s.cache[a]? = none → s.trieBalance a = 0) :
    (s.entry a).balance = s.balanceAt a := by
  cases hx : s.cache[a]? with
  | some x => rw [entry_of_cache hx, balanceAt_of_cache hx]
  | none =>
      rw [entry, ExtTreeMap.getD_eq_getD_getElem?, hx, balanceAt_of_none hx, h hx]
      rfl

omit [CodeHash H] in
/-- An account that `storage` has not found is not in the trie either. -/
theorem storage_none {pick : Pick} {key value : U256} (hs : s.Balanced)
    (ht : storage pick a key s = .ok value t) (hnone : t.cache[a]? = none) : t.trieBalance a = 0 := by
  rw [storage, account_bind] at ht
  cases hx : (s.load pick a).cache[a]? with
  | none =>
      rw [hx] at ht
      obtain ⟨-, rfl⟩ := pure_eq_ok.mp ht
      rw [trieBalance, load_trie pick hs hx, Option.elim_none]
  | some x =>
      rw [hx] at ht
      replace ht : after (readStorage a key x) (s.load pick a) = t := after_of_ok ht
      rw [readStorage, after_modify_bind, after_pure] at ht
      rw [← ht] at hnone
      split at hnone
      · rw [hx] at hnone
        cases hnone
      · rw [put_cache, if_pos rfl] at hnone
        cases hnone

theorem steady_setStorage (pick : Pick) (a : Address) (key value : U256) :
    Moves Steady (setStorage pick a key value : Action H Unit) := fun s =>
  (steady_storage pick a key s).bind fun hs _ t ht => by
    have hbalance : (t.entry a).balance = t.balanceAt a := entry_balance (storage_none hs ht)
    exact steady_put rfl (by simp) (by simp) rfl rfl hbalance hbalance

/-! ## Operations on a dirty account -/

theorem steady_clearStorage (hdirty : s.IsDirty a) :
    Steady s (after (clearStorage a : Action H Unit) s) := by
  obtain ⟨x, hx, hdirty⟩ := hdirty
  have hbalance := (balanceAt_of_cache hx).symm
  rw [clearStorage, after_modify]
  dsimp only
  rw [entry_of_cache hx, put_self hx, entry_of_cache hx]
  split
  · exact refl_of Steady s
  · exact steady_put rfl (by simp) (by simp) rfl rfl hbalance hbalance

theorem steady_setCode [DecidableEq H] (pick : Pick) (new : Bytes) (hdirty : s.IsDirty a) :
    Steady s (after (setCode pick a new) s) := by
  have hread := steady_code pick a s
  refine hread.bind fun hs old t ht => ?_
  rw [after_of_ok ht] at hread
  obtain ⟨x, hx, hdirty⟩ := hread.1.2 hs a hdirty
  have hbalance := (balanceAt_of_cache hx).symm
  rw [after_modify, entry_of_cache hx]
  exact steady_put rfl (by simp) (by simp) hdirty hdirty hbalance hbalance

/-! ## Credits and debits -/

/-- The balance at `a` has become `value`, and no other has changed. -/
def Sets (a : Address) (value : U256) (s t : State H) : Prop :=
  Runs s t ∧ (s.Balanced → t.balanceAt = Function.update s.balanceAt a value)

theorem Sets.of_balanced {value : U256} (h : s.Balanced → Sets a value s t) : Sets a value s t :=
  ⟨Runs.of_balanced fun hs => (h hs).1, fun hs => (h hs).2 hs⟩

theorem Steady.sets {value : U256} (h : Steady s t) (h' : Sets a value t r) : Sets a value s r :=
  ⟨h.1.trans h'.1, fun hs => by rw [h'.2 (h.1.balanced hs), h.2 hs]⟩

variable [DecidableEq H]

/-- The balance of an account in the cache changes, and the amount is logged. -/
theorem sets_amount (hx : s.cache[a]? = some x) (amount : U256) :
    Sets a (x.balance + amount) s
      (if amount ≠ 0 then (s.put a (x.addBalance amount)).logged (.balance a amount)
        else s.put a (x.addBalance amount)) := by
  have hnew : (s.put a (x.addBalance amount)).balanceAt =
      Function.update s.balanceAt a (x.balance + amount) := by
    funext b
    rw [balanceAt_put, Function.update_apply]
    simp only [eq_comm (a := a)]
    rfl
  have hlevel : ∀ {y : Account H}, y.isDirty = true → y.balance = x.balance →
      s.Balanced → Level (s.put a y) s := by
    intro y hdirty hbalance hs
    refine level_put hs (hbalance.trans (balanceAt_of_cache hx).symm) (fun hclean => ?_) fun _ => hdirty
    rw [hdirty] at hclean
    cases hclean
  split
  · have hsame : Same s.codes ((x.addBalance amount).addBalance (0 - amount)) x :=
      same_addBalance x amount
    exact ⟨runs_put rfl (by simp) rfl (hlevel rfl hsame.balance) (by simp), fun _ => hnew⟩
  · next hzero =>
      rw [not_not] at hzero
      refine ⟨Runs.of_level (hlevel rfl ?_), fun _ => hnew⟩
      show x.balance + amount = x.balance
      rw [hzero]
      exact BitVec.add_zero _

theorem sets_raise (hs : s.Balanced) (hx : s.cache[a]? = some x) (amount : U256) :
    Sets a (x.balance + amount) s (raise a amount x s) := by
  unfold raise
  cases htouch : !x.isDirty && x.isEmpty with
  | false => exact sets_amount hx amount
  | true =>
      rw [Bool.and_eq_true, Bool.not_eq_true'] at htouch
      have hzero : x.balance + 0 = x.balance := BitVec.add_zero _
      have hcache : ((s.put a (x.addBalance 0)).logged (.touch a)).cache[a]? =
        some (x.addBalance 0) := (put_cache a a _ _).trans (if_pos rfl)
      have hfirst : Steady s ((s.put a (x.addBalance 0)).logged (.touch a)) := by
        constructor
        · refine runs_put rfl (by simp) rfl (fun _ => ?_) fun _ _ _ => ?_
          · refine level_put hs (hzero.trans (balanceAt_of_cache hx).symm) (fun _ => ?_) ?_
            · exact hzero.trans (hs.clean a x hx htouch.1)
            · rintro ⟨y, hy, hdirty⟩
              rw [hx] at hy
              cases hy
              rw [htouch.1] at hdirty
              cases hdirty
          · exact hzero.trans (hs.clean a x hx htouch.1)
        · intro _
          funext b
          refine (balanceAt_put s a b _).trans ?_
          split
          · next hab => exact hab ▸ hzero.trans (balanceAt_of_cache hx).symm
          · rfl
      have hsecond := sets_amount hcache amount
      rw [put_touched] at hsecond
      have hsets := hfirst.sets hsecond
      rw [show (x.addBalance 0).balance = x.balance from hzero] at hsets
      exact hsets

/-- A new account is first empty, and then gets the amount. -/
theorem sets_created (nonce amount : U256) (hnone : s.cache[a]? = none) (hleaf : s.trie[a]? = none) :
    Sets a (s.balanceAt a + amount) s
      (if amount ≠ 0 then (s.created a (.create nonce amount)).logged (.balance a amount)
        else s.created a (.create nonce amount)) := by
  have hzero : s.balanceAt a = 0 := by rw [balanceAt_of_none hnone, trieBalance, hleaf, Option.elim_none]
  have hfirst : Steady s (s.created a (.create nonce 0)) := steady_create hnone hleaf rfl rfl
  have hcache : (s.created a (.create nonce 0)).cache[a]? = some (.create nonce 0) :=
    (put_cache a a _ _).trans (if_pos rfl)
  have hsecond := sets_amount hcache amount
  rw [put_created] at hsecond
  rw [hzero]
  exact hfirst.sets hsecond

omit [CodeHash H] [DecidableEq H] in
/-- `createAccount`, where there is no account. -/
theorem createAccount_eq (pick : Pick) (hs : s.Balanced) (hnone : s.view a = none) :
    createAccount pick a x s = .ok () ((s.load pick a).created a x) := by
  have hcache : (s.load pick a).cache[a]? = none := (load_found pick a (hs.absent a)).trans hnone
  rw [createAccount, addressInUse, bind_assoc, account_bind, hcache]
  rfl

omit [CodeHash H] [DecidableEq H] in
theorem requireAccountStartNonce_bind {α : Type} {f : U256 → Action H α}
    (hnonce : s.accountStartNonce ≠ invalid256) :
    (requireAccountStartNonce >>= f) s = f s.accountStartNonce s := by
  rw [requireAccountStartNonce, bind_assoc, get_bind, bind_assoc, throwIf, if_neg hnonce]
  rfl

/-- **`addBalance` adds to the balance, unless it would have to create an account and has no
nonce for it.** -/
theorem addBalance_cases (pick : Pick) (a : Address) (amount : U256) (hs : s.Balanced) :
    (∃ t, addBalance pick a amount s = .ok () t ∧ Sets a (s.balanceAt a + amount) s t) ∨
      s.accountStartNonce = invalid256 ∧
        ∃ t, addBalance pick a amount s = .error .invalidAccountStartNonce t := by
  have hload := level_load pick a hs
  have hnonce := (based_load pick a s).accountStartNonce
  have hsteady := steady_load pick a s
  rw [addBalance, account_bind]
  cases hx : (s.load pick a).cache[a]? with
  | some x =>
      refine .inl ⟨_, rfl, hsteady.sets ?_⟩
      have hbalance : s.balanceAt a = x.balance := by rw [load_balance pick a hs, hx, Option.elim_some]
      rw [hbalance]
      exact sets_raise hload.toBalanced hx amount
  | none =>
      have htrie := load_trie pick hs hx
      generalize s.load pick a = t at hload hnonce hsteady hx htrie ⊢
      by_cases hinvalid : s.accountStartNonce = invalid256
      · refine .inr ⟨hinvalid, t, ?_⟩
        show (requireAccountStartNonce >>= _) t = _
        rw [requireAccountStartNonce, bind_assoc, get_bind, bind_assoc, throwIf,
          if_pos (hnonce.trans hinvalid)]
        rfl
      · have hview : t.view a = none := by
          rw [view, hx, htrie]
          rfl
        have hvalid : t.accountStartNonce ≠ invalid256 := hnonce ▸ hinvalid
        have hcreate := createAccount_eq (x := .create t.accountStartNonce amount) pick
          hload.toBalanced hview
        have hagain := level_load pick a hload.toBalanced
        have hcache := (load_found pick a (hload.absent a)).trans hview
        have hsets := sets_created t.accountStartNonce amount hcache (hagain.trie ▸ htrie)
        rw [hagain.balance, hload.balance] at hsets
        refine .inl ⟨_, ?_, hsteady.sets ((steady_load pick a t).sets hsets)⟩
        show (requireAccountStartNonce >>= _) t = _
        rw [requireAccountStartNonce_bind hvalid]
        exact bind_eq_ok.mpr ⟨(), _, hcreate, rfl⟩

/-- **`subBalance` takes from the balance if there is enough of it.** -/
theorem subBalance_cases (pick : Pick) (a : Address) (value : U256) (hs : s.Balanced) :
    (value ≤ s.balanceAt a ∧ ∃ t, subBalance pick a value s = .ok () t ∧
      Sets a (s.balanceAt a - value) s t) ∨
      s.balanceAt a < value ∧ ∃ t, subBalance pick a value s = .error .notEnoughCash t := by
  have hload := level_load pick a hs
  have hsteady := steady_load pick a s
  have hbalance := load_balance pick a hs
  unfold subBalance
  by_cases hzero : value = 0
  · refine .inl ⟨hzero ▸ Nat.zero_le _, s, if_pos hzero ▸ rfl, Runs.refl s, fun _ => ?_⟩
    have hsub : s.balanceAt a - value = s.balanceAt a := by
      rw [hzero]
      exact BitVec.sub_zero _
    rw [hsub, Function.update_eq_self]
  · rw [if_neg hzero, account_bind]
    cases hx : (s.load pick a).cache[a]? with
    | none =>
        refine .inr ⟨?_, s.load pick a, by simp [throwIf]; rfl⟩
        rw [hbalance, hx]
        exact BitVec.lt_def.mpr (Nat.pos_of_ne_zero fun h => hzero (BitVec.eq_of_toNat_eq h))
    | some x =>
        have hx' : s.balanceAt a = x.balance := by rw [hbalance, hx, Option.elim_some]
        by_cases hshort : x.balance < value
        · refine .inr ⟨hx' ▸ hshort, s.load pick a, ?_⟩
          simp [throwIf, hshort]
          rfl
        · have hadd : addBalance pick a (0 - value) (s.load pick a) =
              .ok () (raise a (0 - value) x (s.load pick a)) := by
            rw [addBalance, account_bind, load_of_cache pick hx, hx]
            rfl
          have hsub : x.balance + (0 - value) = x.balance - value := by
            show x.balance + (0#256 - value) = _
            rw [BitVec.zero_sub, BitVec.sub_eq_add_neg]
          have hsets := sets_raise hload.toBalanced hx (0 - value)
          rw [hsub, ← hx'] at hsets
          refine .inl ⟨hx' ▸ BitVec.not_lt.mp hshort, _, ?_, hsteady.sets hsets⟩
          rw [throwIf_bind_eq_ok]
          exact ⟨fun hall => hshort (hall x rfl), hadd⟩

end CppSwc.State
