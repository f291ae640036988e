import CppSwc.Lib.Run
import CppSwc.State.View

/-!
# Rollbacks restore the state

The change log is a journal, and `Covers` is kept by undoing its entries as long as the
accounts that they are about are in the cache and dirty.  So it is enough to look at
single mutators: undoing what a mutator has logged covers the state before it
(`undoes_incNonce` and so on).

Two mutators do not always do what is needed.  `setCode` does not mark the account as
changed, so that an account that is not dirty can be dropped from the cache with its new
code.  And only `addBalance` logs that an empty account becomes dirty, which later makes
`commit` remove it: `incNonce`, `setNonce` and `setStorage` do not.  `Recorded` says that
neither is the case.
-/

namespace CppSwc.State

open Std Lib CodeHash Account

variable {H : Type} [DecidableEq H] [CodeHash H]

/-! ## The change log as a journal -/

omit [DecidableEq H] in
theorem changeLog_undo (s : State H) (c : Change H) :
    (s.undo c).changeLog = s.changeLog.tail := by
  cases c <;> rfl

/-- The change log. -/
def journal : Journal (State H) (Change H) where
  log := changeLog
  undo s c := s.undo c
  log_undo := changeLog_undo

/-- The account of the change is in the cache and dirty, and a created one is not in the
trie. -/
def Holds (s : State H) (c : Change H) : Prop :=
  (∃ x, s.cache[c.address]? = some x ∧ x.isDirty = true) ∧
    ∀ a, c = .create a → s.trie[a]? = none

variable {s t : State H} {a : Address} {x y : Account H} {c : Change H}

omit [DecidableEq H] in
theorem entry_of_cache (h : s.cache[a]? = some x) : s.entry a = x := by
  rw [entry, ExtTreeMap.getD_eq_getD_getElem?, h, Option.getD_some]

/-- The newest entry goes away. -/
theorem Covers.tail (h : Covers s t) :
    Covers { s with changeLog := s.changeLog.tail } { t with changeLog := t.changeLog.tail } :=
  { h with changeLog := congrArg List.tail h.changeLog, view := h.view }

/-- A created account goes away. -/
theorem Covers.erase (h : Covers s t) (hleaf : t.trie[a]? = none) :
    Covers { s with cache := s.cache.erase a } { t with cache := t.cache.erase a } where
  toTidy := h.toTidy.erase a
  trie := h.trie
  codes := h.codes
  accountStartNonce := h.accountStartNonce
  changeLog := h.changeLog
  view b := by
    rw [erase_view, erase_view]
    by_cases hab : a = b
    · rw [if_pos hab, if_pos hab, h.trie, ← hab, hleaf]
      exact .none
    · rw [if_neg hab, if_neg hab]
      exact h.view b
  dirty b y hy hdirty := by
    rw [getElem?_erase_eq] at hy ⊢
    split at hy
    · cases hy
    · next hab =>
        rw [if_neg hab]
        exact h.dirty b y hy hdirty
  fresh b x hx hdirty hempty := by
    rw [getElem?_erase_eq] at hx ⊢
    split at hx
    · cases hx
    · next hab =>
        rw [if_neg hab]
        exact h.fresh b x hx hdirty hempty

/-- Undoing a held change keeps the relation. -/
theorem Covers.undo (h : Covers s t) (hholds : t.Holds c) : Covers (s.undo c) (t.undo c) := by
  obtain ⟨⟨y, hy, hdirty⟩, hcreate⟩ := hholds
  obtain ⟨x, hx, hdirty', hsame⟩ := h.entry hy hdirty
  have hnoted := h.noted _ x hx
  have halive : c.address ∈ s.nonExistingAccountsCache → x.isAlive = false :=
    fun ha => (h.absent _ ha).2 x hx
  have hentry := entry_of_cache hx
  have hentry' := entry_of_cache hy
  simp only [State.undo, hentry, hentry']
  cases c with
  | storage a key value => exact h.tail.put hnoted halive (hsame.setStorage key value) rfl
  | storageRoot a value => exact h.tail.put hnoted halive (hsame.setStorageRoot value) rfl
  | balance a value => exact h.tail.put hnoted halive (hsame.addBalance _) rfl
  | nonce a value => exact h.tail.put hnoted halive (hsame.setNonce value) rfl
  | create a => exact h.tail.erase (hcreate a rfl)
  | code a oldCode =>
      exact h.tail.put (codeNoted_setCode x oldCode) halive (hsame.setCode oldCode)
        (hdirty'.trans hdirty.symm)
  | touch a =>
      have hput : Covers (State.put a x.untouch { s with changeLog := s.changeLog.tail })
          (State.put a y.untouch { t with changeLog := t.changeLog.tail }) :=
        h.tail.put hnoted halive hsame.untouch rfl
      exact { hput.withEntries _ with view := hput.view }

/-- The relation that rollbacks keep. -/
def covering : (journal (H := H)).Covering where
  Good := Coherent
  Holds := Holds
  Covers := Covers
  refl h := Covers.refl h.toTidy
  trans := Covers.trans
  log_eq h := h.changeLog
  good := Covers.coherent
  holds h hholds := by
    obtain ⟨⟨y, hy, hdirty⟩, hcreate⟩ := hholds
    obtain ⟨x, hx, hdirty', -⟩ := h.entry hy hdirty
    exact ⟨⟨x, hx, hdirty'⟩, fun a ha => h.trie ▸ hcreate a ha⟩
  undo h _ _ hholds := h.undo hholds

/-- From `s` the state `t` is reached by changes whose undoing covers `s`. -/
abbrev Undoes (s t : State H) : Prop := Journal.Undoes covering s t

/-! ## Sequences -/

theorem Undoes.bind {α β : Type} {m : Action H α} {f : α → Action H β}
    (hm : Undoes s (after m s))
    (hf : ∀ v t, m s = .ok v t → Undoes t (after (f v) t)) : Undoes s (after (m >>= f) s) := by
  cases h : m s with
  | ok v t =>
      rw [after_of_ok h] at hm
      rw [after_bind_of_ok h]
      exact hm.trans (hf v t h)
  | error e t =>
      rw [after_of_error h] at hm
      rwa [after_bind_of_error h]

theorem undoes_load (pick : Pick) (a : Address) (s : State H) : Undoes s (s.load pick a) :=
  Journal.Undoes.of_covers (covers_load pick a)

/-- An action that starts with `account`. -/
theorem undoes_account {α : Type} {pick : Pick} {f : Option (Account H) → Action H α}
    (h : s.Coherent → Undoes (s.load pick a)
      (after (f (s.load pick a).cache[a]?) (s.load pick a))) :
    Undoes s (after (account pick a >>= f) s) := by
  intro hs
  exact (undoes_load pick a s).trans (h hs) hs

/-! ## Single changes -/

omit [DecidableEq H] [CodeHash H] in
theorem put_self (hx : s.cache[a]? = some x) : s.put a x = s := by
  have hcache : s.cache.insert a x = s.cache := by
    apply ExtTreeMap.ext_getElem?
    intro b
    rw [getElem?_insert_eq]
    split
    · next hab => rw [← hab, hx]
    · rfl
  rw [put, hcache]

omit [DecidableEq H] [CodeHash H] in
theorem put_put (s : State H) (a : Address) (x y : Account H) :
    (s.put a x).put a y = s.put a y := by
  have hcache : (s.cache.insert a x).insert a y = s.cache.insert a y := by
    apply ExtTreeMap.ext_getElem?
    intro b
    rw [getElem?_insert_eq, getElem?_insert_eq, getElem?_insert_eq]
    split <;> rfl
  simp only [put, hcache]

/-- What undoing a change does to its account. -/
def revert : Change H → Account H → Account H
  | .storage _ key value, x => x.setStorage key value
  | .storageRoot _ value, x => x.setStorageRoot value
  | .balance _ value, x => x.addBalance (0 - value)
  | .nonce _ value, x => x.setNonce value
  | .code _ oldCode, x => x.setCode oldCode
  | .touch _, x => x.untouch
  | .create _, x => x

omit [DecidableEq H] in
/-- Undoing the newest change, which is not a creation. -/
theorem undo_logged (hc : c.address = a) (hcreate : ∀ b, c ≠ .create b) (s : State H)
    (y : Account H) :
    ∃ entries, ((s.put a y).logged c).undo c =
      { s.put a (revert c y) with unchangedCacheEntries := entries } := by
  have hentry : ((s.put a y).logged c).entry c.address = y := by
    refine entry_of_cache ?_
    rw [hc]
    exact (put_cache a a y s).trans (if_pos rfl)
  rw [← put_put s a y (revert c y)]
  simp only [State.undo, hentry]
  cases c with
  | create b => exact absurd rfl (hcreate b)
  | storage b key value | storageRoot b value | balance b value | nonce b value | code b code =>
      subst hc
      exact ⟨s.unchangedCacheEntries, rfl⟩
  | touch b =>
      subst hc
      exact ⟨s.unchangedCacheEntries ++ [b], rfl⟩

/-- An account of the cache is changed to a dirty one, with an entry that takes the change
back. -/
theorem undoes_put (hc : c.address = a) (hcreate : ∀ b, c ≠ .create b)
    (hx : s.cache[a]? = some x) (halive : y.isAlive = x.isAlive) (hnoted : y.CodeNoted)
    (hdirty : y.isDirty = true) (hback : s.Coherent → Covers (s.put a (revert c y)) s) :
    Undoes s ((s.put a y).logged c) := by
  refine Journal.Undoes.of_entry rfl ?_ ?_ ?_
  · intro hs
    have hput := hs.put hnoted (fun ha => halive.trans ((hs.absent a ha).2 x hx)) hdirty
    exact { hput with }
  · intro hs
    refine ⟨⟨y, ?_, hdirty⟩, fun b hb => absurd hb (hcreate b)⟩
    rw [hc]
    exact (put_cache a a y s).trans (if_pos rfl)
  · intro hs
    obtain ⟨entries, hundo⟩ := undo_logged hc hcreate s y
    show Covers (((s.put a y).logged c).undo c) s
    rw [hundo]
    exact (hback hs).withEntries entries

/-- An account is created where there is none. -/
theorem undoes_create (hnone : s.cache[a]? = none) (hleaf : s.trie[a]? = none)
    (hnoted : x.CodeNoted) (hdirty : x.isDirty = true) :
    Undoes s (s.created a x) := by
  have herase : (s.cache.insert a x).erase a = s.cache := by
    apply ExtTreeMap.ext_getElem?
    intro b
    rw [getElem?_erase_eq, getElem?_insert_eq]
    split
    · next hab => rw [← hab, hnone]
    · rfl
  refine Journal.Undoes.of_entry rfl ?_ ?_ ?_
  · intro hs
    have hsmall : Coherent { s with
        nonExistingAccountsCache := s.nonExistingAccountsCache.erase a } :=
      { hs with absent := fun b hb => hs.absent b (mem_erase_iff.mp hb).2 }
    have hput := hsmall.put (a := a) hnoted
      (fun ha => absurd rfl (mem_erase_iff.mp ha).1) hdirty
    exact { hput with }
  · intro _
    refine ⟨⟨x, (put_cache a a x s).trans (if_pos rfl), hdirty⟩, ?_⟩
    intro b hb
    cases hb
    exact hleaf
  · intro hs
    show Covers { s.put a x with
      nonExistingAccountsCache := _, changeLog := _, cache := (s.cache.insert a x).erase a } s
    rw [herase]
    have hrefl := Covers.refl hs.toTidy
    exact { hrefl with absent := fun b hb => hs.absent b (mem_erase_iff.mp hb).2 }

/-! ## The mutators -/

/-- An account that is shown as empty is dirty. -/
def TouchedIfEmpty (s : State H) (a : Address) : Prop :=
  ∀ x, s.view a = some x → x.isEmpty = true → x.isDirty = true

theorem Covers.touchedIfEmpty (h : Covers s t) (ht : t.TouchedIfEmpty a) :
    s.TouchedIfEmpty a := by
  intro x hx hempty
  have hview := h.view a
  rw [hx] at hview
  cases hy : t.view a with
  | none =>
      rw [hy] at hview
      cases hview
  | some y =>
      rw [hy] at hview
      cases hview with
      | some hsame =>
          have hdirty := ht y hy (hsame.isEmpty_eq ▸ hempty)
          -- a dirty account is shown by the cache, so that the cache of `s` has it too
          have hcache : t.cache[a]? = some y := by
            cases hc : t.cache[a]? with
            | some z =>
                rw [State.view, hc, Option.some_or] at hy
                exact hy
            | none =>
                rw [State.view, hc, Option.none_or] at hy
                obtain ⟨leaf, -, rfl⟩ := Option.map_eq_some_iff.mp hy
                cases hdirty
          obtain ⟨z, hz, hdirty'⟩ := h.dirty a y hcache hdirty
          rw [State.view, hz, Option.some_or] at hx
          cases hx
          exact hdirty'

/-- Reading storage is not visible. -/
theorem covers_storage (pick : Pick) (a : Address) (key : U256) (hs : s.Coherent) :
    Covers (after (storage pick a key) s) s := by
  have hcovers := covers_load pick a hs
  have hload := hcovers.coherent hs
  refine Covers.trans (t := s.load pick a) ?_ hcovers
  rw [after, storage, account_bind]
  generalize s.load pick a = t at hload ⊢
  cases hx : t.cache[a]? with
  | none => exact Covers.refl hload.toTidy
  | some x =>
      show Covers (if x.storageOverlay.contains key then t
        else t.put a (x.setStorageCache key (x.storageAt key))) t
      split
      · exact Covers.refl hload.toTidy
      · exact covers_put hload.toTidy hx (hload.noted a x hx) (same_setStorageCache x key) id
          fun hdirty _ => hdirty

/-- The value that is read. -/
theorem storage_ok {pick : Pick} {key old : U256} (hs : s.Coherent)
    (hexists : (s.view a).isSome = true) (h : storage pick a key s = .ok old t) :
    ∃ x, t.cache[a]? = some x ∧ old = x.storageAt key := by
  obtain ⟨x, hview⟩ := Option.isSome_iff_exists.mp hexists
  have hx := (load_found pick a (hs.toTidy.unused a)).trans hview
  rw [storage, account_bind, hx] at h
  replace h : readStorage a key x (s.load pick a) = .ok old t := h
  rw [readStorage, modify_bind] at h
  obtain ⟨rfl, rfl⟩ := pure_eq_ok.mp h
  split
  · exact ⟨x, hx, rfl⟩
  · refine ⟨_, (put_cache a a _ _).trans (if_pos rfl), ?_⟩
    rw [storageAt_setStorageCache, if_pos rfl]

theorem covers_readCode (hs : s.Coherent) (hx : s.cache[a]? = some x) :
    Covers (after (readCode a x) s) s := by
  rw [readCode, after_get_bind]
  split
  · exact Covers.refl hs.toTidy
  · split
    · next hcache =>
        rw [after_throwIf_bind]
        split
        · exact Covers.refl hs.toTidy
        · next hsha3 =>
            rw [after_modify_bind, after_pure]
            exact covers_put hs.toTidy hx (.inr (.inr (not_not.mp hsha3))) (same_noteCode hcache) id
              fun hdirty _ => hdirty
    · exact Covers.refl hs.toTidy

/-- The code that is read has the hash of the account. -/
theorem readCode_ok {old : Bytes} (hs : s.Tidy) (hx : s.cache[a]? = some x)
    (h : readCode a x s = .ok old t) :
    ∃ y, t.cache[a]? = some y ∧ y.isDirty = x.isDirty ∧ y.CodeNoted ∧
      old = y.code t.codes ∧ sha3 old = y.codeHash := by
  rw [readCode, get_bind] at h
  split at h
  · next hhash =>
      obtain ⟨rfl, rfl⟩ := pure_eq_ok.mp h
      refine ⟨x, hx, rfl, hs.noted a x hx, ?_, hhash.symm⟩
      rw [Account.code, codeOf, if_pos hhash]
  · next hhash =>
      split at h
      · next hcache =>
          obtain ⟨hsha3, h⟩ := throwIf_bind_eq_ok.mp h
          rw [modify_bind] at h
          obtain ⟨rfl, rfl⟩ := pure_eq_ok.mp h
          rw [not_not] at hsha3
          refine ⟨_, (put_cache a a _ s).trans (if_pos rfl), rfl, .inr (.inr hsha3), ?_, hsha3⟩
          have hcode : (x.noteCode (s.codes x.codeHash)).code s.codes = x.code s.codes :=
            (same_noteCode hcache).code
          refine Eq.trans ?_ hcode.symm
          rw [Account.code, codeOf, if_neg hhash, if_pos hcache]
      · next hcache =>
          obtain ⟨rfl, rfl⟩ := pure_eq_ok.mp h
          have hsha3 := ((hs.noted a x hx).resolve_left hhash).resolve_left hcache
          refine ⟨x, hx, rfl, hs.noted a x hx, ?_, hsha3⟩
          rw [Account.code, codeOf, if_neg hhash, if_neg hcache]

/-- An action that starts with `createAccount`. -/
theorem undoes_createAccount_bind {α : Type} {pick : Pick} {f : Unit → Action H α}
    (h : ∀ t : State H, t.cache[a]? = none → t.trie[a]? = none →
      Undoes t (after (f ()) (t.created a x))) (s : State H) :
    Undoes s (after (createAccount pick a x >>= f) s) := by
  rw [createAccount, addressInUse, bind_assoc, bind_assoc]
  refine undoes_account fun hs => ?_
  have hfound := load_found pick a (hs.toTidy.unused a)
  have htrie := (covers_load pick a hs).trie
  generalize s.load pick a = t at hfound htrie ⊢
  rw [pure_bind, bind_assoc, after_throwIf_bind]
  cases hx : t.cache[a]? with
  | some y => exact Journal.Undoes.refl t
  | none =>
      have hleaf : t.trie[a]? = none := by
        rw [hx] at hfound
        rw [htrie]
        exact Option.map_eq_none_iff.mp (Option.or_eq_none_iff.mp hfound.symm).2
      exact h t hx hleaf

theorem undoes_createAccount (pick : Pick) (a : Address) (hnoted : x.CodeNoted)
    (hdirty : x.isDirty = true) (s : State H) : Undoes s (after (createAccount pick a x) s) := by
  rw [← bind_pure (createAccount pick a x)]
  refine undoes_createAccount_bind (fun t hnone hleaf => ?_) s
  exact undoes_create hnone hleaf hnoted hdirty

omit [DecidableEq H] in
/-- A new account keeps no code and is dirty. -/
theorem codeNoted_create (nonce balance : U256) :
    (create nonce balance : Account H).CodeNoted := .inl rfl

theorem undoes_requireAccountStartNonce {α : Type} {f : U256 → Action H α}
    (h : ∀ nonce, Undoes s (after (f nonce) s)) :
    Undoes s (after (requireAccountStartNonce >>= f) s) := by
  rw [requireAccountStartNonce, bind_assoc, after_get_bind, bind_assoc, after_throwIf_bind]
  split
  · exact Journal.Undoes.refl s
  · exact h _

theorem undoes_createContract (pick : Pick) (a : Address) (s : State H) :
    Undoes s (after (createContract pick a) s) :=
  undoes_requireAccountStartNonce fun nonce =>
    undoes_createAccount pick a (codeNoted_create nonce 0) rfl s

/-- The shared part of `incNonce` and `setNonce`. -/
theorem undoes_writeNonce {pick : Pick} {new : Account H → U256} {first : Action H U256}
    (hs : s.TouchedIfEmpty a)
    (hfirst : ∀ {f : U256 → Action H Unit} {t : State H},
      (∀ nonce, Undoes t (after (f nonce) t)) → Undoes t (after (first >>= f) t)) :
    Undoes s (after (writeNonce pick a new first) s) := by
  refine undoes_account fun hcoherent => ?_
  have hcovers := covers_load pick a hcoherent
  have hload := hcovers.coherent hcoherent
  have htouched := hcovers.touchedIfEmpty hs
  generalize s.load pick a = t at hload htouched ⊢
  cases hx : t.cache[a]? with
  | none => exact hfirst fun nonce => undoes_createAccount pick a (codeNoted_create nonce 0) rfl t
  | some x =>
      refine undoes_put rfl (by simp) hx rfl (hload.noted a x hx) rfl fun _ => ?_
      refine covers_put hload.toTidy hx (hload.noted a x hx) (same_setNonce x _) (fun _ => rfl) ?_
      intro _ hempty
      have hsame : Same t.codes ((x.setNonce (new x)).setNonce x.nonce) x := same_setNonce x _
      exact htouched x (by rw [view, hx, Option.some_or]) (hsame.isEmpty_eq ▸ hempty)

theorem undoes_incNonce (pick : Pick) (hs : s.TouchedIfEmpty a) :
    Undoes s (after (incNonce pick a) s) := by
  refine undoes_writeNonce hs fun h => ?_
  rw [bind_assoc]
  refine undoes_requireAccountStartNonce fun nonce => ?_
  rw [pure_bind]
  exact h _

theorem undoes_setNonce (pick : Pick) (nonce : U256) (hs : s.TouchedIfEmpty a) :
    Undoes s (after (setNonce pick a nonce) s) := by
  refine undoes_writeNonce hs fun h => ?_
  rw [pure_bind]
  exact h nonce

/-- The balance of an account in the cache grows, and the amount is logged. -/
theorem undoes_amount (hs : s.Coherent) (hx : s.cache[a]? = some x)
    (htouched : x.isEmpty = true → x.isDirty = true) (amount : U256) :
    Undoes s (if amount ≠ 0 then (s.put a (x.addBalance amount)).logged (.balance a amount)
      else s.put a (x.addBalance amount)) := by
  have hnoted := hs.noted a x hx
  have hcovers : ∀ y, y.CodeNoted → Same s.codes y x → y.isDirty = true →
      Covers (s.put a y) s := by
    intro y hy hsame hdirty
    refine covers_put hs.toTidy hx hy hsame (fun _ => hdirty) fun _ hempty => ?_
    exact htouched (hsame.isEmpty_eq ▸ hempty)
  split
  · refine undoes_put rfl (by simp) hx rfl hnoted rfl fun _ => ?_
    exact hcovers _ hnoted (same_addBalance x amount) rfl
  · next hzero =>
      rw [not_not] at hzero
      refine Journal.Undoes.of_covers fun _ => hcovers _ hnoted ?_ rfl
      refine { Same.refl s.codes x with balance := ?_ }
      show x.balance + amount = x.balance
      rw [hzero]
      exact BitVec.add_zero _

omit [DecidableEq H] [CodeHash H] in
theorem addBalance_zero_add (x : Account H) (amount : U256) :
    (x.addBalance 0).addBalance amount = x.addBalance amount := by
  have hbalance : x.balance + 0 + amount = x.balance + amount := by
    rw [show x.balance + 0 = x.balance from BitVec.add_zero _]
  simp only [Account.addBalance, hbalance]

omit [DecidableEq H] [CodeHash H] in
/-- The touch alone, and then the amount. -/
theorem put_touched (s : State H) (a : Address) (x : Account H) (amount : U256) :
    ((s.put a (x.addBalance 0)).logged (.touch a)).put a ((x.addBalance 0).addBalance amount) =
      (s.logged (.touch a)).put a (x.addBalance amount) := by
  rw [addBalance_zero_add]
  exact congrArg (logged (.touch a)) (put_put s a _ _)

omit [DecidableEq H] in
/-- A new account is first empty, and then gets the amount. -/
theorem put_created (s : State H) (a : Address) (nonce amount : U256) :
    (s.created a (.create nonce 0)).put a ((create nonce 0).addBalance amount) =
      s.created a (.create nonce amount) := by
  have hnew : (create nonce 0 : Account H).addBalance amount = create nonce amount := by
    simp only [Account.addBalance, Account.create, Account.dead, BitVec.ofNat_eq_ofNat,
      BitVec.zero_add]
  rw [hnew]
  exact congrArg (fun u : State H => { u with
    nonExistingAccountsCache := s.nonExistingAccountsCache.erase a
    changeLog := .create a :: s.changeLog }) (put_put s a _ _)

/-- An account in the cache whose balance grows.  A first touch of an empty account is an
entry of its own. -/
theorem undoes_raise (hs : s.Coherent) (hx : s.cache[a]? = some x) (amount : U256) :
    Undoes s (raise a amount x s) := by
  unfold raise
  cases htouch : !x.isDirty && x.isEmpty with
  | false =>
      refine undoes_amount hs hx (fun hempty => ?_) amount
      simpa [hempty] using htouch
  | true =>
      rw [Bool.and_eq_true, Bool.not_eq_true'] at htouch
      have hnoted := hs.noted a x hx
      have hfirst : Undoes s ((s.put a (x.addBalance 0)).logged (.touch a)) := by
        refine undoes_put rfl (by simp) hx rfl hnoted rfl fun _ => ?_
        refine covers_put hs.toTidy hx hnoted ?_ (fun h => ?_) (fun h => ?_)
        · refine { Same.refl s.codes x with balance := ?_ }
          exact BitVec.add_zero _
        · rw [htouch.1] at h
          cases h
        · cases h
      refine hfirst.trans fun hgood => ?_
      have hsecond := undoes_amount hgood ((put_cache a a _ _).trans (if_pos rfl))
        (fun _ => rfl) amount hgood
      rwa [put_touched] at hsecond

theorem undoes_addBalance (pick : Pick) (a : Address) (amount : U256) (s : State H) :
    Undoes s (after (addBalance pick a amount) s) := by
  refine undoes_account fun hs => ?_
  have hload := (covers_load pick a hs).coherent hs
  generalize s.load pick a = t at hload ⊢
  cases hx : t.cache[a]? with
  | some x => exact undoes_raise hload hx amount
  | none =>
      refine undoes_requireAccountStartNonce fun nonce => ?_
      refine undoes_createAccount_bind (fun r hnone hleaf => ?_) t
      have hfirst : Undoes r (r.created a (.create nonce 0)) :=
        undoes_create hnone hleaf (codeNoted_create nonce 0) rfl
      refine hfirst.trans fun hgood => ?_
      have hsecond := undoes_amount hgood ((put_cache a a _ _).trans (if_pos rfl))
        (fun _ => rfl) amount hgood
      rwa [put_created] at hsecond

theorem undoes_subBalance (pick : Pick) (a : Address) (value : U256) (s : State H) :
    Undoes s (after (subBalance pick a value) s) := by
  unfold subBalance
  split
  · exact Journal.Undoes.refl s
  · refine undoes_account fun _ => ?_
    rw [after_throwIf_bind]
    split
    · exact Journal.Undoes.refl _
    · exact undoes_addBalance pick a _ _

theorem undoes_setBalance (pick : Pick) (a : Address) (value : U256) (s : State H) :
    Undoes s (after (setBalance pick a value) s) :=
  undoes_account fun _ => undoes_addBalance pick a _ _

theorem undoes_transferBalance (pick pick' : Pick) (source target : Address) (value : U256)
    (s : State H) : Undoes s (after (transferBalance pick pick' source target value) s) :=
  Undoes.bind (undoes_subBalance pick source value s)
    fun _ t _ => undoes_addBalance pick' target value t

/-- `setStorage`, on an account that is there. -/
theorem undoes_setStorage (pick : Pick) (key value : U256) (hs : s.TouchedIfEmpty a)
    (hexists : (s.view a).isSome = true) :
    Undoes s (after (setStorage pick a key value) s) := by
  intro hcoherent
  have hcovers := covers_storage pick a key hcoherent
  refine Undoes.bind (Journal.Undoes.of_covers fun _ => hcovers) ?_ hcoherent
  intro old t ht
  obtain ⟨x, hx, rfl⟩ := storage_ok hcoherent hexists ht
  rw [after_of_ok ht] at hcovers
  have hread := hcovers.coherent hcoherent
  have htouched := hcovers.touchedIfEmpty hs
  rw [after_modify, entry_of_cache hx]
  refine undoes_put rfl (by simp) hx rfl (hread.noted a x hx) rfl fun _ => ?_
  have hsame : Same t.codes ((x.setStorage key value).setStorage key (x.storageAt key)) x :=
    same_setStorage x key value
  refine covers_put hread.toTidy hx (hread.noted a x hx) hsame (fun _ => rfl) fun _ hempty => ?_
  exact htouched x (by rw [view, hx, Option.some_or]) (hsame.isEmpty_eq ▸ hempty)

/-- `setCode`, on a dirty account. -/
theorem undoes_setCode (pick : Pick) (new : Bytes) (hx : s.cache[a]? = some x)
    (hdirty : x.isDirty = true) : Undoes s (after (setCode pick a new) s) := by
  intro hs
  have hcode : code pick a s = readCode a x s := by
    rw [code, account_bind, load_of_cache pick hx, hx]
  have hcovers := covers_readCode hs hx
  refine Undoes.bind (Journal.Undoes.of_covers fun _ => ?_) ?_ hs
  · rwa [after, hcode]
  · intro old t ht
    rw [hcode] at ht
    obtain ⟨y, hy, hdirty', hnoted, rfl, hsha3⟩ := readCode_ok hs.toTidy hx ht
    rw [after_of_ok ht] at hcovers
    have hread := hcovers.coherent hs
    rw [after_modify, entry_of_cache hy]
    refine undoes_put rfl (by simp) hy rfl (codeNoted_setCode y new) (hdirty'.trans hdirty)
      fun _ => ?_
    refine covers_put hread.toTidy hy (codeNoted_setCode _ _) (same_setCode hsha3) id
      fun _ _ => hdirty'.trans hdirty

end CppSwc.State
