import CppSwc.State.Savepoints

/-!
# Commits keep what can be read

`Kept` adds to a coherent state that the code of every account is in the database or
waits in the cache to be written, and that a dead account in the cache reads like no
account.  A commit of such a state is not visible (`commit_keeps`).

The operations keep `Kept` as long as what they write is written to the trie later
(`Lasting`).  That fails for code that is set on an account which is not dirty, for writes
to `m_cache[a]` where there is no account or a dead one, and for `kill`, which leaves new
code and a zero nonce behind.
-/

namespace CppSwc

open Std Lib CodeHash

variable {H : Type} [DecidableEq H] [CodeHash H]

namespace Account

variable {lookup : H → Bytes} {x y : Account H} {start : U256}

/-- The account reads like no account, where `start` is the nonce of new accounts. -/
structure Blank (start : U256) (x : Account H) : Prop where
  nonce : x.nonce = start
  balance : x.balance = 0
  codeHash : x.codeHash = emptySHA3
  storage : ∀ key, x.storageAt key = 0

/-- The code is kept, and a dead account is blank. -/
structure Fine (lookup : H → Bytes) (start : U256) (x : Account H) : Prop where
  code : CodeKept lookup x
  dead : x.isAlive = false → Blank start x

omit [DecidableEq H] in
/-- A change of an account that is alive, and not of its code. -/
theorem Fine.of_alive (h : Fine lookup start x) (halive : y.isAlive = true)
    (hnew : y.hasNewCode = x.hasNewCode) (hhash : y.codeHash = x.codeHash)
    (hcache : y.codeCache = x.codeCache) : Fine lookup start y where
  code := ⟨fun hy => by rw [hcache, hhash]; exact h.code.new (hnew.symm.trans hy),
    fun hy => by rw [hhash]; exact h.code.old (hnew.symm.trans hy)⟩
  dead hdead := by
    rw [halive] at hdead
    cases hdead

omit [DecidableEq H] in
/-- Code that is not new is in the database. -/
theorem codeKept_old (hnew : x.hasNewCode = false) (h : Stored lookup x.codeHash) :
    CodeKept lookup x where
  new hx := by
    rw [hnew] at hx
    cases hx
  old _ := h

omit [DecidableEq H] in
theorem fine_setCode (code : Bytes) (halive : x.isAlive = true) :
    Fine lookup start (x.setCode code) where
  code := { new := fun _ => rfl, old := fun hnew => by cases hnew }
  dead hdead := by
    rw [show (x.setCode code).isAlive = x.isAlive from rfl, halive] at hdead
    cases hdead

omit [DecidableEq H] in
theorem fine_create (nonce balance : U256) :
    Fine lookup start (create nonce balance) where
  code := codeKept_old rfl (.inl rfl)
  dead hdead := by cases hdead

omit [DecidableEq H] in
theorem fine_ofLeaf {leaf : Leaf H} (h : Stored lookup leaf.codeHash) :
    Fine lookup start (ofLeaf leaf) where
  code := codeKept_old rfl h
  dead hdead := by cases hdead

omit [DecidableEq H] [CodeHash H] in
theorem storageAt_of_empty {x : Account H} (hoverlay : x.storageOverlay = ∅)
    (hroot : x.storageRoot = ∅) (key : U256) : x.storageAt key = 0 := by
  have hempty : (∅ : ExtTreeMap U256 U256)[key]? = none := ExtTreeMap.getElem?_empty
  rw [storageAt, hoverlay, hroot]
  simp only [hempty, ExtTreeMap.getD_eq_getD_getElem?]
  rfl

omit [DecidableEq H] in
theorem fine_dead (hstart : start = 0) : Fine lookup start (dead : Account H) where
  code := codeKept_old rfl (.inl rfl)
  dead _ := ⟨hstart.symm, rfl, rfl, storageAt_of_empty rfl rfl⟩

omit [DecidableEq H] in
/-- A killed account is blank if new accounts have nonce zero, and it keeps no code. -/
theorem fine_kill (hstart : start = 0) (hnew : x.hasNewCode = true → x.codeCache = []) :
    Fine lookup start x.kill where
  code := by
    refine ⟨fun hx => ?_, fun _ => .inl rfl⟩
    show sha3 x.codeCache = emptySHA3
    rw [hnew hx, emptySHA3]
  dead _ := ⟨hstart.symm, rfl, rfl, storageAt_of_empty rfl rfl⟩

omit [DecidableEq H] in
theorem Fine.clearStorage (h : Fine lookup start x) : Fine lookup start x.clearStorage where
  code := ⟨h.code.new, h.code.old⟩
  dead hdead := by
    obtain ⟨hnonce, hbalance, hhash, -⟩ := h.dead hdead
    exact ⟨hnonce, hbalance, hhash, storageAt_of_empty rfl rfl⟩

omit [DecidableEq H] in
/-- A slot that is noted in the overlay. -/
theorem Fine.setStorageCache (h : Fine lookup start x) (key : U256) :
    Fine lookup start (x.setStorageCache key (x.storageAt key)) where
  code := ⟨h.code.new, h.code.old⟩
  dead hdead := by
    obtain ⟨hnonce, hbalance, hhash, hstorage⟩ := h.dead hdead
    refine ⟨hnonce, hbalance, hhash, fun k => ?_⟩
    rw [storageAt_setStorageCache, hstorage, hstorage]
    exact ite_self 0

omit [DecidableEq H] in
/-- Code that is read from the database. -/
theorem Fine.noteCode (h : Fine lookup start x) (hcache : x.codeCache = [])
    (hhash : x.codeHash ≠ emptySHA3) (code : Bytes) : Fine lookup start (x.noteCode code) where
  code := by
    refine ⟨fun hnew => ?_, h.code.old⟩
    have hsha3 := h.code.new hnew
    rw [hcache] at hsha3
    exact absurd hsha3.symm hhash
  dead hdead := absurd (h.dead hdead).codeHash hhash

end Account

namespace State

open Account

variable {s t : State H} {a : Address} {x y : Account H}

/-- Nothing that can be read is missing in what a commit writes. -/
structure Kept (s : State H) : Prop extends Coherent s where
  stored : ∀ (a : Address) (leaf : Leaf H), s.trie[a]? = some leaf → Stored s.codes leaf.codeHash
  fine : ∀ (a : Address) (x : Account H), s.cache[a]? = some x →
    Fine s.codes s.accountStartNonce x

namespace Kept

/-- What covers a state has the same trie and database. -/
theorem of_covers (hs : s.Kept) (h : Covers t s)
    (hfine : ∀ (b : Address) (y : Account H), t.cache[b]? = some y →
      Fine s.codes s.accountStartNonce y) : t.Kept where
  toCoherent := h.coherent hs.toCoherent
  stored b leaf hleaf := by
    rw [h.trie] at hleaf
    rw [h.codes]
    exact hs.stored b leaf hleaf
  fine b y hy := by
    rw [h.codes, h.accountStartNonce]
    exact hfine b y hy

/-- An account of the cache is replaced. -/
theorem put (hs : s.Kept) (hcoherent : (s.put a y).Coherent)
    (hy : Fine s.codes s.accountStartNonce y) : (s.put a y).Kept where
  toCoherent := hcoherent
  stored := hs.stored
  fine b z hz := by
    rw [put_cache] at hz
    split at hz
    · cases hz
      exact hy
    · exact hs.fine b z hz

theorem logged (hs : s.Kept) (c : Change H) : (s.logged c).Kept :=
  { hs with clean := hs.clean, fine := hs.fine }

end Kept

/-! ## Reading -/

omit [DecidableEq H] [CodeHash H] in
/-- Clearing the cache adds nothing to it. -/
theorem cache_of_clear (pick : Pick) (n : Nat)
    (h : (clearCacheIfTooLarge pick n s).cache[a]? = some x) : s.cache[a]? = some x := by
  induction n generalizing s with
  | zero => exact h
  | succ n ih =>
      rw [clearCacheIfTooLarge] at h
      split at h
      · replace h := ih h
        unfold evict at h
        dsimp only at h
        split at h
        · split at h
          · exact h
          · rw [getElem?_erase_eq] at h
            split at h
            · cases h
            · exact h
        · exact h
      · exact h

theorem Kept.load (pick : Pick) (a : Address) (hs : s.Kept) : (s.load pick a).Kept := by
  refine hs.of_covers (covers_load pick a hs.toCoherent) ?_
  intro b y hy
  unfold State.load at hy
  split at hy
  · exact hs.fine b y hy
  · split at hy
    · exact hs.fine b y hy
    · next leaf hleaf =>
        replace hy : (State.put a (.ofLeaf leaf)
          (clearCacheIfTooLarge pick s.unchangedCacheEntries.length s)).cache[b]? = some y := hy
        rw [put_cache] at hy
        split at hy
        · cases hy
          exact fine_ofLeaf (hs.stored a leaf hleaf)
        · exact hs.fine b y (cache_of_clear pick _ hy)

theorem Kept.storage (pick : Pick) (a : Address) (key : U256) (hs : s.Kept) :
    (after (storage pick a key) s).Kept := by
  have hload := hs.load pick a
  rw [after, State.storage, account_bind]
  generalize s.load pick a = t at hload ⊢
  cases hx : t.cache[a]? with
  | none => exact hload
  | some x =>
      show Kept (if x.storageOverlay.contains key then t
        else t.put a (x.setStorageCache key (x.storageAt key)))
      split
      · exact hload
      · have hcovers : Covers (t.put a (x.setStorageCache key (x.storageAt key))) t :=
          covers_put hload.toTidy hx (hload.noted a x hx) (same_setStorageCache x key) id
            fun hdirty _ => hdirty
        exact hload.put (hcovers.coherent hload.toCoherent)
          ((hload.fine a x hx).setStorageCache key)

theorem Kept.code (pick : Pick) (a : Address) (hs : s.Kept) :
    (after (code pick a) s).Kept := by
  have hload := hs.load pick a
  rw [after, State.code, account_bind]
  generalize s.load pick a = t at hload ⊢
  cases hx : t.cache[a]? with
  | none => exact hload
  | some x =>
      have hcovers := covers_readCode hload.toCoherent hx
      show Kept (after (readCode a x) t)
      rw [readCode, after_get_bind] at hcovers ⊢
      split
      · exact hload
      · next hhash =>
          rw [if_neg hhash] at hcovers
          split
          · next hcache =>
              rw [if_pos hcache, after_throwIf_bind] at hcovers
              rw [after_throwIf_bind]
              split
              · exact hload
              · next hsha3 =>
                  rw [if_neg hsha3, after_modify_bind, after_pure] at hcovers
                  rw [after_modify_bind, after_pure]
                  exact hload.put (hcovers.coherent hload.toCoherent)
                    ((hload.fine a x hx).noteCode hcache hhash _)
          · exact hload

/-! ## Writing -/

/-- There is no dead account at the address. -/
def NotDead (s : State H) (a : Address) : Prop := ∀ x, s.view a = some x → x.isAlive = true

omit [DecidableEq H] in
theorem NotDead.of_load {pick : Pick} (h : s.NotDead a) (hs : s.Tidy)
    (hx : (s.load pick a).cache[a]? = some x) : x.isAlive = true :=
  h x ((load_found pick a (hs.unused a)).symm.trans hx)

/-- Loading does not show a dead account. -/
theorem NotDead.load (h : s.NotDead a) (pick : Pick) (hs : s.Coherent) :
    (s.load pick a).NotDead a := by
  intro x hx
  have hview := (covers_load pick a hs).view a
  rw [hx] at hview
  cases hy : s.view a with
  | none =>
      rw [hy] at hview
      cases hview
  | some y =>
      rw [hy] at hview
      cases hview with
      | some hsame => exact hsame.alive.trans (h y hy)

/-- An account that is alive is changed, and not its code. -/
theorem Kept.replace (hs : s.Kept) (hx : s.cache[a]? = some x) (hy : y.isAlive = true)
    (halive : x.isAlive = true) (hdirty : y.isDirty = true) (hnew : y.hasNewCode = x.hasNewCode)
    (hhash : y.codeHash = x.codeHash) (hcache : y.codeCache = x.codeCache) : (s.put a y).Kept := by
  refine hs.put (hs.toCoherent.replace hx ?_ (fun hdead => ?_) hdirty)
    ((hs.fine a x hx).of_alive hy hnew hhash hcache)
  · have hnoted := hs.noted a x hx
    rwa [CodeNoted, ← hhash, ← hcache] at hnoted
  · rw [halive] at hdead
    cases hdead

omit [DecidableEq H] [CodeHash H] in
/-- What `createAccount` leaves. -/
theorem after_createAccount (pick : Pick) (a : Address) (x : Account H) (s : State H) :
    after (createAccount pick a x) s =
      if (s.load pick a).cache[a]?.isSome = true then s.load pick a
      else (s.load pick a).created a x := by
  show after (throwIf ((s.load pick a).cache[a]?.isSome = true) StateException.assertion >>= _)
    (s.load pick a) = _
  rw [after_throwIf_bind]
  rfl

theorem Kept.createAccount (pick : Pick) (a : Address) (nonce balance : U256) (hs : s.Kept) :
    (after (createAccount pick a (.create nonce balance)) s).Kept := by
  have hload := hs.load pick a
  have hcoherent := coherent_of_undoes
    (undoes_createAccount pick a (codeNoted_create nonce balance) rfl s) hs.toCoherent
  rw [after_createAccount] at hcoherent ⊢
  generalize s.load pick a = t at hload hcoherent ⊢
  split at hcoherent
  · next hsome => rwa [if_pos hsome]
  · next hnone =>
      rw [if_neg hnone]
      refine { hcoherent with stored := hload.stored, fine := fun b y hy => ?_ }
      replace hy : (t.put a (.create nonce balance)).cache[b]? = some y := hy
      rw [put_cache] at hy
      split at hy
      · cases hy
        exact fine_create nonce balance
      · exact hload.fine b y hy

/-- An action that starts with `requireAccountStartNonce`. -/
theorem Kept.requireAccountStartNonce {α : Type} {f : U256 → Action H α} (hs : s.Kept)
    (h : ∀ nonce, (after (f nonce) s).Kept) :
    (after (requireAccountStartNonce >>= f) s).Kept := by
  rw [State.requireAccountStartNonce, bind_assoc, after_get_bind, bind_assoc, after_throwIf_bind]
  split
  · exact hs
  · exact h _

theorem Kept.writeNonce {pick : Pick} {new : Account H → U256} {first : Action H U256}
    (hs : s.Kept) (halive : s.NotDead a)
    (hfirst : ∀ {f : U256 → Action H Unit} {t : State H}, t.Kept →
      (∀ nonce, (after (f nonce) t).Kept) → (after (first >>= f) t).Kept) :
    (after (writeNonce pick a new first) s).Kept := by
  have hload := hs.load pick a
  have hfound : ∀ x, (s.load pick a).cache[a]? = some x → x.isAlive = true :=
    fun x hx => halive.of_load hs.toTidy hx
  show (after (_ : Action H Unit) (s.load pick a)).Kept
  generalize s.load pick a = t at hload hfound ⊢
  cases hx : t.cache[a]? with
  | some x =>
      have hput : (t.put a (x.setNonce (new x))).Kept :=
        hload.replace hx (hfound x hx) (hfound x hx) rfl rfl rfl rfl
      exact hput.logged _
  | none => exact hfirst hload fun nonce => hload.createAccount pick a nonce 0

theorem Kept.raise (hs : s.Kept) (hx : s.cache[a]? = some x) (halive : x.isAlive = true)
    (amount : U256) : (raise a amount x s).Kept := by
  have hput : ∀ t : State H, t.Kept → t.cache[a]? = some x →
      (t.put a (x.addBalance amount)).Kept :=
    fun t ht hx => ht.replace hx halive halive rfl rfl rfl rfl
  unfold State.raise
  dsimp only
  cases !x.isDirty && x.isEmpty with
  | true =>
      split
      · exact (hput _ (hs.logged _) hx).logged _
      · exact hput _ (hs.logged _) hx
  | false =>
      split
      · exact (hput _ hs hx).logged _
      · exact hput _ hs hx

theorem Kept.addBalance (pick : Pick) (amount : U256) (hs : s.Kept) (halive : s.NotDead a) :
    (after (addBalance pick a amount) s).Kept := by
  have hload := hs.load pick a
  have hfound : ∀ x, (s.load pick a).cache[a]? = some x → x.isAlive = true :=
    fun x hx => halive.of_load hs.toTidy hx
  show (after (_ : Action H Unit) (s.load pick a)).Kept
  generalize s.load pick a = t at hload hfound ⊢
  cases hx : t.cache[a]? with
  | some x => exact hload.raise hx (hfound x hx) amount
  | none =>
      refine hload.requireAccountStartNonce fun nonce => ?_
      have hcreate := hload.createAccount pick a nonce amount
      refine after_bind (fun e u hu => ?_) fun _ u hu => ?_
      · rwa [after_of_error hu] at hcreate
      · rw [after_of_ok hu] at hcreate
        rw [after_modify]
        split
        · exact hcreate.logged _
        · exact hcreate

theorem Kept.subBalance (pick : Pick) (value : U256) (hs : s.Kept) (halive : s.NotDead a) :
    (after (subBalance pick a value) s).Kept := by
  unfold State.subBalance
  split
  · exact hs
  · show (after (throwIf _ _ >>= _) (s.load pick a)).Kept
    rw [after_throwIf_bind]
    split
    · exact hs.load pick a
    · exact (hs.load pick a).addBalance pick _ (halive.load pick hs.toCoherent)

theorem Kept.setBalance (pick : Pick) (value : U256) (hs : s.Kept) (halive : s.NotDead a) :
    (after (setBalance pick a value) s).Kept :=
  (hs.load pick a).addBalance pick _ (halive.load pick hs.toCoherent)

theorem Kept.setStorage (pick : Pick) (key value : U256) (hs : s.Kept)
    (halive : ∃ x, s.view a = some x ∧ x.isAlive = true) :
    (after (setStorage pick a key value) s).Kept := by
  obtain ⟨y, hy, halive⟩ := halive
  have hread := hs.storage pick a key
  have hcovers := covers_storage pick a key hs.toCoherent
  refine after_bind (m := State.storage pick a key) (fun e t ht => ?_) fun old t ht => ?_
  · rwa [after_of_error ht] at hread
  · rw [after_of_ok ht] at hread hcovers
    obtain ⟨x, hx, -⟩ := storage_ok hs.toCoherent (by rw [hy]; rfl) ht
    have hview := hcovers.view a
    rw [view, hx, Option.some_or, hy] at hview
    cases hview with
    | some hsame =>
        have hput : (t.put a (x.setStorage key value)).Kept :=
          hread.replace hx (hsame.alive.trans halive) (hsame.alive.trans halive) rfl rfl rfl rfl
        rw [after_modify, entry_of_cache hx]
        exact hput.logged _

/-- `clearStorage`, of an account in the cache or where a dead account reads like none. -/
theorem Kept.clearStorage (hs : s.Kept)
    (hplain : s.cache[a]? ≠ none ∨ s.accountStartNonce = 0) :
    (after (clearStorage a) s).Kept := by
  have hput : (s.put a (s.entry a)).Kept := by
    cases hx : s.cache[a]? with
    | some x => rwa [entry_of_cache hx, put_self hx]
    | none =>
        have hstart := hplain.resolve_left fun h => h hx
        rw [entry_of_none hx]
        exact hs.put (hs.toCoherent.put codeNoted_dead (fun _ => rfl) rfl) (fine_dead hstart)
  have hentry : (s.put a (s.entry a)).cache[a]? = some (s.entry a) :=
    (put_cache a a _ _).trans (if_pos rfl)
  rw [State.clearStorage, after_modify]
  generalize s.put a (s.entry a) = t at hput hentry ⊢
  show Kept (if (t.entry a).storageRoot.isEmpty then t
    else (t.put a (t.entry a).clearStorage).logged _)
  rw [entry_of_cache hentry]
  generalize s.entry a = x at hentry ⊢
  split
  · exact hput
  · have hclear : (t.put a x.clearStorage).Kept :=
      hput.put (hput.toCoherent.replace hentry (hput.noted a x hentry) id rfl)
        (hput.fine a x hentry).clearStorage
    exact hclear.logged _

theorem Kept.setCode (pick : Pick) (new : Bytes) (hs : s.Kept) (hx : s.cache[a]? = some x)
    (hdirty : x.isDirty = true) (halive : x.isAlive = true) :
    (after (setCode pick a new) s).Kept := by
  have hread := hs.code pick a
  have hcovers := covers_code pick a hs.toCoherent
  refine after_bind (m := State.code pick a) (fun e t ht => ?_) fun old t ht => ?_
  · rwa [after_of_error ht] at hread
  · rw [after_of_ok ht] at hread hcovers
    obtain ⟨y, hy, hdirty', hsame⟩ := hcovers.entry hx hdirty
    have halive' := hsame.alive.trans halive
    have hput : (t.put a (y.setCode new)).Kept := by
      refine hread.put (hread.toCoherent.replace hy (codeNoted_setCode y new) ?_ hdirty')
        (fine_setCode new halive')
      intro hdead
      rw [halive'] at hdead
      cases hdead
    rw [after_modify, entry_of_cache hy]
    exact hput.logged _

theorem Kept.kill (pick : Pick) (hs : s.Kept)
    (hplain : ∀ x, s.view a = some x →
      s.accountStartNonce = 0 ∧ (x.hasNewCode = true → x.codeCache = [])) :
    (after (kill pick a) s).Kept := by
  have hcoherent := coherent_kill (a := a) pick hs.toCoherent
  have hload := hs.load pick a
  have hnonce := (covers_load pick a hs.toCoherent).accountStartNonce
  have hfound := load_found pick a (hs.toTidy.unused a)
  replace hcoherent : (after (_ : Action H Unit) (s.load pick a)).Coherent := hcoherent
  show (after (_ : Action H Unit) (s.load pick a)).Kept
  generalize s.load pick a = t at hload hfound hnonce hcoherent ⊢
  cases hx : t.cache[a]? with
  | none => exact hload
  | some x =>
      rw [hx] at hfound hcoherent
      obtain ⟨hstart, hnew⟩ := hplain x hfound.symm
      exact hload.put hcoherent (fine_kill (hnonce.trans hstart) hnew)

/-! ## Commits -/

theorem Kept.new (hs : s.Kept) (b : Address) (y : Account H) (hy : s.cache[b]? = some y)
    (hcode : y.hasNewCode = true) : sha3 y.codeCache = y.codeHash :=
  (hs.fine b y hy).code.new hcode

/-- The code of an account that is written is in the database. -/
theorem Kept.stored_written (behaviour : CommitBehaviour) (hs : s.Kept)
    (hx : s.cache[a]? = some x) (hdirty : x.isDirty = true) (halive : x.isAlive = true)
    (hkept : ¬(behaviour = .removeEmptyAccounts ∧ x.isEmpty)) :
    Stored (s.commit behaviour).codes x.codeHash := by
  obtain ⟨hmono, hnew⟩ := commit_stored behaviour hs.new
  cases hcode : x.hasNewCode with
  | true => exact hnew a x hx hdirty halive hkept hcode
  | false => exact hmono _ ((hs.fine a x hx).code.old hcode)

theorem Kept.commit (behaviour : CommitBehaviour) (hs : s.Kept) : (s.commit behaviour).Kept where
  toCoherent := coherent_commit behaviour hs.toTidy
  stored b leaf hleaf := by
    have hmono := (commit_stored behaviour hs.new).1
    rw [commit_trie] at hleaf
    cases hx : s.cache[b]? with
    | none =>
        rw [hx, Option.elim_none] at hleaf
        exact hmono _ (hs.stored b leaf hleaf)
    | some x =>
        rw [hx, Option.elim_some, written] at hleaf
        split at hleaf
        · next hdirty =>
            split at hleaf
            · next halive =>
                cases hleaf
                exact hs.stored_written behaviour hx hdirty halive.1 halive.2
            · cases hleaf
        · exact hmono _ (hs.stored b leaf hleaf)
  fine b y hy := by
    rw [commit_cache] at hy
    cases hy

/-- What is read at an address is the same. -/
structure Shown (s t : State H) (a : Address) : Prop where
  balance : s.balanceAt a = t.balanceAt a
  nonce : s.nonceAt a = t.nonceAt a
  code : s.codeAt a = t.codeAt a
  storage : ∀ key, s.storageAt a key = t.storageAt a key

/-- The code of what is shown has its hash. -/
theorem Kept.sha3_codeAt (hs : s.Kept) (a : Address) : sha3 (s.codeAt a) = s.codeHashAt a := by
  rw [codeAt, codeHashAt]
  cases hx : s.cache[a]? with
  | some x =>
      rw [view, hx]
      exact (hs.fine a x hx).code.sha3_code (hs.noted a x hx)
  | none =>
      rw [view, hx, Option.none_or]
      cases hleaf : s.trie[a]? with
      | none => rfl
      | some leaf => exact sha3_code_ofLeaf (hs.stored a leaf hleaf)

/-- Codes with the same hash are the same. -/
theorem codeAt_eq (hs : s.Kept) (ht : t.Kept) (h : s.codeHashAt a = t.codeHashAt a) :
    s.codeAt a = t.codeAt a :=
  sha3_injective ((hs.sha3_codeAt a).trans (h.trans (ht.sha3_codeAt a).symm))

/-- **A commit is not visible.** -/
theorem shown_commit (hs : s.Kept) (a : Address) : Shown (s.commit .keepEmptyAccounts) s a := by
  have hcommit := hs.commit .keepEmptyAccounts
  have hnonce := commit_accountStartNonce .keepEmptyAccounts s
  -- the code follows from its hash, and the rest is read off the account
  have hshown : ∀ o, (s.commit .keepEmptyAccounts).view a = o →
      o.elim 0 Account.balance = (s.view a).elim 0 Account.balance →
      o.elim s.accountStartNonce Account.nonce = (s.view a).elim s.accountStartNonce Account.nonce →
      o.elim emptySHA3 Account.codeHash = (s.view a).elim emptySHA3 Account.codeHash →
      (∀ key, o.elim 0 (fun x => x.storageAt key) = (s.view a).elim 0 fun x => x.storageAt key) →
      Shown (s.commit .keepEmptyAccounts) s a := by
    rintro _ rfl hbalance hstart hhash hstorage
    refine ⟨hbalance, ?_, codeAt_eq hcommit hs hhash, hstorage⟩
    rw [nonceAt, hnonce]
    exact hstart
  rw [commit_view, commit_trie] at hshown
  cases hx : s.cache[a]? with
  | none =>
      rw [hx, Option.elim_none, view, hx, Option.none_or] at hshown
      exact hshown _ rfl rfl rfl rfl fun _ => rfl
  | some x =>
      rw [hx, Option.elim_some, written, view, hx, Option.some_or] at hshown
      cases hdirty : x.isDirty with
      | true =>
          cases halive : x.isAlive with
          | true =>
              simp only [hdirty, halive, if_true, reduceCtorEq, false_and, not_false_eq_true,
                and_self, Option.map_some] at hshown
              exact hshown _ rfl rfl rfl rfl (storageAt_ofLeaf x)
          | false =>
              obtain ⟨hstart, hbalance, hhash, hstorage⟩ := (hs.fine a x hx).dead halive
              simp only [hdirty, halive, if_true, Bool.false_eq_true, false_and, if_false,
                Option.map_none] at hshown
              exact hshown _ rfl hbalance.symm hstart.symm hhash.symm fun key =>
                (hstorage key).symm
      | false =>
          obtain ⟨leaf, hleaf, hsame⟩ := hs.clean a x hx hdirty
          simp only [hdirty, Bool.false_eq_true, if_false, hleaf, Option.map_some] at hshown
          exact hshown _ rfl hsame.balance.symm hsame.nonce.symm hsame.codeHash.symm fun key =>
            (hsame.storage key).symm

/-- The account is in the cache, dirty and empty. -/
def DirtyEmpty (s : State H) (a : Address) : Prop :=
  ∃ x, s.cache[a]? = some x ∧ x.isDirty = true ∧ x.isEmpty = true

instance (s : State H) (a : Address) : Decidable (s.DirtyEmpty a) :=
  inferInstanceAs (Decidable (∃ x ∈ s.cache[a]?, _ ∧ _))

/-- A commit that removes empty accounts differs at the dirty ones that are empty. -/
theorem commit_remove (s : State H) (a : Address) :
    (s.DirtyEmpty a → (s.commit .removeEmptyAccounts).trie[a]? = none) ∧
      (¬s.DirtyEmpty a → (s.commit .removeEmptyAccounts).trie[a]? =
        (s.commit .keepEmptyAccounts).trie[a]?) := by
  rw [commit_trie, commit_trie]
  constructor
  · rintro ⟨x, hx, hdirty, hempty⟩
    rw [hx, Option.elim_some, written]
    simp [hdirty, hempty]
  · intro hkept
    cases hx : s.cache[a]? with
    | none => rfl
    | some x =>
        rw [Option.elim_some, Option.elim_some, written, written]
        cases hdirty : x.isDirty with
        | false => simp
        | true =>
            have hempty : ¬x.isEmpty = true := fun hempty => hkept ⟨x, hx, hdirty, hempty⟩
            simp [hempty]

/-! ## Reading after a commit -/

theorem Kept.outcome_code (pick : Pick) (a : Address) (hs : s.Kept) :
    outcome (State.code pick a) s = .ok (s.codeAt a) := by
  rw [State.outcome_code pick a hs.toCoherent, if_pos (hs.sha3_codeAt a)]

/-- The size of new code is read off the account, and else that of the code. -/
theorem Kept.outcome_codeSize (pick : Pick) (a : Address) (hs : s.Kept) :
    outcome (codeSize pick a) s = .ok (s.codeAt a).length := by
  refine outcome_account (g := fun o => .ok (o.elim [] (Account.code s.codes)).length)
    hs.toCoherent rfl fun x hx _ => ?_
  have hload := hs.load pick a
  have hcodes := (covers_load pick a hs.toCoherent).codes
  show outcome (if x.hasNewCode = true then _ else _) (s.load pick a) =
    .ok (x.code s.codes).length
  split
  · next hnew =>
      have hcode : x.code s.codes = x.codeCache := by
        rw [Account.code, ← hload.new a x hx hnew, codeOf_sha3]
      rw [hcode]
      rfl
  · have hcode : (s.load pick a).codeAt a = x.code s.codes := by
      rw [codeAt, view, hx, hcodes]
      rfl
    rw [outcome_bind_pure, hload.outcome_code, hcode]
    rfl

/-- What the member functions read at an address is the same. -/
structure ReadBack (s t : State H) (a : Address) : Prop where
  balance : ∀ pick pick', outcome (balance pick a) s = outcome (balance pick' a) t
  nonce : ∀ pick pick', outcome (getNonce pick a) s = outcome (getNonce pick' a) t
  code : ∀ pick pick', outcome (code pick a) s = outcome (code pick' a) t
  codeSize : ∀ pick pick', outcome (codeSize pick a) s = outcome (codeSize pick' a) t
  storage : ∀ pick pick' key, outcome (storage pick a key) s = outcome (storage pick' a key) t

theorem Shown.readBack (h : Shown s t a) (hs : s.Kept) (ht : t.Kept) : ReadBack s t a where
  balance pick pick' := by
    rw [outcome_balance pick a hs.toCoherent, outcome_balance pick' a ht.toCoherent, h.balance]
  nonce pick pick' := by
    rw [outcome_getNonce pick a hs.toCoherent, outcome_getNonce pick' a ht.toCoherent, h.nonce]
  code pick pick' := by rw [hs.outcome_code, ht.outcome_code, h.code]
  codeSize pick pick' := by rw [hs.outcome_codeSize, ht.outcome_codeSize, h.code]
  storage pick pick' key := by
    rw [outcome_storage pick a key hs.toCoherent, outcome_storage pick' a key ht.toCoherent,
      h.storage]

/-- A state that is opened on what a commit has written. -/
def reopened (s : State H) : State H := opened s.trie s.codes s.accountStartNonce

theorem kept_reopened (hs : s.Kept) : s.reopened.Kept where
  toCoherent := coherent_opened _ _ _
  stored := hs.stored
  fine b y hy := by
    rw [show s.reopened.cache = ∅ from rfl, ExtTreeMap.getElem?_empty] at hy
    cases hy

omit [DecidableEq H] [CodeHash H] in
theorem reopened_view (hs : s.cache[a]? = none) : s.reopened.view a = s.view a := by
  rw [view, view, hs, show s.reopened.cache = ∅ from rfl, ExtTreeMap.getElem?_empty]
  rfl

/-! ## Runs -/

/-- The calls that change accounts or read, without rollbacks. -/
def Mutates : Operation → Prop
  | .rollback _ | .transferBalance _ _ _ _ _ => False
  | _ => True

/-- What the call writes will be written to the trie. -/
def Lasting (s : State H) : Operation → Prop
  | .incNonce _ a | .setNonce _ a _ | .addBalance _ a _ | .subBalance _ a _
  | .setBalance _ a _ => s.NotDead a
  | .setStorage _ a _ _ => ∃ x, s.view a = some x ∧ x.isAlive = true
  | .clearStorage a => s.cache[a]? ≠ none ∨ s.accountStartNonce = 0
  | .setCode _ a _ => ∃ x, s.cache[a]? = some x ∧ x.isDirty = true ∧ x.isAlive = true
  | .kill _ a => ∀ x, s.view a = some x →
      s.accountStartNonce = 0 ∧ (x.hasNewCode = true → x.codeCache = [])
  | _ => True

instance (op : Operation) : Decidable (Mutates op) :=
  match op with
  | .rollback _ | .transferBalance _ _ _ _ _ => .isFalse id
  | .account _ _ | .storage _ _ _ | .code _ _ | .incNonce _ _ | .setNonce _ _ _
  | .addBalance _ _ _ | .subBalance _ _ _ | .setBalance _ _ _ | .createContract _ _
  | .setStorage _ _ _ _ | .setCode _ _ _ | .clearStorage _ | .kill _ _ | .commit _ =>
      .isTrue trivial

instance (s : State H) (op : Operation) : Decidable (s.Lasting op) :=
  match op with
  | .incNonce _ a | .setNonce _ a _ | .addBalance _ a _ | .subBalance _ a _
  | .setBalance _ a _ => inferInstanceAs (Decidable (∀ x ∈ s.view a, x.isAlive = true))
  | .setStorage _ a _ _ => inferInstanceAs (Decidable (∃ x ∈ s.view a, x.isAlive = true))
  | .clearStorage _ => inferInstanceAs (Decidable (_ ∨ _))
  | .setCode _ a _ => inferInstanceAs (Decidable (∃ x ∈ s.cache[a]?, _ ∧ _))
  | .kill _ a => inferInstanceAs (Decidable (∀ x ∈ s.view a, _ ∧ (_ → _)))
  | .account _ _ | .storage _ _ _ | .code _ _ | .transferBalance _ _ _ _ _ | .createContract _ _
  | .rollback _ | .commit _ => .isTrue trivial

/-- The runs from states that are opened on a trie whose codes are in the database. -/
def mutations : System (State H) Operation where
  init s := s = opened s.trie s.codes s.accountStartNonce ∧
    ∀ (a : Address) (leaf : Leaf H), s.trie[a]? = some leaf → Stored s.codes leaf.codeHash
  step s op := some (after (perform op) s)

theorem Kept.perform {op : Operation} (hs : s.Kept) (hmutates : Mutates op)
    (hlasting : s.Lasting op) : (after (perform op) s).Kept := by
  have hdiscard : ∀ {α : Type} {m : Action H α}, (after m s).Kept →
      (after (do let _ ← m; pure ()) s).Kept := by
    intro α m hm
    refine after_bind (m := m) (fun e t ht => ?_) fun v t ht => ?_
    · rwa [after_of_error ht] at hm
    · rwa [after_of_ok ht] at hm
  cases op with
  | account pick a => exact hdiscard (hs.load pick a)
  | storage pick a key => exact hdiscard (hs.storage pick a key)
  | code pick a => exact hdiscard (hs.code pick a)
  | incNonce pick a =>
      refine hs.writeNonce hlasting fun ht h => ?_
      rw [bind_assoc]
      refine ht.requireAccountStartNonce fun nonce => ?_
      rw [pure_bind]
      exact h _
  | setNonce pick a nonce => exact hs.writeNonce hlasting fun _ h => h nonce
  | addBalance pick a amount => exact hs.addBalance pick amount hlasting
  | subBalance pick a value => exact hs.subBalance pick value hlasting
  | setBalance pick a value => exact hs.setBalance pick value hlasting
  | createContract pick a =>
      exact hs.requireAccountStartNonce fun nonce => hs.createAccount pick a nonce 0
  | setStorage pick a key value => exact hs.setStorage pick key value hlasting
  | setCode pick a new =>
      obtain ⟨x, hx, hdirty, halive⟩ := hlasting
      exact hs.setCode pick new hx hdirty halive
  | clearStorage a => exact hs.clearStorage hlasting
  | kill pick a => exact hs.kill pick hlasting
  | commit behaviour => exact hs.commit behaviour
  | rollback n | transferBalance pick pick' source target value => exact hmutates.elim

theorem kept_of_reach (h : mutations.Reach (fun x op => Mutates op ∧ x.Lasting op) s) :
    s.Kept := by
  refine h.invariant (I := Kept) ?_ ?_
  · rintro s ⟨hs, hstored⟩
    rw [hs]
    exact { coherent_opened _ _ _ with
      stored := hstored
      fine := fun b y hy => by
        rw [show (opened s.trie s.codes s.accountStartNonce).cache = ∅ from rfl,
          ExtTreeMap.getElem?_empty] at hy
        cases hy }
  · rintro s op t - hs ⟨hmutates, hlasting⟩ hstep
    cases hstep
    exact hs.perform hmutates hlasting

/-- **A commit keeps what can be read**, in every state that calls with a lasting effect
lead to: at the same state, and through a state that is opened on the new trie.  One that
removes empty accounts differs at the dirty accounts that are empty, which are gone. -/
theorem commit_keeps (h : mutations.Reach (fun x op => Mutates op ∧ x.Lasting op) s) :
    (∀ a, ReadBack (s.commit .keepEmptyAccounts) s a) ∧
      (∀ a, ReadBack (s.commit .keepEmptyAccounts).reopened s a) ∧
      (∀ a, s.DirtyEmpty a → (s.commit .removeEmptyAccounts).trie[a]? = none) ∧
      ∀ a, ¬s.DirtyEmpty a →
        (s.commit .removeEmptyAccounts).trie[a]? = (s.commit .keepEmptyAccounts).trie[a]? ∧
          ReadBack (s.commit .removeEmptyAccounts) (s.commit .keepEmptyAccounts) a := by
  have hs := kept_of_reach h
  have hkeep := hs.commit .keepEmptyAccounts
  have hremove := hs.commit .removeEmptyAccounts
  refine ⟨fun a => (shown_commit hs a).readBack hkeep hs, fun a => ?_,
    fun a => (commit_remove s a).1, fun a hkept => ?_⟩
  · have hview := reopened_view (commit_cache .keepEmptyAccounts s a)
    have hshown := shown_commit hs a
    have hsame : Shown (s.commit .keepEmptyAccounts).reopened s a := by
      refine ⟨?_, ?_, ?_, fun key => ?_⟩
      · rw [← hshown.balance, balanceAt, hview, balanceAt]
      · rw [← hshown.nonce, nonceAt, hview, nonceAt]
        rfl
      · rw [← hshown.code, codeAt, hview, codeAt]
        rfl
      · rw [← hshown.storage, storageAt, hview, storageAt]
    exact hsame.readBack (kept_reopened hkeep) hs
  · have htrie := (commit_remove s a).2 hkept
    refine ⟨htrie, Shown.readBack ?_ hremove hkeep⟩
    have hview : (s.commit .removeEmptyAccounts).view a = (s.commit .keepEmptyAccounts).view a := by
      rw [commit_view, commit_view, htrie]
    refine ⟨?_, ?_, codeAt_eq hremove hkeep ?_, fun key => ?_⟩
    · rw [balanceAt, hview, balanceAt]
    · rw [nonceAt, hview, nonceAt, commit_accountStartNonce, commit_accountStartNonce]
    · rw [codeHashAt, hview, codeHashAt]
    · rw [storageAt, hview, storageAt]

/-- The codes of the sample are in its database. -/
theorem sample_init : mutations.init sample :=
  ⟨rfl, fun _ _ _ => .inr rfl⟩

/-- Calls of all kinds: a contract is created and filled, one account is killed and another
one emptied. -/
def sampleCalls : List Operation :=
  let pick : Pick := fun _ => 0
  [.incNonce pick 1, .setCode pick 1 [1, 2], .setStorage pick 1 7 0, .createContract pick 3,
    .setCode pick 3 [5], .addBalance pick 3 9, .commit .keepEmptyAccounts, .subBalance pick 3 9,
    .setNonce pick 2 4, .kill pick 2, .clearStorage 4, .addBalance pick 5 0]

/-- The theorem after these calls, where the account 5 is dirty and empty. -/
theorem commit_keeps_sample :
    ∃ s : State Bytes, mutations.Reach (fun x op => Mutates op ∧ x.Lasting op) s ∧
      s.DirtyEmpty 5 ∧ s.codeAt 3 = [5] ∧
      (∀ a, ReadBack (s.commit .keepEmptyAccounts) s a) ∧
      (∀ a, ReadBack (s.commit .keepEmptyAccounts).reopened s a) ∧
      (∀ a, s.DirtyEmpty a → (s.commit .removeEmptyAccounts).trie[a]? = none) ∧
      ∀ a, ¬s.DirtyEmpty a →
        (s.commit .removeEmptyAccounts).trie[a]? = (s.commit .keepEmptyAccounts).trie[a]? ∧
          ReadBack (s.commit .removeEmptyAccounts) (s.commit .keepEmptyAccounts) a := by
  have hrun : ∃ s : State Bytes, mutations.Reach (fun x op => Mutates op ∧ x.Lasting op) s ∧
      decide (s.DirtyEmpty 5 ∧ s.codeAt 3 = [5]) = true :=
    System.Reach.exists_of_check sampleCalls (.init sample_init) (by decide +kernel)
      (by decide +kernel)
  obtain ⟨s, hs, hshape⟩ := hrun
  obtain ⟨hempty, hcode⟩ := of_decide_eq_true hshape
  exact ⟨s, hs, hempty, hcode, commit_keeps hs⟩

/-- Code that is set on an account that was only read is lost in a commit. -/
theorem setCode_lost :
    ∃ s : State Bytes, mutations.Reach (fun _ op => Mutates op) s ∧
      ¬ReadBack (s.commit .keepEmptyAccounts) s 1 := by
  have hrun : ∃ s : State Bytes, mutations.Reach (fun _ op => Mutates op) s ∧
      decide (outcome (code (fun _ => 0) 1) s = .ok [1, 2] ∧
        outcome (code (fun _ => 0) 1) (s.commit .keepEmptyAccounts) = .ok [0]) = true :=
    System.Reach.exists_of_check [.setCode (fun _ => 0) 1 [1, 2]] (.init sample_init)
      (by decide +kernel) (by decide +kernel)
  obtain ⟨s, hs, hcodes⟩ := hrun
  refine ⟨s, hs, fun h => ?_⟩
  obtain ⟨hbefore, hafter⟩ := of_decide_eq_true hcodes
  have hsame := h.code (fun _ => 0) (fun _ => 0)
  rw [hbefore, hafter] at hsame
  simp at hsame

end State

end CppSwc
