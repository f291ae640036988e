import CppSwc.Lib.Journal
import CppSwc.Lib.Tree
import CppSwc.State.State

/-!
# What a state shows

The cache is not visible from outside: an account that is not in it shows what the trie
holds.  `Same` says that two accounts answer every question alike, and `Covers s t` that
`s` shows the same accounts as `t` and that `commit` removes the same ones as empty.
A state that covers another one may have more dirty accounts, but none of them empty.

A state is `Coherent` if its clean accounts show what the trie holds.  That is what makes
it safe to drop them, so that loading an account covers the state before (`covers_load`).
-/

namespace CppSwc

open Std Lib CodeHash

variable {H : Type} [DecidableEq H] [CodeHash H]

namespace Account

/-- The two accounts answer alike. -/
structure Same (lookup : H → Bytes) (x y : Account H) : Prop where
  alive : x.isAlive = y.isAlive
  nonce : x.nonce = y.nonce
  balance : x.balance = y.balance
  codeHash : x.codeHash = y.codeHash
  code : x.code lookup = y.code lookup
  storage : ∀ key, x.storageAt key = y.storageAt key

/-- The code that is kept is the one with the hash. -/
def CodeNoted (x : Account H) : Prop :=
  x.codeHash = emptySHA3 ∨ x.codeCache = [] ∨ sha3 x.codeCache = x.codeHash

variable {lookup : H → Bytes} {x y z : Account H}

omit [DecidableEq H] [CodeHash H] in
theorem storageAt_setStorage (x : Account H) (key value k : U256) :
    (x.setStorage key value).storageAt k = if key = k then value else x.storageAt k := by
  simp only [storageAt, setStorage, getElem?_insert_eq]
  by_cases hk : key = k
  · simp [hk]
  · simp [hk]

omit [DecidableEq H] [CodeHash H] in
theorem storageAt_setStorageCache (x : Account H) (key value k : U256) :
    (x.setStorageCache key value).storageAt k = if key = k then value else x.storageAt k :=
  storageAt_setStorage x key value k

namespace Same

theorem refl (lookup : H → Bytes) (x : Account H) : Same lookup x x :=
  ⟨rfl, rfl, rfl, rfl, rfl, fun _ => rfl⟩

theorem symm (h : Same lookup x y) : Same lookup y x :=
  ⟨h.alive.symm, h.nonce.symm, h.balance.symm, h.codeHash.symm, h.code.symm,
    fun key => (h.storage key).symm⟩

theorem trans (h : Same lookup x y) (h' : Same lookup y z) : Same lookup x z :=
  ⟨h.alive.trans h'.alive, h.nonce.trans h'.nonce, h.balance.trans h'.balance,
    h.codeHash.trans h'.codeHash, h.code.trans h'.code,
    fun key => (h.storage key).trans (h'.storage key)⟩

theorem isEmpty_eq (h : Same lookup x y) : x.isEmpty = y.isEmpty := by
  simp only [isEmpty, h.nonce, h.balance, h.codeHash]

theorem addBalance (h : Same lookup x y) (value : U256) :
    Same lookup (x.addBalance value) (y.addBalance value) :=
  { h with balance := congrArg (· + value) h.balance }

theorem setNonce (h : Same lookup x y) (nonce : U256) :
    Same lookup (x.setNonce nonce) (y.setNonce nonce) :=
  { h with nonce := rfl }

theorem setStorage (h : Same lookup x y) (key value : U256) :
    Same lookup (x.setStorage key value) (y.setStorage key value) := by
  refine { h with storage := fun k => ?_ }
  rw [storageAt_setStorage, storageAt_setStorage, h.storage k]

theorem setStorageRoot (h : Same lookup x y) (root : StorageTrie) :
    Same lookup (x.setStorageRoot root) (y.setStorageRoot root) :=
  { h with storage := fun _ => rfl }

theorem setCode (h : Same lookup x y) (code : Bytes) :
    Same lookup (x.setCode code) (y.setCode code) :=
  { h with codeHash := rfl, code := rfl }

theorem untouch (h : Same lookup x y) : Same lookup x.untouch y.untouch := { h with }

end Same

/-- A slot that is noted in the overlay. -/
theorem same_setStorageCache (x : Account H) (key : U256) :
    Same lookup (x.setStorageCache key (x.storageAt key)) x := by
  refine { Same.refl lookup x with storage := fun k => ?_ }
  rw [storageAt_setStorageCache]
  split
  · next heq => rw [heq]
  · rfl

/-- Undoing a storage write. -/
theorem same_setStorage (x : Account H) (key value : U256) :
    Same lookup ((x.setStorage key value).setStorage key (x.storageAt key)) x := by
  refine { Same.refl lookup x with storage := fun k => ?_ }
  rw [storageAt_setStorage, storageAt_setStorage]
  split
  · next heq => rw [heq]
  · rfl

/-- Undoing a change of the balance. -/
theorem same_addBalance (x : Account H) (value : U256) :
    Same lookup ((x.addBalance value).addBalance (0 - value)) x := by
  refine { Same.refl lookup x with balance := ?_ }
  show x.balance + value + (0#256 - value) = x.balance
  rw [BitVec.zero_sub, BitVec.add_assoc, BitVec.add_right_neg, BitVec.add_zero]

/-- Undoing a change of the nonce. -/
theorem same_setNonce (x : Account H) (nonce : U256) :
    Same lookup ((x.setNonce nonce).setNonce x.nonce) x :=
  { Same.refl lookup x with }

/-- Code that is read from the database. -/
theorem same_noteCode (hcache : x.codeCache = []) :
    Same lookup (x.noteCode (lookup x.codeHash)) x := by
  refine { Same.refl lookup x with code := ?_ }
  show codeOf lookup x.codeHash (lookup x.codeHash) = codeOf lookup x.codeHash x.codeCache
  rw [hcache, codeOf, codeOf, if_pos rfl]
  by_cases hnil : lookup x.codeHash = []
  · rw [if_pos hnil]
  · rw [if_neg hnil]

/-- The code of an account has the hash of the account, unless it is missing in the
database. -/
theorem sha3_code (h : x.CodeNoted) (hlookup : x.codeCache = [] → x.codeHash ≠ emptySHA3 →
    sha3 (lookup x.codeHash) = x.codeHash) : sha3 (x.code lookup) = x.codeHash := by
  unfold code codeOf
  split
  · next hhash => exact hhash.symm
  · next hhash =>
      split
      · next hcache => exact hlookup hcache hhash
      · next hcache => exact (h.resolve_left hhash).resolve_left hcache

/-- The code with the hash of a kept code. -/
theorem codeOf_sha3 (code : Bytes) : codeOf lookup (sha3 code) code = code := by
  unfold codeOf
  by_cases hempty : sha3 code = (emptySHA3 : H)
  · rw [if_pos hempty]
    exact (sha3_injective hempty).symm
  · have hnil : code ≠ [] := fun h => hempty (by rw [h, emptySHA3])
    rw [if_neg hempty, if_neg hnil]

/-- Undoing a change of the code. -/
theorem same_setCode {code : Bytes} (hhash : sha3 (x.code lookup) = x.codeHash) :
    Same lookup ((x.setCode code).setCode (x.code lookup)) x :=
  { Same.refl lookup x with codeHash := hhash, code := codeOf_sha3 _ }

omit [DecidableEq H] in
theorem codeNoted_setCode (x : Account H) (code : Bytes) : (x.setCode code).CodeNoted :=
  .inr (.inr rfl)

end Account

namespace State

open Account

/-- The account that is shown at an address. -/
def view (s : State H) (a : Address) : Option (Account H) :=
  s.cache[a]?.or (s.trie[a]?.map .ofLeaf)

/-- There is no account alive at the addresses that are noted as unused, and kept codes
have their hash. -/
structure Tidy (s : State H) : Prop where
  absent : ∀ a ∈ s.nonExistingAccountsCache, s.trie[a]? = none ∧
    ∀ x : Account H, s.cache[a]? = some x → x.isAlive = false
  noted : ∀ (a : Address) (x : Account H), s.cache[a]? = some x → x.CodeNoted

omit [DecidableEq H] in
theorem Tidy.unused {s : State H} (h : s.Tidy) (a : Address)
    (ha : a ∈ s.nonExistingAccountsCache) : s.trie[a]? = none := (h.absent a ha).1

/-- The clean accounts of the cache show what the trie holds. -/
structure Coherent (s : State H) : Prop extends Tidy s where
  clean : ∀ (a : Address) (x : Account H), s.cache[a]? = some x → x.isDirty = false →
    ∃ leaf, s.trie[a]? = some leaf ∧ Same s.codes x (.ofLeaf leaf)

/-- `s` shows what `t` shows, and no other account is both dirty and empty. -/
structure Covers (s t : State H) : Prop extends Tidy s where
  trie : s.trie = t.trie
  codes : s.codes = t.codes
  accountStartNonce : s.accountStartNonce = t.accountStartNonce
  changeLog : s.changeLog = t.changeLog
  view : ∀ a, Option.Rel (Same t.codes) (s.view a) (t.view a)
  dirty : ∀ (a : Address) (y : Account H), t.cache[a]? = some y → y.isDirty = true →
    ∃ x : Account H, s.cache[a]? = some x ∧ x.isDirty = true
  fresh : ∀ (a : Address) (x : Account H), s.cache[a]? = some x → x.isDirty = true → x.isEmpty = true →
    ∃ y : Account H, t.cache[a]? = some y ∧ y.isDirty = true

variable {s t r : State H} {a : Address} {x y : Account H}

theorem relRefl (lookup : H → Bytes) (o : Option (Account H)) : Option.Rel (Same lookup) o o := by
  cases o with
  | none => exact .none
  | some x => exact .some (Same.refl lookup x)

theorem relTrans {lookup : H → Bytes} {o o' o'' : Option (Account H)}
    (h : Option.Rel (Same lookup) o o') (h' : Option.Rel (Same lookup) o' o'') :
    Option.Rel (Same lookup) o o'' := by
  cases h with
  | none => exact h'
  | some h =>
      cases h' with
      | some h' => exact .some (h.trans h')

namespace Covers

theorem refl (h : s.Tidy) : Covers s s :=
  { h with
    trie := rfl
    codes := rfl
    accountStartNonce := rfl
    changeLog := rfl
    view := fun _ => relRefl _ _
    dirty := fun _ y hy hdirty => ⟨y, hy, hdirty⟩
    fresh := fun _ x hx hdirty _ => ⟨x, hx, hdirty⟩ }

theorem trans (h : Covers s t) (h' : Covers t r) : Covers s r where
  toTidy := h.toTidy
  trie := h.trie.trans h'.trie
  codes := h.codes.trans h'.codes
  accountStartNonce := h.accountStartNonce.trans h'.accountStartNonce
  changeLog := h.changeLog.trans h'.changeLog
  view a := relTrans (h'.codes ▸ h.view a) (h'.view a)
  dirty a z hz hdirty := by
    obtain ⟨y, hy, hdirty⟩ := h'.dirty a z hz hdirty
    exact h.dirty a y hy hdirty
  fresh a x hx hdirty hempty := by
    obtain ⟨y, hy, hdirty'⟩ := h.fresh a x hx hdirty hempty
    have hsame := h.view a
    simp only [State.view, hx, hy, Option.some_or] at hsame
    cases hsame with
    | some hsame => exact h'.fresh a y hy hdirty' (hsame.isEmpty_eq ▸ hempty)

/-- A dirty account of the lower state is one of the upper state, and the same. -/
theorem entry (h : Covers s t) (hy : t.cache[a]? = some y) (hdirty : y.isDirty = true) :
    ∃ x, s.cache[a]? = some x ∧ x.isDirty = true ∧ Same t.codes x y := by
  obtain ⟨x, hx, hdirty'⟩ := h.dirty a y hy hdirty
  have hsame := h.view a
  simp only [State.view, hx, hy, Option.some_or] at hsame
  cases hsame with
  | some hsame => exact ⟨x, hx, hdirty', hsame⟩

/-- What covers a coherent state is coherent. -/
theorem coherent (h : Covers s t) (ht : t.Coherent) : s.Coherent where
  toTidy := h.toTidy
  clean a x hx hclean := by
    have hview := h.view a
    cases hy : t.cache[a]? with
    | some y =>
        cases hdirty : y.isDirty with
        | true =>
            obtain ⟨x', hx', hdirty', -⟩ := h.entry hy hdirty
            rw [hx] at hx'
            cases hx'
            rw [hclean] at hdirty'
            cases hdirty'
        | false =>
            obtain ⟨leaf, hleaf, hsame⟩ := ht.clean a y hy hdirty
            simp only [State.view, hx, hy, Option.some_or] at hview
            cases hview with
            | some hview =>
                rw [h.trie, h.codes]
                exact ⟨leaf, hleaf, hview.trans hsame⟩
    | none =>
        cases hleaf : t.trie[a]? with
        | none =>
            simp only [State.view, hx, hy, hleaf, Option.some_or, Option.none_or,
              Option.map_none] at hview
            cases hview
        | some leaf =>
            simp only [State.view, hx, hy, hleaf, Option.some_or, Option.none_or,
              Option.map_some] at hview
            cases hview with
            | some hview =>
                rw [h.trie, h.codes]
                exact ⟨leaf, hleaf, hview⟩

end Covers

/-! ## Assignments to the cache -/

omit [DecidableEq H] [CodeHash H] in
theorem put_cache (a b : Address) (x : Account H) (s : State H) :
    (s.put a x).cache[b]? = if a = b then some x else s.cache[b]? := by
  rw [put, getElem?_insert_eq]

omit [DecidableEq H] [CodeHash H] in
theorem put_view (a b : Address) (x : Account H) (s : State H) :
    (s.put a x).view b = if a = b then some x else s.view b := by
  rw [view, put_cache]
  by_cases hab : a = b
  · simp [hab]
  · simp only [hab, if_false]
    rfl

omit [DecidableEq H] in
theorem Tidy.put (h : s.Tidy) (hx : x.CodeNoted)
    (halive : a ∈ s.nonExistingAccountsCache → x.isAlive = false) : (s.put a x).Tidy where
  absent b hb := by
    refine ⟨(h.absent b hb).1, fun y hy => ?_⟩
    rw [put_cache] at hy
    by_cases hab : a = b
    · rw [if_pos hab] at hy
      cases hy
      exact halive (hab ▸ hb)
    · rw [if_neg hab] at hy
      exact (h.absent b hb).2 y hy
  noted b y hy := by
    rw [put_cache] at hy
    by_cases hab : a = b
    · rw [if_pos hab] at hy
      cases hy
      exact hx
    · rw [if_neg hab] at hy
      exact h.noted b y hy

/-- An assignment of a dirty account leaves the clean ones alone. -/
theorem Coherent.put (h : s.Coherent) (hx : x.CodeNoted)
    (halive : a ∈ s.nonExistingAccountsCache → x.isAlive = false) (hdirty : x.isDirty = true) :
    (s.put a x).Coherent where
  toTidy := h.toTidy.put hx halive
  clean b y hy hclean := by
    rw [put_cache] at hy
    by_cases hab : a = b
    · rw [if_pos hab] at hy
      cases hy
      rw [hdirty] at hclean
      cases hclean
    · rw [if_neg hab] at hy
      exact h.clean b y hy hclean

/-- An account of the cache is replaced by one that answers alike and is not less dirty. -/
theorem covers_put (hs : s.Tidy) (hx : s.cache[a]? = some x) (hy : y.CodeNoted)
    (hsame : Same s.codes y x) (hdirty : x.isDirty = true → y.isDirty = true)
    (hfresh : y.isDirty = true → y.isEmpty = true → x.isDirty = true) :
    Covers (s.put a y) s where
  toTidy := hs.put hy fun ha => hsame.alive.trans ((hs.absent a ha).2 x hx)
  trie := rfl
  codes := rfl
  accountStartNonce := rfl
  changeLog := rfl
  view b := by
    rw [put_view]
    by_cases hab : a = b
    · rw [if_pos hab, ← hab, view, hx]
      exact .some hsame
    · rw [if_neg hab]
      exact relRefl _ _
  dirty b z hz hdirty' := by
    rw [put_cache]
    by_cases hab : a = b
    · rw [← hab, hx] at hz
      cases hz
      exact ⟨y, if_pos hab, hdirty hdirty'⟩
    · rw [if_neg hab]
      exact ⟨z, hz, hdirty'⟩
  fresh b z hz hdirty' hempty := by
    rw [put_cache] at hz
    by_cases hab : a = b
    · rw [if_pos hab] at hz
      cases hz
      exact ⟨x, hab ▸ hx, hfresh hdirty' hempty⟩
    · rw [if_neg hab] at hz
      exact ⟨z, hz, hdirty'⟩

/-- Assignments of like and dirty accounts to two states. -/
theorem Covers.put (h : Covers s t) (hx : x.CodeNoted)
    (halive : a ∈ s.nonExistingAccountsCache → x.isAlive = false) (hsame : Same t.codes x y)
    (hdirty : x.isDirty = y.isDirty) : Covers (s.put a x) (t.put a y) where
  toTidy := h.toTidy.put hx halive
  trie := h.trie
  codes := h.codes
  accountStartNonce := h.accountStartNonce
  changeLog := h.changeLog
  view b := by
    rw [put_view, put_view]
    by_cases hab : a = b
    · rw [if_pos hab, if_pos hab]
      exact .some hsame
    · rw [if_neg hab, if_neg hab]
      exact h.view b
  dirty b z hz hdirty' := by
    rw [put_cache] at hz ⊢
    by_cases hab : a = b
    · rw [if_pos hab] at hz ⊢
      cases hz
      exact ⟨x, rfl, hdirty.trans hdirty'⟩
    · rw [if_neg hab] at hz ⊢
      exact h.dirty b z hz hdirty'
  fresh b z hz hdirty' hempty := by
    rw [put_cache] at hz ⊢
    by_cases hab : a = b
    · rw [if_pos hab] at hz ⊢
      cases hz
      exact ⟨y, rfl, hdirty.symm.trans hdirty'⟩
    · rw [if_neg hab] at hz ⊢
      exact h.fresh b z hz hdirty' hempty

/-! ## Loading -/

omit [DecidableEq H] [CodeHash H] in
theorem erase_view (a b : Address) (s : State H) :
    ({ s with cache := s.cache.erase a } : State H).view b =
      if a = b then s.trie[b]?.map .ofLeaf else s.view b := by
  rw [view]
  simp only [getElem?_erase_eq]
  by_cases hab : a = b
  · simp [hab]
  · simp only [hab, if_false]
    rfl

omit [DecidableEq H] in
theorem Tidy.erase (h : s.Tidy) (a : Address) :
    Tidy { s with cache := s.cache.erase a } where
  absent b hb := by
    refine ⟨(h.absent b hb).1, fun y hy => ?_⟩
    rw [getElem?_erase_eq] at hy
    split at hy
    · cases hy
    · exact (h.absent b hb).2 y hy
  noted b y hy := by
    rw [getElem?_erase_eq] at hy
    split at hy
    · cases hy
    · exact h.noted b y hy

/-- A clean account is dropped. -/
theorem covers_erase (hs : s.Coherent) (hx : s.cache[a]? = some x) (hclean : x.isDirty = false) :
    Covers { s with cache := s.cache.erase a } s where
  toTidy := hs.toTidy.erase a
  trie := rfl
  codes := rfl
  accountStartNonce := rfl
  changeLog := rfl
  view b := by
    rw [erase_view]
    by_cases hab : a = b
    · obtain ⟨leaf, hleaf, hsame⟩ := hs.clean a x hx hclean
      rw [if_pos hab, ← hab, hleaf, view, hx]
      exact .some hsame.symm
    · rw [if_neg hab]
      exact relRefl _ _
  dirty b y hy hdirty := by
    rw [getElem?_erase_eq]
    by_cases hab : a = b
    · rw [← hab, hx] at hy
      cases hy
      rw [hclean] at hdirty
      cases hdirty
    · exact ⟨y, by rw [if_neg hab, hy], hdirty⟩
  fresh b y hy hdirty _ := by
    rw [getElem?_erase_eq] at hy
    split at hy
    · cases hy
    · exact ⟨y, hy, hdirty⟩

/-- The candidates for removal are not visible. -/
theorem Covers.withEntries (h : Covers s t) (entries : List Address) :
    Covers { s with unchangedCacheEntries := entries } t :=
  { h with view := h.view }

theorem covers_evict (hs : s.Coherent) (i : Nat) : Covers (s.evict i) s := by
  have hcache : Covers { s with cache := (s.evict i).cache } s := by
    unfold evict
    dsimp only
    split
    · next x hx =>
        split
        · exact Covers.refl hs.toTidy
        · next hclean => exact covers_erase hs hx (Bool.eq_false_iff.mpr hclean)
    · exact Covers.refl hs.toTidy
  exact hcache.withEntries _

omit [DecidableEq H] [CodeHash H] in
/-- What is not in the cache does not get into it. -/
theorem clearCacheIfTooLarge_none (pick : Pick) (n : Nat) (hnone : s.cache[a]? = none) :
    (clearCacheIfTooLarge pick n s).cache[a]? = none := by
  induction n generalizing s with
  | zero => exact hnone
  | succ n ih =>
      rw [clearCacheIfTooLarge]
      split
      · refine ih ?_
        unfold evict
        dsimp only
        split
        · split
          · exact hnone
          · rw [getElem?_erase_eq, hnone, ite_self]
        · exact hnone
      · exact hnone

theorem covers_clearCacheIfTooLarge (pick : Pick) (hs : s.Coherent) (n : Nat) :
    Covers (clearCacheIfTooLarge pick n s) s := by
  induction n generalizing s with
  | zero => exact Covers.refl hs.toTidy
  | succ n ih =>
      rw [clearCacheIfTooLarge]
      split
      · have hevict := covers_evict hs
          (pick s.unchangedCacheEntries % s.unchangedCacheEntries.length)
        exact (ih (hevict.coherent hs)).trans hevict
      · exact Covers.refl hs.toTidy

/-- An account that is in the trie and not in the cache is loaded. -/
theorem covers_putLeaf {leaf : Leaf H} (hs : s.Tidy) (hnone : s.cache[a]? = none)
    (hleaf : s.trie[a]? = some leaf) : Covers (s.put a (.ofLeaf leaf)) s where
  toTidy := by
    refine hs.put (.inr (.inl rfl)) fun ha => ?_
    rw [(hs.absent a ha).1] at hleaf
    cases hleaf
  trie := rfl
  codes := rfl
  accountStartNonce := rfl
  changeLog := rfl
  view b := by
    rw [put_view]
    by_cases hab : a = b
    · rw [if_pos hab, ← hab, view, hnone, hleaf]
      exact .some (Same.refl _ _)
    · rw [if_neg hab]
      exact relRefl _ _
  dirty b y hy hdirty := by
    rw [put_cache]
    by_cases hab : a = b
    · rw [← hab, hnone] at hy
      cases hy
    · exact ⟨y, by rw [if_neg hab, hy], hdirty⟩
  fresh b y hy hdirty _ := by
    rw [put_cache] at hy
    split at hy
    · cases hy
      cases hdirty
    · exact ⟨y, hy, hdirty⟩

/-- Loading an account is not visible. -/
theorem covers_load (pick : Pick) (a : Address) (hs : s.Coherent) :
    Covers (s.load pick a) s := by
  unfold load
  split
  · exact Covers.refl hs.toTidy
  · next hnew =>
      rw [not_or, ← ExtTreeMap.mem_iff_contains, ExtTreeMap.mem_iff_isSome_getElem?] at hnew
      split
      · next hnone =>
          refine { Covers.refl hs.toTidy with absent := ?_ }
          intro b hb
          rcases mem_insert_iff.mp hb with rfl | hb
          · refine ⟨hnone, fun x hx => ?_⟩
            rw [hx] at hnew
            exact absurd rfl hnew.1
          · exact hs.absent b hb
      · next leaf hleaf =>
          have hclear := covers_clearCacheIfTooLarge pick hs s.unchangedCacheEntries.length
          have hnone := clearCacheIfTooLarge_none pick s.unchangedCacheEntries.length
            (Option.not_isSome_iff_eq_none.mp hnew.1)
          exact ((covers_putLeaf hclear.toTidy hnone (hclear.trie ▸ hleaf)).withEntries _).trans
            hclear

omit [DecidableEq H] [CodeHash H] in
/-- What is found is what was shown. -/
theorem load_found (pick : Pick) (a : Address)
    (habsent : a ∈ s.nonExistingAccountsCache → s.trie[a]? = none) :
    (s.load pick a).cache[a]? = s.view a := by
  unfold load
  split
  · next hknown =>
      rcases hknown with hcached | hnoted
      · rw [← ExtTreeMap.mem_iff_contains, ExtTreeMap.mem_iff_isSome_getElem?] at hcached
        obtain ⟨x, hx⟩ := Option.isSome_iff_exists.mp hcached
        rw [view, hx, Option.some_or]
      · rw [view, habsent (ExtTreeSet.contains_iff_mem.mp hnoted), Option.map_none,
          Option.or_none]
  · next hnew =>
      rw [not_or, ← ExtTreeMap.mem_iff_contains, ExtTreeMap.mem_iff_isSome_getElem?] at hnew
      have hnone := Option.not_isSome_iff_eq_none.mp hnew.1
      split
      · next hleaf => rw [view, hleaf, Option.map_none, Option.or_none]
      · next leaf hleaf =>
          rw [view, hnone, hleaf]
          exact (put_cache a a _ _).trans (if_pos rfl)

omit [DecidableEq H] [CodeHash H] in
/-- An account in the cache is not loaded. -/
theorem load_of_cache (pick : Pick) (hx : s.cache[a]? = some x) : s.load pick a = s := by
  rw [load, if_pos]
  rw [← ExtTreeMap.mem_iff_contains, ExtTreeMap.mem_iff_isSome_getElem?, hx]
  exact .inl rfl

/-! ## What is read -/

/-- What an action that starts with `account` gives, as a function of the account that is
shown. -/
theorem outcome_account {β : Type} {pick : Pick} {f : Option (Account H) → Action H β}
    {g : Option (Account H) → Except StateException β} (hs : s.Coherent)
    (hnone : outcome (f none) (s.load pick a) = g none)
    (hsome : ∀ x, (s.load pick a).cache[a]? = some x → x.CodeNoted →
      outcome (f (some x)) (s.load pick a) = g (some x)) :
    outcome (account pick a >>= f) s = g (s.view a) := by
  have hnoted := (covers_load pick a hs).noted a
  have hfound := load_found pick a (hs.toTidy.unused a)
  show outcome (f (s.load pick a).cache[a]?) (s.load pick a) = g (s.view a)
  rw [← hfound]
  cases hx : (s.load pick a).cache[a]? with
  | none => exact hnone
  | some x => exact hsome x hx (hnoted x hx)

/-- What `readCode` gives. -/
theorem outcome_readCode (hx : x.CodeNoted) :
    outcome (readCode a x) s =
      if sha3 (x.code s.codes) = x.codeHash then .ok (x.code s.codes) else .error .assertion := by
  rw [outcome, readCode, get_bind, Account.code, codeOf]
  by_cases hhash : x.codeHash = emptySHA3
  · have hempty : sha3 ([] : Bytes) = (emptySHA3 : H) := rfl
    simp only [hhash, if_true, hempty]
    rfl
  · simp only [hhash, if_false]
    by_cases hcache : x.codeCache = []
    · simp only [hcache, if_true]
      by_cases hsha3 : sha3 (s.codes x.codeHash) = x.codeHash
      · rw [if_pos hsha3, throwIf, if_neg (not_not.mpr hsha3)]
        rfl
      · rw [if_neg hsha3, throwIf, if_pos hsha3]
        rfl
    · simp only [hcache, if_false]
      rw [if_pos ((hx.resolve_left hhash).resolve_left hcache)]
      rfl

/-- The balance at an address. -/
def balanceAt (s : State H) (a : Address) : U256 := (s.view a).elim 0 Account.balance

/-- The nonce at an address. -/
def nonceAt (s : State H) (a : Address) : U256 := (s.view a).elim s.accountStartNonce Account.nonce

/-- The hash of the code at an address. -/
def codeHashAt (s : State H) (a : Address) : H := (s.view a).elim emptySHA3 Account.codeHash

/-- The code at an address. -/
def codeAt (s : State H) (a : Address) : Bytes := (s.view a).elim [] (Account.code s.codes)

/-- A slot of the storage at an address. -/
def storageAt (s : State H) (a : Address) (key : U256) : U256 :=
  (s.view a).elim 0 fun x => x.storageAt key

theorem outcome_addressInUse (pick : Pick) (a : Address) (hs : s.Coherent) :
    outcome (addressInUse pick a) s = .ok (s.view a).isSome :=
  outcome_account (g := fun o => .ok o.isSome) hs rfl fun _ _ _ => rfl

theorem outcome_balance (pick : Pick) (a : Address) (hs : s.Coherent) :
    outcome (balance pick a) s = .ok (s.balanceAt a) :=
  outcome_account (g := fun o => .ok (o.elim 0 Account.balance)) hs rfl
    fun _ _ _ => rfl

theorem outcome_getNonce (pick : Pick) (a : Address) (hs : s.Coherent) :
    outcome (getNonce pick a) s = .ok (s.nonceAt a) := by
  refine outcome_account (g := fun o => .ok (o.elim s.accountStartNonce Account.nonce)) hs ?_
    fun _ _ _ => rfl
  exact congrArg Except.ok (covers_load pick a hs).accountStartNonce

/-- Code that does not have its hash fails the check. -/
theorem outcome_code (pick : Pick) (a : Address) (hs : s.Coherent) :
    outcome (code pick a) s =
      if sha3 (s.codeAt a) = s.codeHashAt a then .ok (s.codeAt a) else .error .assertion := by
  refine outcome_account (g := fun o =>
    if sha3 (o.elim [] (Account.code s.codes)) = o.elim emptySHA3 Account.codeHash then
      .ok (o.elim [] (Account.code s.codes)) else .error .assertion) hs ?_ fun x _ hx => ?_
  · exact (if_pos rfl).symm
  · show outcome (readCode a x) _ = _
    rw [outcome_readCode hx, (covers_load pick a hs).codes]
    rfl

theorem outcome_storage (pick : Pick) (a : Address) (key : U256) (hs : s.Coherent) :
    outcome (storage pick a key) s = .ok (s.storageAt a key) :=
  outcome_account (g := fun o => .ok (o.elim 0 fun x => x.storageAt key)) hs rfl
    fun _ _ _ => rfl

/-- The two states answer every question alike. -/
structure ReadAlike (s t : State H) : Prop where
  addressInUse : ∀ pick pick' a, outcome (addressInUse pick a) s = outcome (addressInUse pick' a) t
  balance : ∀ pick pick' a, outcome (balance pick a) s = outcome (balance pick' a) t
  nonce : ∀ pick pick' a, outcome (getNonce pick a) s = outcome (getNonce pick' a) t
  code : ∀ pick pick' a, outcome (code pick a) s = outcome (code pick' a) t
  storage : ∀ pick pick' a key, outcome (storage pick a key) s = outcome (storage pick' a key) t

/-- What is shown at an address, as far as it can be read. -/
theorem shown_eq (hcodes : s.codes = t.codes) (hnonce : s.accountStartNonce = t.accountStartNonce)
    (hview : Option.Rel (Same t.codes) (s.view a) (t.view a)) :
    (s.view a).isSome = (t.view a).isSome ∧ s.balanceAt a = t.balanceAt a ∧
      s.nonceAt a = t.nonceAt a ∧ s.codeHashAt a = t.codeHashAt a ∧ s.codeAt a = t.codeAt a ∧
      ∀ key, s.storageAt a key = t.storageAt a key := by
  simp only [balanceAt, nonceAt, codeHashAt, codeAt, storageAt, hcodes]
  generalize s.view a = o at hview ⊢
  generalize t.view a = o' at hview ⊢
  cases hview with
  | none => exact ⟨rfl, rfl, hnonce, rfl, rfl, fun _ => rfl⟩
  | some h => exact ⟨rfl, h.balance, h.nonce, h.codeHash, h.code, h.storage⟩

/-- States that show alike accounts answer alike. -/
theorem readAlike (hs : s.Coherent) (ht : t.Coherent) (hcodes : s.codes = t.codes)
    (hnonce : s.accountStartNonce = t.accountStartNonce)
    (hview : ∀ a, Option.Rel (Same t.codes) (s.view a) (t.view a)) : ReadAlike s t := by
  have hshown := fun a => shown_eq hcodes hnonce (hview a)
  constructor
  · intro pick pick' a
    rw [outcome_addressInUse pick a hs, outcome_addressInUse pick' a ht, (hshown a).1]
  · intro pick pick' a
    rw [outcome_balance pick a hs, outcome_balance pick' a ht, (hshown a).2.1]
  · intro pick pick' a
    rw [outcome_getNonce pick a hs, outcome_getNonce pick' a ht, (hshown a).2.2.1]
  · intro pick pick' a
    obtain ⟨-, -, -, hhash, hcode, -⟩ := hshown a
    rw [outcome_code pick a hs, outcome_code pick' a ht, hhash, hcode]
  · intro pick pick' a key
    rw [outcome_storage pick a key hs, outcome_storage pick' a key ht, (hshown a).2.2.2.2.2 key]

end State

end CppSwc
