import CppSwc.State.View

/-!
# What a commit writes

`commit` writes the dirty accounts of the cache to the trie, with their storage, and
their new code to the database.  `commit_trie` says what the trie then holds at one
address and `commit_stored` which codes the database then has.  `Removes` are the accounts
that a commit takes away.
-/

namespace CppSwc

open Std Lib CodeHash

variable {H : Type} [DecidableEq H] [CodeHash H]

namespace Account

variable {lookup : H → Bytes} {x y : Account H}

/-- What `commit` writes of an account. -/
def leaf (x : Account H) : Leaf H := ⟨x.nonce, x.balance, x.storageTrie, x.codeHash⟩

omit [DecidableEq H] [CodeHash H] in
/-- A slot of the storage trie with the overlay written to it. -/
theorem storageTrie_getElem? (x : Account H) (key : U256) :
    x.storageTrie[key]? =
      x.storageOverlay[key]?.elim x.storageRoot[key]?
        fun value => if value ≠ 0 then some value else none := by
  refine foldl_toList (g := fun (root : StorageTrie) key => root[key]?)
    (h := fun value _ => if value ≠ 0 then some value else none) ?_ x.storageOverlay x.storageRoot key
  intro root e k
  split
  · rw [getElem?_insert_eq]
  · rw [getElem?_erase_eq]

omit [DecidableEq H] [CodeHash H] in
/-- The storage survives. -/
theorem storageAt_ofLeaf (x : Account H) (key : U256) :
    (ofLeaf x.leaf).storageAt key = x.storageAt key := by
  have hempty : (∅ : ExtTreeMap U256 U256)[key]? = none := ExtTreeMap.getElem?_empty
  simp only [storageAt, ofLeaf, leaf, hempty, ExtTreeMap.getD_eq_getD_getElem?,
    storageTrie_getElem?]
  cases x.storageOverlay[key]? with
  | none => rfl
  | some value =>
      show (if value ≠ 0 then some value else none).getD 0 = value
      by_cases hzero : value = 0
      · rw [if_neg (not_not.mpr hzero), hzero]
        rfl
      · rw [if_pos hzero]
        rfl

/-- The database has the code with the hash. -/
def Stored (lookup : H → Bytes) (hash : H) : Prop := hash = emptySHA3 ∨ sha3 (lookup hash) = hash

/-- The code is in the database or is new and in the cache. -/
structure CodeKept (lookup : H → Bytes) (x : Account H) : Prop where
  new : x.hasNewCode = true → sha3 x.codeCache = x.codeHash
  old : x.hasNewCode = false → Stored lookup x.codeHash

/-- Code that is kept has its hash. -/
theorem CodeKept.sha3_code (h : CodeKept lookup x) (hnoted : x.CodeNoted) :
    sha3 (x.code lookup) = x.codeHash := by
  refine Account.sha3_code hnoted fun hcache hhash => ?_
  cases hnew : x.hasNewCode with
  | true =>
      have hsha3 := h.new hnew
      rw [hcache] at hsha3
      exact absurd hsha3.symm hhash
  | false => exact (h.old hnew).resolve_left hhash

theorem sha3_code_ofLeaf {leaf : Leaf H} (h : Stored lookup leaf.codeHash) :
    sha3 ((ofLeaf leaf).code lookup) = leaf.codeHash :=
  Account.sha3_code (.inr (.inl rfl)) fun _ hhash => h.resolve_left hhash

end Account

namespace State

open Account

variable {s t : State H} {a : Address} {x y : Account H} {behaviour : CommitBehaviour}

/-! ## The trie -/

/-- What the trie holds of an account of the cache after a commit, if it held `old`. -/
def written (behaviour : CommitBehaviour) (x : Account H) (old : Option (Leaf H)) :
    Option (Leaf H) :=
  if x.isDirty then
    if x.isAlive ∧ ¬(behaviour = .removeEmptyAccounts ∧ x.isEmpty) then some x.leaf else none
  else old

/-- What `dev::eth::commit` makes of an account. -/
theorem foldl_commitAccount_trie (cache : ExtTreeMap Address (Account H)) (s : State H)
    (a : Address) :
    (cache.toList.foldl commitAccount s).trie[a]? =
      cache[a]?.elim s.trie[a]? fun x => written .keepEmptyAccounts x s.trie[a]? := by
  refine foldl_toList (g := fun s a => s.trie[a]?) (h := written .keepEmptyAccounts) ?_ cache s a
  intro s e b
  unfold commitAccount written
  cases e.2.isDirty with
  | false => simp
  | true =>
      cases e.2.isAlive with
      | false => simp [getElem?_erase_eq]
      | true =>
          simp only [if_true, getElem?_insert_eq]
          rfl

omit [DecidableEq H] in
theorem written_kill [DecidableEq H] (x : Account H) (old : Option (Leaf H)) :
    written .keepEmptyAccounts x.kill old = none := rfl

omit [DecidableEq H] [CodeHash H] in
theorem commitAccount_frame [DecidableEq H] (s : State H) (e : Address × Account H) :
    (commitAccount s e).nonExistingAccountsCache = s.nonExistingAccountsCache ∧
      (commitAccount s e).accountStartNonce = s.accountStartNonce := by
  unfold commitAccount
  split
  · split <;> exact ⟨rfl, rfl⟩
  · exact ⟨rfl, rfl⟩

omit [CodeHash H] in
/-- What a commit leaves alone. -/
theorem foldl_commitAccount_frame (l : List (Address × Account H)) (s : State H) :
    (l.foldl commitAccount s).nonExistingAccountsCache = s.nonExistingAccountsCache ∧
      (l.foldl commitAccount s).accountStartNonce = s.accountStartNonce := by
  induction l generalizing s with
  | nil => exact ⟨rfl, rfl⟩
  | cons e l ih =>
      obtain ⟨habsent, hnonce⟩ := commitAccount_frame s e
      rw [List.foldl_cons, (ih _).1, (ih _).2]
      exact ⟨habsent, hnonce⟩

theorem commit_nonExistingAccountsCache (behaviour : CommitBehaviour) (s : State H) :
    (s.commit behaviour).nonExistingAccountsCache = s.nonExistingAccountsCache :=
  (foldl_commitAccount_frame _ s).1

theorem commit_accountStartNonce (behaviour : CommitBehaviour) (s : State H) :
    (s.commit behaviour).accountStartNonce = s.accountStartNonce :=
  (foldl_commitAccount_frame _ s).2

/-- `removeEmptyAccounts` takes the empty accounts away. -/
theorem written_removeIfEmpty (x : Account H) (old : Option (Leaf H)) :
    written .keepEmptyAccounts (removeIfEmpty x) old = written .removeEmptyAccounts x old := by
  unfold removeIfEmpty
  cases hdirty : x.isDirty with
  | false => simp [written, hdirty]
  | true =>
      cases hempty : x.isEmpty with
      | false => simp [written, hdirty, hempty]
      | true =>
          rw [Bool.and_self, if_pos rfl, written_kill]
          simp [written, hdirty, hempty]

/-- **What the trie holds after a commit.** -/
theorem commit_trie (behaviour : CommitBehaviour) (s : State H) (a : Address) :
    (s.commit behaviour).trie[a]? =
      s.cache[a]?.elim s.trie[a]? fun x => written behaviour x s.trie[a]? := by
  refine (foldl_commitAccount_trie _ s a).trans ?_
  cases behaviour with
  | keepEmptyAccounts => rfl
  | removeEmptyAccounts =>
      simp only [if_true, ExtTreeMap.getElem?_map]
      cases s.cache[a]? with
      | none => rfl
      | some x => exact written_removeIfEmpty x _

theorem commit_cache (behaviour : CommitBehaviour) (s : State H) (a : Address) :
    (s.commit behaviour).cache[a]? = none := ExtTreeMap.getElem?_empty

theorem commit_view (behaviour : CommitBehaviour) (s : State H) (a : Address) :
    (s.commit behaviour).view a = (s.commit behaviour).trie[a]?.map .ofLeaf := by
  rw [view, commit_cache, Option.none_or]

/-- After a commit the cache is empty, and the accounts that were noted as unused still
are. -/
theorem coherent_commit (behaviour : CommitBehaviour) (hs : s.Tidy) :
    (s.commit behaviour).Coherent where
  absent b hb := by
    rw [commit_nonExistingAccountsCache] at hb
    obtain ⟨hleaf, hdead⟩ := hs.absent b hb
    refine ⟨?_, fun x hx => ?_⟩
    · rw [commit_trie]
      cases hx : s.cache[b]? with
      | none => exact hleaf
      | some x =>
          show written behaviour x _ = none
          rw [written, hdead x hx, hleaf]
          simp
    · rw [commit_cache] at hx
      cases hx
  noted b y hy := by
    rw [commit_cache] at hy
    cases hy
  clean b y hy := by
    rw [commit_cache] at hy
    cases hy

/-! ## The database -/

omit [DecidableEq H] in
/-- The code of one account. -/
theorem stored_commitAccount [DecidableEq H] {e : Address × Account H}
    (he : e.2.isAlive = true → e.2.hasNewCode = true → sha3 e.2.codeCache = e.2.codeHash)
    (s : State H) :
    (∀ hash, Stored s.codes hash → Stored (commitAccount s e).codes hash) ∧
      (e.2.isDirty = true → e.2.isAlive = true → e.2.hasNewCode = true →
        Stored (commitAccount s e).codes e.2.codeHash) := by
  unfold commitAccount
  split
  · split
    · next halive =>
        constructor
        · intro hash hstored
          refine hstored.imp_right fun hsha3 => ?_
          dsimp only
          split
          · next hnew =>
              rw [hnew.2]
              exact he halive hnew.1
          · exact hsha3
        · intro _ _ hnew
          refine .inr ?_
          dsimp only
          rw [if_pos ⟨hnew, rfl⟩]
          exact he halive hnew
    · next hdead => exact ⟨fun _ h => h, fun _ halive => absurd halive hdead⟩
  · next hclean => exact ⟨fun _ h => h, fun hdirty => absurd hdirty hclean⟩

/-- Codes are not lost, and new ones are there. -/
theorem stored_foldl {l : List (Address × Account H)}
    (hl : ∀ e ∈ l, e.2.isAlive = true → e.2.hasNewCode = true → sha3 e.2.codeCache = e.2.codeHash)
    (s : State H) :
    (∀ hash, Stored s.codes hash → Stored (l.foldl commitAccount s).codes hash) ∧
      ∀ e ∈ l, e.2.isDirty = true → e.2.isAlive = true → e.2.hasNewCode = true →
        Stored (l.foldl commitAccount s).codes e.2.codeHash := by
  induction l generalizing s with
  | nil => exact ⟨fun _ h => h, fun e he => absurd he List.not_mem_nil⟩
  | cons e l ih =>
      obtain ⟨hmono, hnew⟩ := stored_commitAccount (hl e List.mem_cons_self) s
      obtain ⟨hmono', hnew'⟩ := ih (fun e he => hl e (List.mem_cons_of_mem _ he)) (commitAccount s e)
      rw [List.foldl_cons]
      refine ⟨fun hash h => hmono' hash (hmono hash h), fun e' he' hdirty halive hcode => ?_⟩
      rcases List.mem_cons.mp he' with rfl | he'
      · exact hmono' _ (hnew hdirty halive hcode)
      · exact hnew' e' he' hdirty halive hcode

/-- The cache that is written. -/
def writtenCache (behaviour : CommitBehaviour) (s : State H) : ExtTreeMap Address (Account H) :=
  if behaviour = .removeEmptyAccounts then s.cache.map fun _ x => removeIfEmpty x else s.cache

/-- An account that is alive when it is written is one of the cache. -/
theorem writtenCache_alive (halive : x.isAlive = true) :
    (writtenCache behaviour s)[a]? = some x ↔
      s.cache[a]? = some x ∧ ¬(behaviour = .removeEmptyAccounts ∧ x.isDirty && x.isEmpty) := by
  unfold writtenCache
  split
  · next hremove =>
      rw [ExtTreeMap.getElem?_map, Option.map_eq_some_iff]
      constructor
      · rintro ⟨y, hy, hyx⟩
        unfold removeIfEmpty at hyx
        split at hyx
        · rw [← hyx] at halive
          cases halive
        · next hkept =>
            subst hyx
            exact ⟨hy, fun h => hkept h.2⟩
      · rintro ⟨hx, hkept⟩
        refine ⟨x, hx, ?_⟩
        rw [removeIfEmpty, if_neg fun h => hkept ⟨hremove, h⟩]
  · next hkeep => exact ⟨fun hx => ⟨hx, fun h => hkeep h.1⟩, fun h => h.1⟩

/-- **What the database holds after a commit.**  Codes are not lost, and the new code of
every account that is written is there. -/
theorem commit_stored (behaviour : CommitBehaviour)
    (hnew : ∀ (b : Address) (y : Account H), s.cache[b]? = some y → y.hasNewCode = true →
      sha3 y.codeCache = y.codeHash) :
    (∀ hash, Stored s.codes hash → Stored (s.commit behaviour).codes hash) ∧
      ∀ (b : Address) (y : Account H), s.cache[b]? = some y → y.isDirty = true →
        y.isAlive = true → ¬(behaviour = .removeEmptyAccounts ∧ y.isEmpty) → y.hasNewCode = true →
        Stored (s.commit behaviour).codes y.codeHash := by
  have hl : ∀ e ∈ (writtenCache behaviour s).toList, e.2.isAlive = true → e.2.hasNewCode = true →
      sha3 e.2.codeCache = e.2.codeHash := by
    intro e he halive
    have hcache := (writtenCache_alive halive).mp (getElem?_of_mem_toList he)
    exact hnew e.1 e.2 hcache.1
  obtain ⟨hmono, hall⟩ := stored_foldl hl s
  refine ⟨hmono, fun b y hy hdirty halive hkept hcode => ?_⟩
  refine hall (b, y) (ExtTreeMap.mem_toList_iff_getElem?_eq_some.mpr ?_) hdirty halive hcode
  refine (writtenCache_alive halive).mpr ⟨hy, fun h => hkept ⟨h.1, ?_⟩⟩
  exact (Bool.and_eq_true_iff.mp h.2).2

/-! ## Accounts that are removed -/

/-- The account is shown, and a commit that removes empty accounts takes it away. -/
def Removes (s : State H) (a : Address) : Prop :=
  (s.view a).isSome = true ∧ (s.commit .removeEmptyAccounts).trie[a]? = none

instance (s : State H) (a : Address) : Decidable (s.Removes a) :=
  inferInstanceAs (Decidable (_ ∧ _))

/-- Those that are dirty, and dead or empty, are removed. -/
theorem removes_iff (hs : s.Coherent) :
    s.Removes a ↔
      ∃ x, s.cache[a]? = some x ∧ x.isDirty = true ∧ (x.isAlive = false ∨ x.isEmpty = true) := by
  rw [Removes, commit_trie]
  cases hx : s.cache[a]? with
  | none =>
      rw [view, hx, Option.none_or, Option.isSome_map, Option.elim_none]
      constructor
      · rintro ⟨hsome, hnone⟩
        rw [hnone] at hsome
        cases hsome
      · rintro ⟨x, hx', -⟩
        cases hx'
  | some x =>
      rw [view, hx, Option.some_or, Option.isSome_some, Option.elim_some, written]
      cases hdirty : x.isDirty with
      | false =>
          obtain ⟨leaf, hleaf, -⟩ := hs.clean a x hx hdirty
          simp [hleaf, hdirty]
      | true =>
          cases halive : x.isAlive <;> cases hempty : x.isEmpty <;> simp [halive, hempty, hdirty]

/-- What covers a state has the same accounts removed. -/
theorem Covers.removes_iff (h : Covers s t) (ht : t.Coherent) : s.Removes a ↔ t.Removes a := by
  rw [State.removes_iff (h.coherent ht), State.removes_iff ht]
  constructor
  · rintro ⟨x, hx, hdirty, hgone⟩
    -- the account of `t` is in the cache and dirty, since it is dead or empty as well
    have hentry : ∃ y, t.cache[a]? = some y ∧ y.isDirty = true := by
      rcases hgone with hdead | hempty
      · have hview := h.view a
        rw [State.view, hx, Option.some_or] at hview
        cases hy : t.cache[a]? with
        | none =>
            rw [State.view, hy, Option.none_or] at hview
            cases hleaf : t.trie[a]? with
            | none =>
                rw [hleaf] at hview
                cases hview
            | some leaf =>
                rw [hleaf, Option.map_some] at hview
                cases hview with
                | some hsame => exact absurd (hsame.alive.symm.trans hdead) (by simp [ofLeaf])
        | some y =>
            rw [State.view, hy, Option.some_or] at hview
            cases hview with
            | some hsame =>
                refine ⟨y, rfl, ?_⟩
                cases hclean : y.isDirty with
                | true => rfl
                | false =>
                    obtain ⟨leaf, -, hleaf⟩ := ht.clean a y hy hclean
                    exact absurd ((hleaf.alive.symm.trans hsame.alive.symm).trans hdead)
                      (by simp [ofLeaf])
      · exact h.fresh a x hx hdirty hempty
    obtain ⟨y, hy, hdirty'⟩ := hentry
    obtain ⟨z, hz, -, hsame⟩ := h.entry hy hdirty'
    rw [hx] at hz
    cases hz
    exact ⟨y, hy, hdirty', by rwa [← hsame.alive, ← hsame.isEmpty_eq]⟩
  · rintro ⟨y, hy, hdirty, hgone⟩
    obtain ⟨x, hx, hdirty', hsame⟩ := h.entry hy hdirty
    exact ⟨x, hx, hdirty', by rwa [hsame.alive, hsame.isEmpty_eq]⟩

end State

end CppSwc
