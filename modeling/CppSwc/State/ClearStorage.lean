import CppSwc.State.Savepoints

/-!
# Clearing the storage of an account

`clearStorage` empties the overlay and sets the base root to the empty trie, and its entry
in the change log keeps the base root.  So a rollback brings the slots of the base root
back, and of the overlay only what the calls of `setStorage` since the savepoint have
logged.  An account whose base root is empty is not cleared at all, and one that is not in
the cache is replaced by a dead account.

`Slots s a f` says what is read at an address, as far as storage goes.  One lemma for each
function of `State` says what it does to the slots, `unwind` what undoing a change does to
them, and `clearUndone_iff` says when the slots of the savepoint come back.
-/

namespace CppSwc.State

open Std Lib CodeHash Account

variable {H : Type} [DecidableEq H] [CodeHash H]

/-- A call of `setStorage`. -/
structure Write where
  pick : Pick
  address : Address
  key : U256
  value : U256

/-- What the call leaves. -/
def write (s : State H) (w : Write) : State H :=
  after (setStorage w.pick w.address w.key w.value) s

/-- What a list of calls leaves. -/
def writes (s : State H) (l : List Write) : State H := l.foldl write s

/-- One of the calls writes the slot. -/
def Writes (l : List Write) (a : Address) (key : U256) : Prop :=
  ∃ w ∈ l, w.address = a ∧ w.key = key

instance (l : List Write) (a : Address) (key : U256) : Decidable (Writes l a key) :=
  inferInstanceAs (Decidable (∃ w ∈ l, w.address = a ∧ w.key = key))

/-- The account is in the cache and dirty. -/
def Dirty (s : State H) (a : Address) : Prop := ∃ x, s.cache[a]? = some x ∧ x.isDirty = true

/-- There is an account with the slots `f`: the cache has them, and so has the trie unless
the account is dirty. -/
structure Slots (s : State H) (a : Address) (f : U256 → U256) : Prop where
  cached : ∀ x, s.cache[a]? = some x → ∀ key, x.storageAt key = f key
  stored : s.Dirty a ∨ a ∉ s.nonExistingAccountsCache ∧
    ∃ leaf, s.trie[a]? = some leaf ∧ ∀ key, leaf.storageRoot.getD key 0 = f key

variable {s t : State H} {a b : Address} {f g : U256 → U256} {x y : Account H}

/-- The slots of an account of a coherent state. -/
theorem Coherent.slots (hs : s.Coherent) (hx : s.view a = some x) : Slots s a x.storageAt := by
  rw [view] at hx
  cases hc : s.cache[a]? with
  | none =>
      rw [hc, Option.none_or] at hx
      obtain ⟨leaf, hleaf, rfl⟩ := Option.map_eq_some_iff.mp hx
      refine ⟨fun y hy => ?_, .inr ⟨fun ha => ?_, leaf, hleaf, fun key => rfl⟩⟩
      · rw [hc] at hy
        cases hy
      · rw [(hs.absent a ha).1] at hleaf
        cases hleaf
  | some y =>
      rw [hc, Option.some_or] at hx
      cases hx
      refine ⟨fun y hy => ?_, ?_⟩
      · rw [hc] at hy
        cases hy
        exact fun key => rfl
      · cases hdirty : x.isDirty with
        | true => exact .inl ⟨x, hc, hdirty⟩
        | false =>
            obtain ⟨leaf, hleaf, hsame⟩ := hs.clean a x hc hdirty
            refine .inr ⟨fun ha => ?_, leaf, hleaf, fun key => (hsame.storage key).symm⟩
            rw [(hs.absent a ha).1] at hleaf
            cases hleaf

/-! ## Reading -/

omit [DecidableEq H] [CodeHash H] in
/-- The account stays as it is, or it is clean and dropped. -/
theorem Slots.drop (hs : Slots s a f) (htrie : t.trie = s.trie)
    (hunused : t.nonExistingAccountsCache = s.nonExistingAccountsCache)
    (hcache : t.cache[a]? = s.cache[a]? ∨ t.cache[a]? = none ∧ ¬s.Dirty a) : Slots t a f := by
  rcases hcache with hsame | ⟨hnone, hclean⟩
  · refine ⟨fun x hx => hs.cached x (hsame ▸ hx), ?_⟩
    rw [Dirty, hsame, htrie, hunused]
    exact hs.stored
  · refine ⟨fun x hx => ?_, .inr ?_⟩
    · rw [hnone] at hx
      cases hx
    · rw [htrie, hunused]
      exact hs.stored.resolve_left hclean

omit [DecidableEq H] [CodeHash H] in
/-- Only a clean account is dropped. -/
theorem cache_evict (s : State H) (i : Nat) (a : Address) :
    (s.evict i).cache[a]? = s.cache[a]? ∨ (s.evict i).cache[a]? = none ∧ ¬s.Dirty a := by
  unfold evict
  dsimp only
  split
  · next x hx =>
      split
      · exact .inl rfl
      · next hclean =>
          rw [getElem?_erase_eq]
          split
          · next heq =>
              refine .inr ⟨rfl, ?_⟩
              rintro ⟨y, hy, hdirty⟩
              rw [← heq, hx] at hy
              cases hy
              exact hclean hdirty
          · exact .inl rfl
  · exact .inl rfl

omit [DecidableEq H] [CodeHash H] in
theorem Slots.clearCacheIfTooLarge (pick : Pick) (n : Nat) (hs : Slots s a f) :
    Slots (State.clearCacheIfTooLarge pick n s) a f := by
  induction n generalizing s with
  | zero => exact hs
  | succ n ih =>
      rw [State.clearCacheIfTooLarge]
      split
      · exact ih (hs.drop rfl rfl (cache_evict s _ a))
      · exact hs

omit [DecidableEq H] [CodeHash H] in
theorem Dirty.clearCacheIfTooLarge (pick : Pick) (n : Nat) (hs : s.Dirty a) :
    (State.clearCacheIfTooLarge pick n s).Dirty a := by
  induction n generalizing s with
  | zero => exact hs
  | succ n ih =>
      rw [State.clearCacheIfTooLarge]
      split
      · refine ih ?_
        rcases cache_evict s _ a with hsame | ⟨-, hclean⟩
        · rwa [Dirty, hsame]
        · exact absurd hs hclean
      · exact hs

omit [DecidableEq H] [CodeHash H] in
/-- What `clearCacheIfTooLarge` does not touch. -/
theorem clearCacheIfTooLarge_frame (pick : Pick) (n : Nat) (s : State H) :
    (clearCacheIfTooLarge pick n s).trie = s.trie ∧
      (clearCacheIfTooLarge pick n s).changeLog = s.changeLog := by
  induction n generalizing s with
  | zero => exact ⟨rfl, rfl⟩
  | succ n ih =>
      rw [clearCacheIfTooLarge]
      split
      · exact ih _
      · exact ⟨rfl, rfl⟩

omit [DecidableEq H] [CodeHash H] in
theorem changeLog_load (pick : Pick) (a : Address) (s : State H) :
    (s.load pick a).changeLog = s.changeLog := by
  unfold load
  split
  · rfl
  · split
    · rfl
    · exact (clearCacheIfTooLarge_frame pick _ s).2

omit [DecidableEq H] [CodeHash H] in
/-- A leaf that gets into the cache. -/
theorem Slots.putLeaf {leaf : Leaf H} (hs : Slots s a f) (hnone : s.cache[b]? = none)
    (hleaf : s.trie[b]? = some leaf) : Slots (s.put b (.ofLeaf leaf)) a f := by
  by_cases hab : b = a
  · subst hab
    have hstored := hs.stored.resolve_left fun hdirty => by
      obtain ⟨x, hx, -⟩ := hdirty
      rw [hnone] at hx
      cases hx
    refine ⟨fun x hx => ?_, .inr hstored⟩
    rw [put_cache, if_pos rfl] at hx
    cases hx
    obtain ⟨-, leaf', hleaf', hslots⟩ := hstored
    rw [hleaf] at hleaf'
    cases hleaf'
    exact hslots
  · refine hs.drop rfl rfl (.inl ?_)
    rw [put_cache, if_neg hab]

omit [DecidableEq H] [CodeHash H] in
/-- Loading an account leaves the slots of all. -/
theorem Slots.load (pick : Pick) (b : Address) (hs : Slots s a f) :
    Slots (s.load pick b) a f := by
  unfold State.load
  split
  · exact hs
  · next hnew =>
      rw [not_or, ← ExtTreeMap.mem_iff_contains, ExtTreeMap.mem_iff_isSome_getElem?] at hnew
      split
      · next hnone =>
          refine ⟨hs.cached, hs.stored.imp_right fun hstored => ⟨fun ha => ?_, hstored.2⟩⟩
          rcases mem_insert_iff.mp ha with rfl | ha
          · obtain ⟨-, leaf, hleaf, -⟩ := hstored
            rw [hnone] at hleaf
            cases hleaf
          · exact hstored.1 ha
      · next leaf hleaf =>
          have hclear := hs.clearCacheIfTooLarge pick s.unchangedCacheEntries.length
          have hnone := clearCacheIfTooLarge_none pick s.unchangedCacheEntries.length
            (Option.not_isSome_iff_eq_none.mp hnew.1)
          have htrie := (clearCacheIfTooLarge_frame pick s.unchangedCacheEntries.length s).1
          have hput := hclear.putLeaf hnone (htrie.symm ▸ hleaf)
          exact ⟨hput.cached, hput.stored⟩

omit [DecidableEq H] [CodeHash H] in
theorem Dirty.load (pick : Pick) (b : Address) (hs : s.Dirty a) : (s.load pick b).Dirty a := by
  unfold State.load
  split
  · exact hs
  · next hnew =>
      rw [not_or, ← ExtTreeMap.mem_iff_contains, ExtTreeMap.mem_iff_isSome_getElem?] at hnew
      split
      · exact hs
      · obtain ⟨x, hx, hdirty⟩ := hs.clearCacheIfTooLarge pick s.unchangedCacheEntries.length
        refine ⟨x, ?_, hdirty⟩
        refine (put_cache _ _ _ _).trans ?_
        split
        · next hab =>
            obtain ⟨y, hy, -⟩ := hs
            rw [← hab] at hy
            rw [hy] at hnew
            exact absurd rfl hnew.1
        · exact hx

omit [DecidableEq H] [CodeHash H] in
/-- The account is found. -/
theorem Slots.found (pick : Pick) (hs : Slots s a f) : ∃ x, (s.load pick a).cache[a]? = some x := by
  rcases hs.stored with ⟨x, hx, -⟩ | ⟨hunused, leaf, hleaf, -⟩
  · rw [load_of_cache pick hx]
    exact ⟨x, hx⟩
  · rw [load_found pick a fun ha => absurd ha hunused, view, hleaf]
    cases s.cache[a]? with
    | none => exact ⟨.ofLeaf leaf, rfl⟩
    | some x => exact ⟨x, rfl⟩

omit [DecidableEq H] [CodeHash H] in
/-- An account of the cache is replaced by one that reads alike. -/
theorem Slots.put (hs : Slots s a f) (hx : s.cache[b]? = some x)
    (hsame : ∀ key, y.storageAt key = x.storageAt key) (hdirty : y.isDirty = x.isDirty) :
    Slots (s.put b y) a f := by
  by_cases hab : b = a
  · subst hab
    refine ⟨fun z hz => ?_, hs.stored.imp_left ?_⟩
    · rw [put_cache, if_pos rfl] at hz
      cases hz
      exact fun key => (hsame key).trans (hs.cached x hx key)
    · rintro ⟨z, hz, hdirty'⟩
      rw [hx] at hz
      cases hz
      exact ⟨y, (put_cache b b y s).trans (if_pos rfl), hdirty.trans hdirty'⟩
  · refine hs.drop rfl rfl (.inl ?_)
    rw [put_cache, if_neg hab]

/-- What a read of storage gives and leaves. -/
theorem storage_eq (pick : Pick) (b : Address) (key : U256) (s : State H) :
    ∃ old t, storage pick b key s = .ok old t ∧ t.changeLog = s.changeLog ∧
      (∀ a f, Slots s a f → Slots t a f ∧ (b = a → (∃ x, t.cache[a]? = some x) ∧ old = f key)) ∧
      ∀ a, s.Dirty a → t.Dirty a := by
  rw [storage, account_bind]
  have hlog := changeLog_load pick b s
  have hslots : ∀ a f, Slots s a f → Slots (s.load pick b) a f ∧
      (b = a → ∃ x, (s.load pick b).cache[b]? = some x) := by
    intro a f hs
    refine ⟨hs.load pick b, fun hab => ?_⟩
    subst hab
    exact hs.found pick
  have hdirty : ∀ a, s.Dirty a → (s.load pick b).Dirty a := fun a hs => hs.load pick b
  generalize s.load pick b = r at hlog hslots hdirty ⊢
  cases hx : r.cache[b]? with
  | none =>
      refine ⟨0, r, rfl, hlog, fun a f hs => ⟨(hslots a f hs).1, fun hab => ?_⟩, hdirty⟩
      obtain ⟨y, hy⟩ := (hslots a f hs).2 hab
      rw [hx] at hy
      cases hy
  | some x =>
      refine ⟨x.storageAt key, if x.storageOverlay.contains key then r
        else r.put b (x.setStorageCache key (x.storageAt key)), rfl, ?_⟩
      have hsame : ∀ k, (x.setStorageCache key (x.storageAt key)).storageAt k = x.storageAt k :=
        (same_setStorageCache (x := x) key : Same r.codes _ x).storage
      split
      · refine ⟨hlog, fun a f hs => ⟨(hslots a f hs).1, fun hab => ?_⟩, hdirty⟩
        subst hab
        exact ⟨⟨x, hx⟩, (hslots b f hs).1.cached x hx key⟩
      · refine ⟨hlog, fun a f hs => ⟨(hslots a f hs).1.put hx hsame rfl, fun hab => ?_⟩, ?_⟩
        · subst hab
          exact ⟨⟨_, (put_cache b b _ r).trans (if_pos rfl)⟩, (hslots b f hs).1.cached x hx key⟩
        · intro a hs
          obtain ⟨y, hy, hd⟩ := hdirty a hs
          by_cases hab : b = a
          · subst hab
            rw [hx] at hy
            cases hy
            exact ⟨_, (put_cache b b _ r).trans (if_pos rfl), hd⟩
          · exact ⟨y, (put_cache b a _ r).trans ((if_neg hab).trans hy), hd⟩

theorem Slots.outcome_storage (hs : Slots s a f) (pick : Pick) (key : U256) :
    outcome (storage pick a key) s = .ok (f key) := by
  obtain ⟨old, t, ht, -, hslots, -⟩ := storage_eq pick a key s
  rw [outcome, ht, ((hslots a f hs).2 rfl).2]

/-! ## Writing -/

/-- The slots after a call. -/
def Write.slots (w : Write) (a : Address) (f : U256 → U256) : U256 → U256 :=
  fun key => if w.address = a ∧ w.key = key then w.value else f key

/-- The entry of a call, with the value that the slot had if it is one of `a`. -/
def Entry (w : Write) (a : Address) (f : U256 → U256) (c : Change H) : Prop :=
  ∃ old, c = .storage w.address w.key old ∧ (w.address = a → old = f w.key)

/-- What one call logs and what it does to the slots. -/
theorem write_spec (w : Write) (hs : Slots s a f) :
    ∃ c, (s.write w).changeLog = c :: s.changeLog ∧ Entry w a f c ∧
      Slots (s.write w) a (w.slots a f) ∧
      (w.address = a ∨ s.Dirty a → (s.write w).Dirty a) := by
  obtain ⟨old, t, ht, hlog, hslots, hdirty⟩ := storage_eq w.pick w.address w.key s
  have hwrite : s.write w = (t.put w.address ((t.entry w.address).setStorage w.key w.value)).logged
      (.storage w.address w.key old) := by
    rw [write, setStorage, after_bind_of_ok ht, after_modify]
  have hread := hslots a f hs
  refine ⟨.storage w.address w.key old, ?_, ⟨old, rfl, fun hw => (hread.2 hw).2⟩, ?_⟩
  · rw [hwrite, ← hlog]
    rfl
  by_cases hw : w.address = a
  · obtain ⟨⟨x, hx⟩, -⟩ := hread.2 hw
    have hcache : (s.write w).cache[a]? = some (x.setStorage w.key w.value) := by
      rw [hwrite, hw, entry_of_cache hx]
      exact (put_cache a a _ t).trans (if_pos rfl)
    have hwritten : (s.write w).Dirty a := ⟨_, hcache, rfl⟩
    refine ⟨⟨fun y hy key => ?_, .inl hwritten⟩, fun _ => hwritten⟩
    rw [hcache] at hy
    cases hy
    rw [storageAt_setStorage, Write.slots, hread.1.cached x hx key]
    simp only [hw, true_and]
  · have hcache : (s.write w).cache[a]? = t.cache[a]? := by
      rw [hwrite]
      exact (put_cache w.address a _ t).trans (if_neg hw)
    have hf : w.slots a f = f := by
      funext key
      rw [Write.slots, if_neg fun h => hw h.1]
    constructor
    · rw [hf]
      exact hread.1.drop (by rw [hwrite]; rfl) (by rw [hwrite]; rfl) (.inl hcache)
    · intro h
      rw [Dirty, hcache]
      exact hdirty a (h.resolve_left hw)

/-! ## Undoing -/

/-- What undoing a change does to the slots at an address. -/
def unwind (a : Address) (f : U256 → U256) : Change H → U256 → U256
  | .storage b key value => fun k => if b = a ∧ key = k then value else f k
  | .storageRoot b root => fun k => if b = a then root.getD k 0 else f k
  | _ => f

/-- The change is one of storage. -/
def OfStorage (c : Change H) : Prop :=
  (∃ b key value, c = .storage b key value) ∨ ∃ b root, c = .storageRoot b root

omit [DecidableEq H] [CodeHash H] in
theorem unwind_of_ne {c : Change H} (hne : c.address ≠ a) : unwind a f c = f := by
  cases c with
  | storage b key value =>
      funext k
      exact if_neg fun h => hne h.1
  | storageRoot b root =>
      funext k
      exact if_neg hne
  | balance | nonce | create | code | touch => rfl

variable {c : Change H}

omit [DecidableEq H] in
/-- The slots of an account that takes a change back. -/
theorem storageAt_revert (hc : OfStorage c) (hx : ∀ key, x.storageAt key = f key) (key : U256) :
    (revert c x).storageAt key = unwind c.address f c key := by
  rcases hc with ⟨b, k, value, rfl⟩ | ⟨b, root, rfl⟩
  · show (x.setStorage k value).storageAt key = if b = b ∧ k = key then value else f key
    rw [storageAt_setStorage, hx key]
    simp only [true_and]
  · exact (if_pos rfl).symm

omit [DecidableEq H] in
/-- Undoing a change of storage assigns to the cache only, and what it assigns is dirty. -/
theorem undo_ofStorage (hc : OfStorage c) (s : State H) :
    (s.undo c).cache = s.cache.insert c.address (revert c (s.entry c.address)) ∧
      (s.undo c).trie = s.trie ∧
      (s.undo c).nonExistingAccountsCache = s.nonExistingAccountsCache ∧
      ∀ x, (revert c x).isDirty = true := by
  rcases hc with ⟨b, key, value, rfl⟩ | ⟨b, root, rfl⟩
  · exact ⟨rfl, rfl, rfl, fun _ => rfl⟩
  · exact ⟨rfl, rfl, rfl, fun _ => rfl⟩

omit [DecidableEq H] in
/-- Undoing a change of storage, where a change of the account finds it dirty. -/
theorem Slots.undo (hs : Slots s a f) (hc : OfStorage c) (hdirty : c.address = a → s.Dirty a) :
    Slots (s.undo c) a (unwind a f c) ∧ (s.Dirty a → (s.undo c).Dirty a) := by
  obtain ⟨hcache, htrie, hunused, hchanged⟩ := undo_ofStorage hc s
  by_cases hb : c.address = a
  · subst hb
    obtain ⟨x, hx, -⟩ := hdirty rfl
    have hfound : (s.undo c).cache[c.address]? = some (revert c x) := by
      rw [hcache, getElem?_insert_eq, if_pos rfl, entry_of_cache hx]
    have hafter : (s.undo c).Dirty c.address := ⟨_, hfound, hchanged x⟩
    refine ⟨⟨fun y hy => ?_, .inl hafter⟩, fun _ => hafter⟩
    rw [hfound] at hy
    cases hy
    exact storageAt_revert hc (hs.cached x hx)
  · have hsame : (s.undo c).cache[a]? = s.cache[a]? := by
      rw [hcache, getElem?_insert_eq, if_neg hb]
    rw [unwind_of_ne hb, Dirty, Dirty, hsame]
    exact ⟨hs.drop htrie hunused (.inl hsame), id⟩

omit [DecidableEq H] in
/-- Undoing a list of changes of storage, the newest first. -/
theorem Slots.undoAll {l : List (Change H)} (hs : Slots s a f) (hl : ∀ c ∈ l, OfStorage c)
    (hdirty : (∃ c ∈ l, c.address = a) → s.Dirty a) :
    Slots (l.foldl (fun s c => s.undo c) s) a (l.foldl (unwind a) f) := by
  induction l generalizing s f with
  | nil => exact hs
  | cons c l ih =>
      have hstep := hs.undo (hl c List.mem_cons_self) fun hc =>
        hdirty ⟨c, List.mem_cons_self, hc⟩
      refine ih hstep.1 (fun d hd => hl d (List.mem_cons_of_mem c hd)) ?_
      rintro ⟨d, hd, ha⟩
      exact hstep.2 (hdirty ⟨d, List.mem_cons_of_mem c hd, ha⟩)

/-! ## Runs of calls -/

/-- The list of changes is what the calls have logged, from a state with the slots `f`. -/
structure Logged (s : State H) (a : Address) (f : U256 → U256) (l : List Write)
    (changes : List (Change H)) : Prop where
  log : (s.writes l).changeLog = changes ++ s.changeLog
  ofStorage : ∀ c ∈ changes, OfStorage c
  dirty : (∃ c ∈ changes, c.address = a) → (s.writes l).Dirty a
  written : ∀ key, Writes l a key → (s.writes l).Dirty a
  unwound : ∀ g key, changes.foldl (unwind a) g key = if Writes l a key then f key else g key

theorem Dirty.writes (l : List Write) (hs : Slots s a f) (hdirty : s.Dirty a) :
    (s.writes l).Dirty a := by
  induction l generalizing s f with
  | nil => exact hdirty
  | cons w l ih =>
      obtain ⟨c, -, -, hslots, hstep⟩ := write_spec w hs
      exact ih hslots (hstep (.inr hdirty))

/-- Every list of calls is logged, and a slot that it does not write stays. -/
theorem exists_logged (l : List Write) (hs : Slots s a f) :
    ∃ changes g, Logged s a f l changes ∧ Slots (s.writes l) a g ∧
      ∀ key, ¬Writes l a key → g key = f key := by
  induction l generalizing s f with
  | nil =>
      refine ⟨[], f, ?_, hs, fun _ _ => rfl⟩
      have hnone : ∀ key, ¬Writes [] a key := by simp [Writes]
      exact
        { log := rfl
          ofStorage := by simp
          dirty := by simp
          written := fun key hkey => absurd hkey (hnone key)
          unwound := fun g key => (if_neg (hnone key)).symm }
  | cons w l ih =>
      obtain ⟨c, hlog, ⟨old, rfl, hold⟩, hslots, hdirty⟩ := write_spec w hs
      obtain ⟨changes, g, hl, hg, hsame⟩ := ih hslots
      have hcons : ∀ key, Writes (w :: l) a key ↔ (w.address = a ∧ w.key = key) ∨ Writes l a key := by
        simp [Writes]
      have hfirst : w.address = a → ((s.write w).writes l).Dirty a := fun hw =>
        Dirty.writes l hslots (hdirty (.inl hw))
      refine ⟨changes ++ [.storage w.address w.key old], g, ⟨?_, ?_, ?_, ?_, ?_⟩, hg, ?_⟩
      · rw [List.append_assoc, List.singleton_append, ← hlog]
        exact hl.log
      · intro d hd
        rcases List.mem_append.mp hd with hd | hd
        · exact hl.ofStorage d hd
        · exact List.mem_singleton.mp hd ▸ .inl ⟨_, _, _, rfl⟩
      · rintro ⟨d, hd, ha⟩
        rcases List.mem_append.mp hd with hd | hd
        · exact hl.dirty ⟨d, hd, ha⟩
        · rw [List.mem_singleton.mp hd] at ha
          exact hfirst ha
      · intro key hkey
        rcases (hcons key).mp hkey with ⟨hw, -⟩ | hkey
        · exact hfirst hw
        · exact hl.written key hkey
      · intro g' key
        rw [List.foldl_append]
        show (if w.address = a ∧ w.key = key then old else changes.foldl (unwind a) g' key) = _
        rw [hl.unwound g' key]
        by_cases hw : w.address = a ∧ w.key = key
        · rw [if_pos hw, if_pos ((hcons key).mpr (.inl hw)), hold hw.1, hw.2]
        · rw [if_neg hw, Write.slots, if_neg hw]
          simp only [hcons, hw, false_or]
      · intro key hkey
        rw [hcons key, not_or] at hkey
        rw [hsame key hkey.2, Write.slots, if_neg hkey.1]

omit [DecidableEq H] in
/-- Going back over what has been logged. -/
theorem rollback_of_log {changes : List (Change H)}
    (hlog : t.changeLog = changes ++ s.changeLog) :
    t.rollback s.savepoint = changes.foldl (fun s c => s.undo c) t := by
  rw [rollback, hlog, savepoint, List.length_append, Nat.add_sub_cancel, List.take_left]

/-! ## Clearing -/

/-- The account is there, and what the cache has of it agrees with the trie unless it is
dirty. -/
def Settled (s : State H) (a : Address) : Prop := s.Slots a (s.storageAt a)

theorem Coherent.settled (hs : s.Coherent) (ha : (s.view a).isSome = true) : s.Settled a := by
  obtain ⟨x, hx⟩ := Option.isSome_iff_exists.mp ha
  have hslots := hs.slots hx
  have hstorage : s.storageAt a = x.storageAt := by
    funext key
    rw [storageAt, hx, Option.elim_some]
  rwa [Settled, hstorage]

/-- The state after the calls of `setStorage` that stand before and a call of
`clearStorage`. -/
def cleared (s : State H) (before : List Write) (a : Address) : State H :=
  after (clearStorage a) (s.writes before)

/-- All slots read zero when the storage has been cleared, and a rollback to the savepoint
of `s` brings all back. -/
def ClearUndone (s : State H) (before later : List Write) (a : Address) : Prop :=
  (∀ pick key, outcome (storage pick a key) (s.cleared before a) = .ok 0) ∧
    ∀ pick pick' key,
      outcome (storage pick a key) (((s.cleared before a).writes later).rollback s.savepoint) =
        outcome (storage pick' a key) s

/-- What has to hold when the storage is cleared.  For an account that is not in the cache
or has an empty base root, all slots are zero.  Else the slots that have not been written
since the savepoint had the values of the base root there. -/
def Clearable (s : State H) (before : List Write) (a : Address) : Prop :=
  match (s.writes before).cache[a]? with
  | none => ∀ key, s.storageAt a key = 0
  | some x =>
      if x.storageRoot.isEmpty then ∀ key, x.storageAt key = 0
      else ∀ key, ¬Writes before a key → s.storageAt a key = x.storageRoot.getD key 0

/-- What `clearStorage` logs. -/
def clearChanges (s : State H) (a : Address) : List (Change H) :=
  if (s.entry a).storageRoot.isEmpty then [] else [.storageRoot a (s.entry a).storageRoot]

/-- The slots that `clearStorage` leaves. -/
def clearSlots (s : State H) (a : Address) (f : U256 → U256) : U256 → U256 :=
  match s.cache[a]? with
  | none => fun _ => 0
  | some x => if x.storageRoot.isEmpty then f else fun _ => 0

omit [DecidableEq H] in
theorem clearStorage_spec (hs : Slots s a f) :
    (after (clearStorage a) s).changeLog = s.clearChanges a ++ s.changeLog ∧
      Slots (after (clearStorage a) s) a (s.clearSlots a f) ∧
      (s.clearChanges a ≠ [] ∨ s.Dirty a → (after (clearStorage a) s).Dirty a) := by
  rw [clearStorage, after_modify, clearChanges, clearSlots]
  cases hx : s.cache[a]? with
  | none =>
      have hentry := entry_of_none hx
      have hput : (s.put a (.dead : Account H)).cache[a]? = some .dead :=
        (put_cache a a _ s).trans (if_pos rfl)
      have hdirty : (s.put a (.dead : Account H)).Dirty a := ⟨_, hput, rfl⟩
      have hempty : (dead : Account H).storageRoot.isEmpty = true := rfl
      simp only [hentry, entry_of_cache hput, hempty, if_true]
      refine ⟨rfl, ⟨fun y hy key => ?_, .inl hdirty⟩, fun _ => hdirty⟩
      rw [hput] at hy
      cases hy
      rfl
  | some x =>
      simp only [entry_of_cache hx, put_self hx]
      split
      · exact ⟨rfl, hs, fun h => h.resolve_left fun hne => hne rfl⟩
      · have hput : (s.put a x.clearStorage).cache[a]? = some x.clearStorage :=
          (put_cache a a _ s).trans (if_pos rfl)
        have hdirty : ((s.put a x.clearStorage).logged (.storageRoot a x.storageRoot)).Dirty a :=
          ⟨_, hput, rfl⟩
        refine ⟨rfl, ⟨fun y hy key => ?_, .inl hdirty⟩, fun _ => hdirty⟩
        have hy : (s.put a x.clearStorage).cache[a]? = some y := hy
        rw [hput] at hy
        cases hy
        rfl

/-- The slots after a rollback over the clearing, from the slots `f` at the savepoint and
`g` when the storage was cleared. -/
def restored (s : State H) (before : List Write) (a : Address) (f g : U256 → U256) :
    U256 → U256 :=
  fun key =>
    if Writes before a key then f key
    else (((s.writes before).clearChanges a).foldl (unwind a) ((s.writes before).clearSlots a g)) key

/-- The slots after the rollback. -/
theorem slots_rollback {before : List Write} {changes : List (Change H)} (later : List Write)
    (hbefore : Logged s a f before changes) (hg : Slots (s.writes before) a g) :
    Slots (((s.cleared before a).writes later).rollback s.savepoint) a
      (s.restored before a f g) := by
  obtain ⟨hlog, hslots, hclear⟩ := clearStorage_spec hg
  obtain ⟨changes', g', hlater, hg', hsame⟩ := exists_logged later hslots
  have hkept : (s.cleared before a).Dirty a → ((s.cleared before a).writes later).Dirty a :=
    fun h => Dirty.writes later hslots h
  have hall : ((s.cleared before a).writes later).changeLog =
      (changes' ++ ((s.writes before).clearChanges a ++ changes)) ++ s.changeLog := by
    refine hlater.log.trans ?_
    rw [hlog, hbefore.log, List.append_assoc, List.append_assoc]
  rw [rollback_of_log hall]
  have hundone := hg'.undoAll (l := changes' ++ ((s.writes before).clearChanges a ++ changes))
    (fun c hc => ?_) ?_
  · refine cast (congrArg _ ?_) hundone
    have hreturn : changes'.foldl (unwind a) g' = (s.writes before).clearSlots a g := by
      funext key
      rw [hlater.unwound g' key]
      split
      · rfl
      · next hkey => exact hsame key hkey
    rw [List.foldl_append, List.foldl_append, hreturn]
    funext key
    exact hbefore.unwound _ key
  · simp only [List.mem_append] at hc
    rcases hc with hc | hc | hc
    · exact hlater.ofStorage c hc
    · rw [clearChanges] at hc
      split at hc
      · cases hc
      · exact List.mem_singleton.mp hc ▸ .inr ⟨_, _, rfl⟩
    · exact hbefore.ofStorage c hc
  · rintro ⟨c, hc, ha⟩
    simp only [List.mem_append] at hc
    rcases hc with hc | hc | hc
    · exact hlater.dirty ⟨c, hc, ha⟩
    · exact hkept (hclear (.inl (List.ne_nil_of_mem hc)))
    · exact hkept (hclear (.inr (hbefore.dirty ⟨c, hc, ha⟩)))

/-- **When clearing storage can be undone.**  After any calls of `setStorage` on an account
that is there, its storage is cleared, and a rollback over any further calls gives all
slots their values at the savepoint, if and only if nothing of the overlay has been lost:
each slot that was not written since the savepoint had the value of the base root there.
An account with an empty base root or outside the cache is not cleared, so that all its
slots have to be zero. -/
theorem clearUndone_iff (hs : s.Settled a) (before later : List Write) :
    s.ClearUndone before later a ↔ s.Clearable before a := by
  obtain ⟨changes, g, hbefore, hg, hsame⟩ := exists_logged before hs
  have hclear : ∀ pick key, outcome (storage pick a key) (s.cleared before a) =
      .ok ((s.writes before).clearSlots a g key) :=
    fun pick key => (clearStorage_spec hg).2.1.outcome_storage pick key
  have hback := fun pick key => (slots_rollback later hbefore hg).outcome_storage pick key
  have hstart := fun pick key => Slots.outcome_storage hs pick key
  have hiff : s.ClearUndone before later a ↔
      (∀ key, (s.writes before).clearSlots a g key = 0) ∧
        ∀ key, s.restored before a (s.storageAt a) g key = s.storageAt a key := by
    simp only [ClearUndone, hclear, hback, hstart, Except.ok.injEq, forall_const]
  rw [hiff, Clearable]
  simp only [restored, clearChanges, clearSlots]
  cases hx : (s.writes before).cache[a]? with
  | none =>
      have hunwritten : ∀ key, ¬Writes before a key := by
        intro key hkey
        obtain ⟨x, hx', -⟩ := hbefore.written key hkey
        rw [hx] at hx'
        cases hx'
      have hempty : (dead : Account H).storageRoot.isEmpty = true := rfl
      simp only [entry_of_none hx, hempty, if_true, hunwritten, if_false, List.foldl_nil,
        implies_true, true_and, eq_comm]
  | some x =>
      simp only [entry_of_cache hx]
      cases hroot : x.storageRoot.isEmpty with
      | true =>
          have hkept : ∀ key, (if Writes before a key then s.storageAt a key else g key) =
              s.storageAt a key := by
            intro key
            split
            · rfl
            · next hkey => exact hsame key hkey
          simp only [if_true, List.foldl_nil, hkept, implies_true, and_true,
            hg.cached x hx]
      | false =>
          have hslot : ∀ key, ((if Writes before a key then s.storageAt a key
              else x.storageRoot.getD key 0) = s.storageAt a key) ↔
              (¬Writes before a key → s.storageAt a key = x.storageRoot.getD key 0) := by
            intro key
            split
            · next hkey => exact ⟨fun _ hne => absurd hkey hne, fun _ => rfl⟩
            · next hkey => exact ⟨fun h _ => h.symm, fun h => (h hkey).symm⟩
          simp only [Bool.false_eq_true, if_false, implies_true, true_and, List.foldl_cons,
            List.foldl_nil, unwind, if_true, hslot]

/-- A call of `setStorage` on the contract of `sample`. -/
def sampleWrite (key value : U256) : Write := ⟨fun _ => 0, 1, key, value⟩

theorem storageAt_sample (key : U256) :
    sample.storageAt 1 key = (ExtTreeMap.empty.insert 7 7 : StorageTrie).getD key 0 := by
  have hview : sample.view 1 = some (.ofLeaf ⟨1, 10, ExtTreeMap.empty.insert 7 7, [0]⟩) := by
    rw [view, sample, opened, ExtTreeMap.getElem?_empty, Option.none_or, getElem?_insert_eq,
      getElem?_insert_eq, if_neg (by decide), if_pos rfl]
    rfl
  rw [storageAt, hview]
  rfl

/-- The theorem at an account with one slot, which is written before and after. -/
theorem clearUndone_sample :
    ClearUndone sample [sampleWrite 7 8] [sampleWrite 3 9, sampleWrite 7 1] 1 := by
  have hs : Reachable sample := .opened _ _ _
  refine (clearUndone_iff (hs.coherent.settled (by decide +kernel)) _ _).mpr ?_
  have hroot : ∃ x ∈ (sample.writes [sampleWrite 7 8]).cache[(1 : Address)]?,
      x.storageRoot.toList = (ExtTreeMap.empty.insert 7 7 : StorageTrie).toList := by
    decide +kernel
  obtain ⟨x, hx, htrie⟩ := hroot
  rw [ExtTreeMap.toList_inj] at htrie
  have hfull : (ExtTreeMap.empty.insert 7 7 : StorageTrie).isEmpty = false := by decide +kernel
  rw [Clearable, hx]
  simp only [htrie, hfull, Bool.false_eq_true, if_false]
  exact fun key _ => storageAt_sample key

/-- A slot that was written before the savepoint and not committed is lost. -/
theorem overlay_lost :
    ∃ s : State Bytes, Reachable s ∧ (s.view 1).isSome = true ∧ ¬s.ClearUndone [] [] 1 := by
  have hs : Reachable sample := .opened _ _ _
  refine ⟨after (perform (.setStorage (fun _ => 0) 1 5 6)) sample, .perform hs trivial,
    by decide +kernel, fun h => ?_⟩
  have hslot := congrArg Except.toOption (h.2 (fun _ => 0) (fun _ => 0) 5)
  revert hslot
  decide +kernel

end CppSwc.State
