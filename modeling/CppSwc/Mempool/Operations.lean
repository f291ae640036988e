import CppSwc.Mempool.Indices

/-!
# What the operations do to the transaction queue

One theorem for each operation: from a sound queue, and if the sender of an imported
transaction can be recovered, it comes to its end, the queue is sound again, and a
relation says what has changed.  `Removed` is the relation of all paths by which
pending transactions leave.
-/

namespace CppSwc

open Lib Std

namespace TransactionQueue

variable {q q' q'' : TransactionQueue} {t x : Transaction} {env : Env} {b : Balance Transaction}

/-- A part that comes to its end goes on with the queue it leaves. -/
theorem ok_bind {ε α β : Type} (a : α) (f : α → Except ε β) : (Except.ok a >>= f) = f a := rfl

/-- The hash of every transaction held is known. -/
def Known (q : TransactionQueue) : Prop := ∀ t, q.Held t → t.sha3 ∈ q.known

/-- What is sound does not depend on the hashes that are known or dropped. -/
theorem Sound.withKnown (h : q.Sound) (known dropped : ExtTreeSet H256) :
    Sound { q with known := known, dropped := dropped } :=
  ⟨⟨⟨h.nodup, h.byHash, h.byNonce, h.occupied⟩, h.recoverable⟩, h.keyed, h.apart,
    h.occupiedFuture, h.distinct, h.counted⟩

/-! ## Removing pending transactions -/

/-- Pending transactions have left, with their hashes. -/
structure Removed (q q' : TransactionQueue) : Prop where
  pending : q'.pending.Sublist q.pending
  future : q'.future = q.future
  futureSize : q'.futureSize = q.futureSize
  known : ∀ h, h ∈ q'.known ↔ h ∈ q.known ∧ ∀ t ∈ q.pending, t ∉ q'.pending → t.sha3 ≠ h
  limit : q'.limit = q.limit
  futureLimit : q'.futureLimit = q.futureLimit

theorem Removed.refl : Removed q q :=
  ⟨.refl _, rfl, rfl, fun _ => ⟨fun h => ⟨h, fun _ ht ht' => absurd ht ht'⟩, fun h => h.1⟩, rfl, rfl⟩

theorem Removed.trans (h : Removed q q') (h' : Removed q' q'') : Removed q q'' := by
  refine ⟨h'.pending.trans h.pending, h'.future.trans h.future, h'.futureSize.trans h.futureSize,
    ?_, h'.limit.trans h.limit, h'.futureLimit.trans h.futureLimit⟩
  intro hash
  rw [h'.known, h.known]
  constructor
  · rintro ⟨⟨hknown, hfirst⟩, hsecond⟩
    refine ⟨hknown, ?_⟩
    intro t ht ht''
    by_cases ht' : t ∈ q'.pending
    · exact hsecond t ht' ht''
    · exact hfirst t ht ht'
  · rintro ⟨hknown, hboth⟩
    refine ⟨⟨hknown, ?_⟩, ?_⟩
    · intro t ht ht'
      exact hboth t ht fun ht'' => ht' (h'.pending.subset ht'')
    · intro t ht ht''
      exact hboth t (h.pending.subset ht) ht''

theorem Removed.held (h : Removed q q') (ht : q'.Held t) : q.Held t := by
  rcases ht with ht | ⟨a, n, ht⟩
  · exact .inl (h.pending.subset ht)
  · exact .inr ⟨a, n, h.future ▸ ht⟩

/-- Where all hashes are known, those of the transactions that stay are known. -/
theorem Removed.keeps_known (hs : q.Sound) (h : Removed q q') (hknown : q.Known) : q'.Known := by
  intro t ht
  rw [h.known]
  refine ⟨hknown t (h.held ht), ?_⟩
  intro t' ht' hgone heq
  cases hs.distinct t' t (.inl ht') (h.held ht) heq
  rcases ht with ht | ⟨a, n, ht⟩
  · exact hgone ht
  · rw [h.future] at ht
    obtain ⟨rfl, rfl, -⟩ := hs.keyed a n t ht
    rw [hs.apart t ht'] at ht
    cases ht

theorem removed_of_mem (h : q.Pending) (ht : t ∈ q.pending) (b : Balance Transaction) :
    Removed q (q.removed b t) := by
  refine ⟨?_, rfl, rfl, ?_, rfl, rfl⟩
  · rw [removed_pending]
    exact List.erase_sublist
  · intro hash
    rw [removed_pending, TransactionQueue.removed, mem_erase_iff]
    constructor
    · rintro ⟨hne, hknown⟩
      refine ⟨hknown, ?_⟩
      intro t' ht' hgone heq
      rw [h.nodup.mem_erase_iff, not_and'] at hgone
      cases not_not.mp (hgone ht')
      exact hne heq
    · rintro ⟨hknown, hgone⟩
      exact ⟨hgone t ht (by simp [h.nodup.mem_erase_iff]), hknown⟩

theorem Sound.removed (h : q.Sound) (ht : t ∈ q.pending) (b : Balance Transaction) :
    (q.removed b t).Sound := by
  have hremoved := removed_of_mem h.toPending ht b
  refine ⟨h.toPending.removed ht b, h.keyed, ?_, h.occupiedFuture, ?_, h.counted⟩
  · intro t' ht'
    exact h.apart t' (hremoved.pending.subset ht')
  · intro t₁ t₂ ht₁ ht₂
    exact h.distinct t₁ t₂ (hremoved.held ht₁) (hremoved.held ht₂)

/-- `remove` removes a pending transaction or nothing. -/
theorem Sound.remove (h : q.Sound) (hash : H256) (b : Balance Transaction) :
    ∃ q' removed, q.remove b hash = .ok (q', removed) ∧ q'.Sound ∧ Removed q q' ∧
      (∀ t ∈ q'.pending, t.sha3 ≠ hash) := by
  cases hfound : q.currentByHash[hash]? with
  | none =>
      refine ⟨q, false, by simp only [TransactionQueue.remove, hfound], h, .refl, ?_⟩
      intro t ht heq
      rw [(h.byHash hash t).mpr ⟨ht, heq⟩] at hfound
      cases hfound
  | some t =>
      obtain ⟨ht, rfl⟩ := (h.byHash hash t).mp hfound
      refine ⟨_, true, h.toPending.remove ht b, h.removed ht b, removed_of_mem h.toPending ht b, ?_⟩
      intro t' ht' heq
      rw [removed_pending, h.nodup.mem_erase_iff] at ht'
      exact ht'.1 (h.eq_of_hash ht'.2 ht heq)

/-- The loop that keeps the pending transactions within their limit. -/
theorem Sound.evictCurrent {n : Nat} (h : q.Sound) (hn : q.pending.length ≤ n)
    (b : Balance Transaction) :
    ∃ q', q.evictCurrent b n = .ok q' ∧ q'.Sound ∧ Removed q q' ∧ q'.pending.length ≤ q'.limit := by
  induction n generalizing q with
  | zero => exact ⟨q, rfl, h, .refl, by omega⟩
  | succ n ih =>
      simp only [TransactionQueue.evictCurrent]
      split
      · rename_i hle
        exact ⟨q, rfl, h, .refl, hle⟩
      · rename_i hgt
        have hne : q.pending ≠ [] := by
          intro hnil
          rw [hnil] at hgt
          exact hgt (Nat.zero_le _)
        have hlast := List.getLast?_eq_some_getLast hne
        have hmem := List.getLast_mem hne
        have hlength : (q.removed b (q.pending.getLast hne)).pending.length ≤ n := by
          rw [removed_pending, List.length_erase_of_mem hmem]
          omega
        obtain ⟨q', hok, hsound, hremoved, hle⟩ := ih (h.removed hmem b) hlength
        refine ⟨q', ?_, hsound, (removed_of_mem h.toPending hmem b).trans hremoved, hle⟩
        simp only [hlast, h.toPending.remove hmem b]
        exact hok

/-! ## Importing -/

theorem Sound.entered {current : SearchTree Transaction} {xs ys : List Transaction}
    (h : q.Sound) (hfresh : q.Fresh x) (hheld : ∀ t, q.Held t → t.sha3 ≠ x.sha3)
    (hfuture : lookup q.future x.safeSender x.nonce = none) (hx : x.sender.isSome = true)
    (hold : q.pending = xs ++ ys) (hnew : current.toList = xs ++ x :: ys) :
    (q.entered x current).Sound := by
  have hmem : ∀ t, t ∈ (q.entered x current).pending ↔ t = x ∨ t ∈ q.pending := by
    intro t
    rw [hold, pending, TransactionQueue.entered, hnew]
    simp only [List.mem_append, List.mem_cons]
    tauto
  have hcases : ∀ t, (q.entered x current).Held t → t = x ∨ q.Held t := by
    rintro t (ht | ht)
    · rcases (hmem t).mp ht with rfl | ht
      · exact .inl rfl
      · exact .inr (.inl ht)
    · exact .inr (.inr ht)
  refine ⟨h.toPending.entered hfresh hx hold hnew, h.keyed, ?_, h.occupiedFuture, ?_, h.counted⟩
  · intro t ht
    rcases (hmem t).mp ht with rfl | ht
    · exact hfuture
    · exact h.apart t ht
  · intro t₁ t₂ ht₁ ht₂ hhash
    rcases hcases t₁ ht₁ with heq₁ | hheld₁
    · rcases hcases t₂ ht₂ with heq₂ | hheld₂
      · exact heq₁.trans heq₂.symm
      · exact absurd (hhash.symm.trans (congrArg _ heq₁)) (hheld t₂ hheld₂)
    · rcases hcases t₂ ht₂ with heq₂ | hheld₂
      · exact absurd (hhash.trans (congrArg _ heq₂)) (hheld t₁ hheld₁)
      · exact h.distinct t₁ t₂ hheld₁ hheld₂ hhash

/-- `replaceCurrent` finds the pending transaction with the higher price, or leaves no
pending transaction with this sender and nonce. -/
theorem Sound.replaceCurrent (h : q.Sound) (t : Transaction) (b : Balance Transaction) :
    q.replaceCurrent b t = .ok (q, true) ∨
    ∃ q', q.replaceCurrent b t = .ok (q', false) ∧ q'.Sound ∧ Removed q q' ∧
      (∀ t' ∈ q'.pending, t'.safeSender = t.safeSender → t'.nonce ≠ t.nonce) ∧
      (q' = q ∨ lookup q.future t.safeSender t.nonce = none) := by
  simp only [TransactionQueue.replaceCurrent]
  cases hlookup : lookup q.currentByAddressAndNonce t.safeSender t.nonce with
  | none =>
      refine .inr ⟨q, rfl, h, .refl, ?_, .inl rfl⟩
      intro t' ht' hsender hnonce
      have hentry := h.lookup_of_mem ht'
      rw [hsender, hnonce, hlookup] at hentry
      cases hentry
  | some entry =>
      obtain ⟨old, hold, rfl, hsender, hnonce⟩ := (h.byNonce _ _ _).mp hlookup
      dsimp only
      split
      · exact .inl rfl
      · refine .inr ⟨q.removed b old, ?_, h.removed hold b, removed_of_mem h.toPending hold b, ?_,
          .inr (hsender ▸ hnonce ▸ h.apart old hold)⟩
        · rw [h.toPending.remove hold b]
          rfl
        · intro t' ht' hsender' hnonce'
          rw [removed_pending, h.nodup.mem_erase_iff] at ht'
          exact ht'.1 (h.eq_of_nonce ht'.2 hold (hsender'.trans hsender.symm)
            (hnonce'.trans hnonce.symm))

/-- So does `replaceFuture` with the future transactions. -/
theorem Sound.replaceFuture (h : q.Sound) (t : Transaction) :
    q.replaceFuture t = (q, true) ∨
    ∃ q', q.replaceFuture t = (q', false) ∧ q'.Sound ∧ q'.pending = q.pending ∧
      lookup q'.future t.safeSender t.nonce = none ∧ (∀ t', q'.Held t' → q.Held t') := by
  simp only [TransactionQueue.replaceFuture]
  cases hlookup : lookup q.future t.safeSender t.nonce with
  | none => exact .inr ⟨q, rfl, h, rfl, hlookup, fun _ h => h⟩
  | some old =>
      dsimp only
      split
      · exact .inl rfl
      · have hsound := h.eraseFuture (List.nodup_singleton t.nonce) (a := t.safeSender) (by
          intro n hn
          rw [List.mem_singleton.mp hn, hlookup]
          simp)
        refine .inr ⟨_, rfl, hsound, rfl, ?_, ?_⟩
        · exact lookup_eraseAt.trans (if_pos ⟨rfl, List.mem_singleton.mpr rfl⟩)
        · rintro t' (ht' | ⟨a, n, ht'⟩)
          · exact .inl ht'
          · dsimp only at ht'
            rw [lookup_eraseAt] at ht'
            split at ht'
            · cases ht'
            · exact .inr ⟨a, n, ht'⟩

/-- The stages of an import that is not turned down: the pending and the future
transaction with the same sender and nonce go, the new one is entered, those that
follow become pending, and the limit is kept. -/
structure Stored (q : TransactionQueue) (env : Env) (t : Transaction)
    (q₁ q₂ : TransactionQueue) (current : SearchTree Transaction) (q₃ q' : TransactionQueue) :
    Prop where
  replaceCurrent : q.replaceCurrent env.balance t = .ok (q₁, false)
  removed : Removed q q₁
  replaceFuture : q₁.replaceFuture t = (q₂, false)
  pending : q₂.pending = q₁.pending
  held : ∀ t', q₂.Held t' → q₁.Held t'
  sound : q₂.Sound
  fresh : q₂.Fresh t
  enter : q₂.enter env.balance t.safeSender t = .ok (q₂.entered t current)
  soundEntered : (q₂.entered t current).Sound
  makeCurrent : (q₂.entered t current).makeCurrent env t = .ok q₃
  advanced : Advanced (q₂.entered t current) t q₃
  soundAdvanced : q₃.Sound
  evicted : Removed { q₃ with known := q₃.known.insert t.sha3 } q'
  bounded : q'.pending.length ≤ q'.limit

/-- What an import does: nothing, or it stores the transaction. -/
inductive Imported (q : TransactionQueue) (env : Env) (t : Transaction) :
    TransactionQueue → Prop where
  | same : Imported q env t q
  | stored {q₁ q₂ : TransactionQueue} {current : SearchTree Transaction}
      {q₃ q' : TransactionQueue} : t.sha3 ∉ q.known → t.sender.isSome = true →
      Stored q env t q₁ q₂ current q₃ q' → Imported q env t q'

theorem entered_pending {current : SearchTree Transaction}
    (h : q.enter b x.safeSender x = .ok (q.entered x current)) :
    (q.entered x current).pending.Perm (x :: q.pending) := by
  obtain ⟨xs, ys, hcut, hpending⟩ := enter_cut h
  rw [hpending, hcut.split]
  exact List.perm_middle

/-- A new transaction is not among the pending hashes. -/
theorem Sound.contains_eq_false (h : q.Sound) (hfresh : q.Fresh t) :
    q.currentByHash.contains t.sha3 = false := by
  rw [← Bool.not_eq_true, ExtTreeMap.contains_iff_mem, ExtTreeMap.mem_iff_isSome_getElem?,
    Option.isSome_iff_exists]
  rintro ⟨t', ht'⟩
  obtain ⟨ht', heq⟩ := (h.byHash _ _).mp ht'
  exact (hfresh t' ht').1 heq

/-- An import that gets past the hashes that are known finds a higher price, or it stores
the transaction. -/
theorem Sound.exists_stored (h : q.Sound) (hknown : q.Known) (ht : t.sender.isSome = true)
    (hnew : t.sha3 ∉ q.known) (env : Env) :
    q.manageImportBody env t.sha3 t = .ok (q, .overbidGasPrice) ∧
      (q.replaceCurrent env.balance t = .ok (q, true) ∨ q.replaceFuture t = (q, true)) ∨
    ∃ q₁ q₂ current q₃ q', Stored q env t q₁ q₂ current q₃ q' ∧ q'.Sound ∧
      TransactionQueue.evictCurrent env.balance q₃.pending.length
        { q₃ with known := q₃.known.insert t.sha3 } = .ok q' ∧
      q.manageImportBody env t.sha3 t = .ok (q', .success) := by
  have hfresh : ∀ t', q.Held t' → t'.sha3 ≠ t.sha3 := by
    intro t' ht' heq
    exact hnew (heq ▸ hknown t' ht')
  rcases h.replaceCurrent t env.balance with
    hover | ⟨q₁, hcurrent, h₁, hremoved, hpair, hsame⟩
  · refine .inl ⟨?_, .inl hover⟩
    simp only [TransactionQueue.manageImportBody, hover]
    rfl
  · rcases h₁.replaceFuture t with hover | ⟨q₂, hfuture, h₂, hpending, hlookup, hheld⟩
    · -- The future has no transaction with this sender and nonce if one was pending.
      rcases hsame with rfl | hnone
      · refine .inl ⟨?_, .inr hover⟩
        simp only [TransactionQueue.manageImportBody, hcurrent, ok_bind, hover]
        rfl
      · simp only [TransactionQueue.replaceFuture, hremoved.future, hnone] at hover
        cases hover
    · have hheld₂ : ∀ t', q₂.Held t' → t'.sha3 ≠ t.sha3 := fun t' ht' =>
        hfresh t' (hremoved.held (hheld t' ht'))
      have hfresh₂ : q₂.Fresh t := by
        intro t' ht'
        exact ⟨hheld₂ t' (.inl ht'), hpair t' (hpending ▸ ht')⟩
      obtain ⟨current, henter⟩ := h₂.toPending.exists_enter hfresh₂ ht env.balance
      obtain ⟨xs, ys, hcut, hnewPending⟩ := enter_cut henter
      have h₂' : (q₂.entered t current).Sound :=
        h₂.entered hfresh₂ hheld₂ hlookup ht hcut.split hnewPending
      obtain ⟨q₃, hmake, h₃, hadvanced⟩ := h₂'.makeCurrent env t
      obtain ⟨q', hevict, hsound, hremoved', hle⟩ :=
        (h₃.withKnown (q₃.known.insert t.sha3) q₃.dropped).evictCurrent (Nat.le_refl _) env.balance
      have hinsert : q₂.insertCurrent env t.sha3 t =
          .ok { q₃ with known := q₃.known.insert t.sha3 } := by
        simp only [TransactionQueue.insertCurrent, h₂.contains_eq_false hfresh₂, henter, hmake, ok_bind,
          Bool.false_eq_true, if_false, pure, Except.pure]
      refine .inr ⟨q₁, q₂, current, q₃, q', ⟨hcurrent, hremoved, hfuture, hpending, hheld, h₂,
        hfresh₂, henter, h₂', hmake, hadvanced, h₃, hremoved', hle⟩, hsound, hevict, ?_⟩
      simp only [TransactionQueue.manageImportBody, hcurrent, ok_bind, hfuture, hinsert,
        Bool.false_eq_true, if_false]
      rw [hevict]
      rfl

/-- An import of a transaction whose sender can be recovered comes to its end. -/
theorem Sound.manageImportBody (h : q.Sound) (hknown : q.Known) (ht : t.sender.isSome = true)
    (hnew : t.sha3 ∉ q.known) (env : Env) :
    ∃ q' answer, q.manageImportBody env t.sha3 t = .ok (q', answer) ∧ q'.Sound ∧
      Imported q env t q' := by
  rcases h.exists_stored hknown ht hnew env with
    ⟨hover, -⟩ | ⟨q₁, q₂, current, q₃, q', hstored, hsound, -, hbody⟩
  · exact ⟨q, .overbidGasPrice, hover, h, .same⟩
  · exact ⟨q', .success, hbody, hsound, .stored hnew ht hstored⟩

theorem replaceFuture_known (q : TransactionQueue) (t : Transaction) :
    (q.replaceFuture t).1.known = q.known := by
  simp only [TransactionQueue.replaceFuture]
  split
  · rfl
  · split <;> rfl

/-- After an import the hashes of all transactions held are known. -/
theorem Imported.known (hs : q.Sound) (hknown : q.Known) (h : Imported q env t q') : q'.Known := by
  cases h with
  | same => exact hknown
  | @stored q₁ q₂ current q₃ _ hnew _ h =>
      have hknown₁ := h.removed.keeps_known hs hknown
      have hknown₂ : q₃.known = q₁.known := by
        have := replaceFuture_known q₁ t
        rw [h.replaceFuture] at this
        exact h.advanced.known.trans this
      refine h.evicted.keeps_known (h.soundAdvanced.withKnown _ _) ?_
      intro t' ht'
      dsimp only
      rw [mem_insert_iff, hknown₂]
      rcases h.advanced.held ht' with ht' | ht'
      · rcases List.mem_cons.mp ((entered_pending h.enter).mem_iff.mp ht') with rfl | ht'
        · exact .inl rfl
        · exact .inr (hknown₁ t' (h.held t' (.inl ht')))
      · exact .inr (hknown₁ t' (h.held t' (.inr ht')))

/-- `import` of a transaction whose sender can be recovered. -/
theorem Sound.import (h : q.Sound) (hknown : q.Known) (ht : t.sender.isSome = true) (env : Env)
    (ik : IfDropped) :
    ∃ q' answer, q.import env t ik = some (q', answer) ∧ q'.Sound ∧ Imported q env t q' := by
  simp only [TransactionQueue.import]
  split
  · exact ⟨q, _, rfl, h, .same⟩
  · split
    · exact ⟨q, _, rfl, h, .same⟩
    · split
      · rename_i hcheck
        have hnew : t.sha3 ∉ q.known := by
          intro hmem
          rw [check, if_pos (ExtTreeSet.contains_iff_mem.mpr hmem)] at hcheck
          cases hcheck
        obtain ⟨q', answer, hbody, hsound, himported⟩ := h.manageImportBody hknown ht hnew env
        refine ⟨q', some answer, ?_, hsound, himported⟩
        simp only [manageImport, hbody]
        rfl
      · exact ⟨q, _, rfl, h, .same⟩

/-! ## Dropping -/

theorem Sound.drop (h : q.Sound) (hash : H256) (env : Env) :
    ∃ q', q.drop env hash = .ok q' ∧ q'.Sound ∧ Removed q q' := by
  simp only [TransactionQueue.drop]
  split
  · obtain ⟨q', removed, hok, hsound, hremoved, -⟩ :=
      (h.withKnown q.known (q.dropped.insert hash)).remove hash env.balance
    refine ⟨q', by rw [hok]; rfl, hsound, ⟨hremoved.pending, hremoved.future, hremoved.futureSize,
      hremoved.known, hremoved.limit, hremoved.futureLimit⟩⟩
  · exact ⟨q, rfl, h, .refl⟩

/-- `dropGood` moves on to the transactions that follow, and then removes. -/
theorem Sound.dropGood (h : q.Sound) (t : Transaction) (env : Env) :
    ∃ q₁ q', settle (q.dropGood env t) = some q' ∧ q.makeCurrent env t = .ok q₁ ∧
      Advanced q t q₁ ∧ q₁.Sound ∧ Removed q₁ q' ∧ q'.Sound ∧
      (t.isSigned = true → t.sha3 ∈ q.known → ∀ t' ∈ q'.pending, t'.sha3 ≠ t.sha3) := by
  obtain ⟨q₁, hmake, h₁, hadvanced⟩ := h.makeCurrent env t
  simp only [TransactionQueue.dropGood, hmake, ok_bind]
  cases hsigned : t.isSigned with
  | false => exact ⟨q₁, q₁, rfl, rfl, hadvanced, h₁, .refl, h₁, nofun⟩
  | true =>
      simp only [Bool.not_true, Bool.false_eq_true, if_false]
      split
      · obtain ⟨q', removed, hok, hsound, hremoved, hgone⟩ := h₁.remove t.sha3 env.balance
        refine ⟨q₁, q', ?_, rfl, hadvanced, h₁, hremoved, hsound, fun _ _ => hgone⟩
        rw [hok]
        rfl
      · rename_i hunknown
        refine ⟨q₁, q₁, rfl, rfl, hadvanced, h₁, .refl, h₁, ?_⟩
        intro _ hmem
        rw [hadvanced.known] at hunknown
        exact absurd (ExtTreeSet.contains_iff_mem.mpr hmem) hunknown

/-! ## Moving transactions to the future -/

/-- The queue with one pending transaction moved to the future. -/
def deferred (b : Balance Transaction) (t : Transaction) (q : TransactionQueue) :
    TransactionQueue :=
  { q with
    currentByHash := q.currentByHash.erase t.sha3
    future := insertAt q.future t.safeSender t.nonce t
    current := b.rebalance (q.current.erase t)
    futureSize := q.futureSize + 1
    currentByAddressAndNonce := eraseAt q.currentByAddressAndNonce t.safeSender [t.nonce] }

theorem deferred_held (h : q.Sound) (ht : t ∈ q.pending) (t' : Transaction) :
    (q.deferred b t).Held t' ↔ q.Held t' := by
  have hpending : (q.deferred b t).pending = q.pending.erase t := removed_pending b t q
  rw [Held, Held, hpending, h.nodup.mem_erase_iff]
  constructor
  · rintro (ht' | ⟨a, n, ht'⟩)
    · exact .inl ht'.2
    · rw [deferred, lookup_insertAt] at ht'
      split at ht'
      · cases ht'
        exact .inl ht
      · exact .inr ⟨a, n, ht'⟩
  · rintro (ht' | ⟨a, n, ht'⟩)
    · by_cases heq : t' = t
      · subst heq
        exact .inr ⟨t'.safeSender, t'.nonce, lookup_insertAt.trans (if_pos ⟨rfl, rfl⟩)⟩
      · exact .inl ⟨heq, ht'⟩
    · refine .inr ⟨a, n, lookup_insertAt.trans ?_⟩
      rw [if_neg, ht']
      rintro ⟨rfl, rfl⟩
      rw [h.apart t ht] at ht'
      cases ht'

theorem Sound.deferred (h : q.Sound) (ht : t ∈ q.pending) (b : Balance Transaction) :
    (q.deferred b t).Sound := by
  have hpending := h.toPending.removed ht b
  have hheld := fun t' => deferred_held (b := b) h ht t'
  refine ⟨⟨⟨hpending.nodup, hpending.byHash, hpending.byNonce, hpending.occupied⟩,
    hpending.recoverable⟩, ?_, ?_, ?_, ?_, ?_⟩
  · intro a n t' ht'
    rw [TransactionQueue.deferred, lookup_insertAt] at ht'
    split at ht'
    · rename_i heq
      cases ht'
      exact ⟨heq.1, heq.2, h.recoverable t ht⟩
    · exact h.keyed a n t' ht'
  · intro t' ht'
    have hmem : t' ∈ q.pending.erase t := removed_pending b t q ▸ ht'
    obtain ⟨hne, hmem⟩ := h.nodup.mem_erase_iff.mp hmem
    rw [TransactionQueue.deferred, lookup_insertAt, if_neg, h.apart t' hmem]
    rintro ⟨hsender, hnonce⟩
    exact hne (h.eq_of_nonce hmem ht hsender.symm hnonce.symm)
  · exact h.occupiedFuture.insertAt _ _ _
  · intro t₁ t₂ ht₁ ht₂
    exact h.distinct t₁ t₂ ((hheld t₁).mp ht₁) ((hheld t₂).mp ht₂)
  · rw [TransactionQueue.deferred]
    dsimp only
    rw [total_insertAt (h.apart t ht), h.counted]

/-- What `setFuture` does: some pending transactions wait in the future. -/
structure Deferred (q : TransactionQueue) (count : Nat) (q' : TransactionQueue) : Prop where
  pending : q'.pending.Sublist q.pending
  held : ∀ t, q'.Held t ↔ q.Held t
  known : q'.known = q.known
  futureSize : q'.futureSize = q.futureSize + count
  limit : q'.limit = q.limit
  futureLimit : q'.futureLimit = q.futureLimit

/-- The loop of `setFuture` does not look at the index by sender and nonce. -/
theorem demote_withNonces {a : Address} {es : List (U256 × Option Transaction)}
    (nonces : ExtTreeMap Address (ExtTreeMap U256 (Option Transaction)))
    (h : { q with currentByAddressAndNonce := nonces }.demote b a es = .ok q') :
    q.demote b a es = .ok { q' with currentByAddressAndNonce := q.currentByAddressAndNonce } ∧
      q'.currentByAddressAndNonce = nonces := by
  induction es generalizing q with
  | nil =>
      cases h
      exact ⟨rfl, rfl⟩
  | cons e es ih =>
      obtain ⟨n, entry⟩ := e
      cases entry with
      | none => cases h
      | some t => exact ih h

/-- The loop of `setFuture`, with the entries it leaves to the end. -/
theorem Sound.demote {a : Address} {es : List (U256 × Option Transaction)} (h : q.Sound)
    (hes : ∀ e ∈ es, ∃ t ∈ q.pending, e = (t.nonce, some t) ∧ t.safeSender = a)
    (hnodup : (es.map Prod.fst).Nodup) (b : Balance Transaction) :
    ∃ q', q.demote b a es = .ok q' ∧
      Sound { q' with
        currentByAddressAndNonce := eraseAt q'.currentByAddressAndNonce a (es.map Prod.fst) } ∧
      Deferred q es.length { q' with
        currentByAddressAndNonce := eraseAt q'.currentByAddressAndNonce a (es.map Prod.fst) } := by
  induction es generalizing q with
  | nil =>
      refine ⟨q, rfl, ?_⟩
      rw [List.map_nil, eraseAt_nil fun g hg => h.occupied a g hg]
      exact ⟨h, .refl _, fun _ => Iff.rfl, rfl, rfl, rfl, rfl⟩
  | cons e es ih =>
      obtain ⟨t, ht, rfl, rfl⟩ := hes e (.head _)
      rw [List.map_cons, List.nodup_cons] at hnodup
      have hpending : (q.deferred b t).pending = q.pending.erase t := removed_pending b t q
      -- The other entries are those of transactions that are still pending.
      have hrest : ∀ e ∈ es, ∃ t' ∈ (q.deferred b t).pending,
          e = (t'.nonce, some t') ∧ t'.safeSender = t.safeSender := by
        intro e he
        obtain ⟨t', ht', rfl, hsender⟩ := hes e (.tail _ he)
        refine ⟨t', ?_, rfl, hsender⟩
        rw [hpending, h.nodup.mem_erase_iff]
        refine ⟨?_, ht'⟩
        rintro rfl
        exact hnodup.1 (List.mem_map_of_mem he)
      obtain ⟨q', hok, hsound, hdeferred⟩ := ih (h.deferred ht b) hrest hnodup.2
      obtain ⟨hok', hnonces⟩ := demote_withNonces
        (q := { q.deferred b t with currentByAddressAndNonce := q.currentByAddressAndNonce })
        (eraseAt q.currentByAddressAndNonce t.safeSender [t.nonce]) hok
      refine ⟨{ q' with currentByAddressAndNonce := q.currentByAddressAndNonce }, ?_, ?_⟩
      · simp only [TransactionQueue.demote]
        rw [h.apart t ht]
        exact hok'
      · have hkeys : eraseAt q.currentByAddressAndNonce t.safeSender (t.nonce :: es.map Prod.fst) =
            eraseAt q'.currentByAddressAndNonce t.safeSender (es.map Prod.fst) := by
          rw [hnonces, eraseAt_cons]
        rw [List.map_cons]
        dsimp only
        rw [hkeys]
        refine ⟨hsound, ?_, ?_, hdeferred.known, ?_, hdeferred.limit, hdeferred.futureLimit⟩
        · refine hdeferred.pending.trans ?_
          rw [hpending]
          exact List.erase_sublist
        · intro t'
          exact (hdeferred.held t').trans (deferred_held h ht t')
        · rw [hdeferred.futureSize, List.length_cons, TransactionQueue.deferred]
          dsimp only
          omega

/-- The empty map that `m_future[from]` makes is filled at once. -/
theorem demote_touch {a : Address} {n : U256} {es : List (U256 × Option Transaction)}
    (h : lookup q.future a t.nonce = none) :
    { q with future := q.future.insert a (group q.future a) }.demote b a ((n, some t) :: es) =
      q.demote b a ((n, some t) :: es) := by
  simp only [demote]
  rw [lookup_touch, insertAt_touch, h]
  rfl

/-- The entries of a sender from a nonce on belong to pending transactions. -/
theorem Sound.fromNonce (h : q.Sound) (t : Transaction) {e : U256 × Option Transaction}
    (he : e ∈ q.fromNonce t) :
    ∃ t' ∈ q.pending, e = (t'.nonce, some t') ∧ t'.safeSender = t.safeSender := by
  have hmem := (List.dropWhile_sublist _).subset he
  have hentry : lookup q.currentByAddressAndNonce t.safeSender e.1 = some e.2 := by
    rw [← group_getElem?]
    exact getElem?_of_mem_toList hmem
  obtain ⟨t', ht', hvalue, hsender, hnonce⟩ := (h.byNonce _ _ _).mp hentry
  exact ⟨t', ht', by rw [hnonce, ← hvalue], hsender⟩

theorem mem_fromNonce (h : q.Sound) (ht : t ∈ q.pending) :
    (t.nonce, some t) ∈ q.fromNonce t := by
  have hsorted := pairwise_bitVec_lt_toList (group q.currentByAddressAndNonce t.safeSender)
  refine (mem_dropWhile_of_pairwise ?_).mpr ⟨?_, ?_⟩
  · refine hsorted.imp fun {e e'} hlt hbelow => ?_
    rw [decide_eq_true_eq] at hbelow ⊢
    exact BitVec.lt_trans hlt hbelow
  · rw [ExtTreeMap.mem_toList_iff_getElem?_eq_some, group_getElem?]
    exact h.lookup_of_mem ht
  · rw [decide_eq_false_iff_not]
    exact BitVec.lt_irrefl _

theorem Sound.setFuture (h : q.Sound) (hash : H256) (env : Env) :
    ∃ q', q.setFuture env hash = .ok q' ∧ q'.Sound ∧
      (q' = q ∨ ∃ st, q.currentByHash[hash]? = some st ∧ Deferred q (q.fromNonce st).length q') := by
  simp only [TransactionQueue.setFuture]
  cases hfound : q.currentByHash[hash]? with
  | none => exact ⟨q, rfl, h, .inl rfl⟩
  | some st =>
      obtain ⟨hst, -⟩ := (h.byHash hash st).mp hfound
      have hnodup : ((q.fromNonce st).map Prod.fst).Nodup :=
        ((List.dropWhile_sublist _).map Prod.fst).nodup (nodup_map_fst_toList _)
      obtain ⟨q', hok, hsound, hdeferred⟩ :=
        h.demote (fun e he => h.fromNonce st he) hnodup env.balance
      -- The transaction itself is among the entries, so the loop has a first round.
      have htouch : { q with
          future := q.future.insert st.safeSender (group q.future st.safeSender) }.demote
            env.balance st.safeSender (q.fromNonce st) =
          q.demote env.balance st.safeSender (q.fromNonce st) := by
        have hmem := mem_fromNonce h hst
        cases hlist : q.fromNonce st with
        | nil =>
            rw [hlist] at hmem
            cases hmem
        | cons e es =>
            obtain ⟨t', ht', rfl, hsender⟩ := h.fromNonce st (hlist ▸ List.mem_cons_self)
            exact demote_touch (hsender ▸ h.apart t' ht')
      refine ⟨_, ?_, hsound, .inr ⟨st, rfl, hdeferred⟩⟩
      dsimp only
      rw [htouch, hok]
      rfl

/-! ## Runs -/

/-- The sender of an imported transaction can be recovered. -/
def recoverable : Op → Bool
  | .import _ t _ => t.sender.isSome
  | _ => true

/-- A sound queue whose transactions are known. -/
structure Consistent (q : TransactionQueue) : Prop where
  sound : q.Sound
  known : q.Known

theorem consistent_empty (limit futureLimit : Nat) :
    Consistent { limit := limit, futureLimit := futureLimit } := by
  have hpending : pending { limit := limit, futureLimit := futureLimit } = [] := rfl
  have hheld : ∀ t, ¬ Held { limit := limit, futureLimit := futureLimit } t := by
    rintro t (ht | ⟨a, n, ht⟩)
    · rw [hpending] at ht
      cases ht
    · rw [lookup_empty] at ht
      cases ht
  refine ⟨⟨⟨⟨List.nodup_nil, ?_, ?_, occupied_empty⟩, nofun⟩, ?_, nofun, occupied_empty, ?_, rfl⟩, ?_⟩
  · intro hash t
    rw [hpending]
    simp
  · intro a n entry
    rw [hpending, lookup_empty]
    simp
  · intro a n t ht
    rw [lookup_empty] at ht
    cases ht
  · intro t t' ht
    exact absurd ht (hheld t)
  · intro t ht
    exact absurd ht (hheld t)

/-- What each operation does. -/
inductive Effect (q : TransactionQueue) : Op → TransactionQueue → Prop where
  | imported {env : Env} {t : Transaction} {ik : IfDropped} {q' : TransactionQueue} :
      Imported q env t q' → Effect q (.import env t ik) q'
  | dropped {env : Env} {hash : H256} {q' : TransactionQueue} :
      Removed q q' → Effect q (.drop env hash) q'
  | dropGood {env : Env} {t : Transaction} {q₁ q' : TransactionQueue} :
      q.makeCurrent env t = .ok q₁ → Advanced q t q₁ → q₁.Sound → Removed q₁ q' →
      (t.isSigned = true → t.sha3 ∈ q.known → ∀ t' ∈ q'.pending, t'.sha3 ≠ t.sha3) →
      Effect q (.dropGood env t) q'
  | unchanged {env : Env} {hash : H256} : Effect q (.setFuture env hash) q
  | deferred {env : Env} {hash : H256} {st : Transaction} {q' : TransactionQueue} :
      q.currentByHash[hash]? = some st → Deferred q (q.fromNonce st).length q' →
      Effect q (.setFuture env hash) q'
  | cleared : Effect q .clear q.clear

/-- **Where the sender of an imported transaction can be recovered, every operation
comes to its end and leaves a consistent queue.** -/
theorem Consistent.step (h : q.Consistent) {op : Op} (hop : recoverable op = true) :
    ∃ q', step q op = some q' ∧ q'.Consistent ∧ Effect q op q' := by
  cases op with
  | «import» env t ik =>
      obtain ⟨q', answer, hok, hsound, himported⟩ := h.sound.import h.known hop env ik
      refine ⟨q', ?_, ⟨hsound, himported.known h.sound h.known⟩, .imported himported⟩
      simp only [TransactionQueue.step, hok]
      rfl
  | drop env hash =>
      obtain ⟨q', hok, hsound, hremoved⟩ := h.sound.drop hash env
      refine ⟨q', ?_, ⟨hsound, hremoved.keeps_known h.sound h.known⟩, .dropped hremoved⟩
      simp only [TransactionQueue.step, hok]
      rfl
  | dropGood env t =>
      obtain ⟨q₁, q', hok, hmake, hadvanced, h₁, hremoved, hsound, hgone⟩ := h.sound.dropGood t env
      have hknown₁ : q₁.Known := by
        intro t' ht'
        rw [hadvanced.known]
        exact h.known t' (hadvanced.held ht')
      exact ⟨q', hok, ⟨hsound, hremoved.keeps_known h₁ hknown₁⟩,
        .dropGood hmake hadvanced h₁ hremoved hgone⟩
  | setFuture env hash =>
      obtain ⟨q', hok, hsound, rfl | ⟨st, hst, hdeferred⟩⟩ := h.sound.setFuture hash env
      · refine ⟨q', ?_, h, .unchanged⟩
        simp only [TransactionQueue.step, hok]
        rfl
      · refine ⟨q', ?_, ⟨hsound, ?_⟩, .deferred hst hdeferred⟩
        · simp only [TransactionQueue.step, hok]
          rfl
        · intro t ht
          rw [hdeferred.known]
          exact h.known t ((hdeferred.held t).mp ht)
  | clear => exact ⟨q.clear, rfl, consistent_empty q.limit q.futureLimit, .cleared⟩

/-- A property of the empty queue that the effects of the admitted operations keep
holds in every queue reached by them. -/
theorem reach_invariant {I : TransactionQueue → Prop} {ok : TransactionQueue → Op → Prop}
    (hok : ∀ q op, ok q op → recoverable op = true)
    (hempty : ∀ limit futureLimit, I { limit := limit, futureLimit := futureLimit })
    (keep : ∀ q op q', q.Consistent → ok q op → step q op = some q' → Effect q op q' → I q → I q')
    (h : system.Reach ok q) : q.Consistent ∧ I q := by
  refine System.Reach.invariant (I := fun q => q.Consistent ∧ I q) ?_ ?_ h
  · rintro q ⟨limit, futureLimit, rfl⟩
    exact ⟨consistent_empty limit futureLimit, hempty limit futureLimit⟩
  · rintro q op q' - ⟨hq, hI⟩ hop hstep
    obtain ⟨q₁, hstep', hq₁, heffect⟩ := hq.step (hok q op hop)
    cases hstep.symm.trans hstep'
    exact ⟨hq₁, keep q op q' hq hop hstep heffect hI⟩

/-- The containers describe one set of transactions. -/
structure OneSet (q : TransactionQueue) : Prop where
  /-- The multiset and its two indices hold the same transactions, each once, and no
  sender has an empty map. -/
  indexed : q.Indexed
  /-- No sender and nonce occur twice among the pending transactions. -/
  pairs : (q.pending.map fun t => (t.safeSender, t.nonce)).Nodup
  /-- Future transactions are found by their sender and nonce. -/
  keyed : ∀ a n t, lookup q.future a n = some t → t.safeSender = a ∧ t.nonce = n
  /-- No sender and nonce occur among both. -/
  apart : ∀ t ∈ q.pending, lookup q.future t.safeSender t.nonce = none
  /-- No sender has an empty map of future transactions. -/
  occupiedFuture : Occupied q.future
  /-- The counter is right. -/
  counted : q.futureSize = total q.future

theorem Sound.oneSet (h : q.Sound) : q.OneSet := by
  refine ⟨h.toIndexed, ?_, fun a n t ht => ⟨(h.keyed a n t ht).1, (h.keyed a n t ht).2.1⟩, h.apart,
    h.occupiedFuture, h.counted⟩
  rw [List.Nodup, List.pairwise_map]
  refine h.nodup.imp_of_mem ?_
  intro t t' ht ht' hne heq
  obtain ⟨hsender, hnonce⟩ := Prod.mk.inj heq
  exact hne (h.eq_of_nonce ht ht' hsender hnonce)

/-- **Along every run in which the senders of the imported transactions can be
recovered, the containers of the queue describe one set of transactions.** -/
theorem containers_describe_one_set
    (h : system.Reach (fun _ op => recoverable op = true) q) : q.OneSet := by
  have hsound := (reach_invariant (I := fun _ => True) (fun _ _ hop => hop) (fun _ _ => trivial)
    (fun _ _ _ _ _ _ _ _ => trivial) h).1.sound
  exact hsound.oneSet

/-! ## Transactions to evaluate on -/

/-- A transaction with a number for its hash. -/
def sampleTransaction (hash nonce gasPrice : Nat) (sender : Option Nat) : Transaction :=
  { sha3 := .ofNat 256 hash, nonce := .ofNat 256 nonce, gasPrice := .ofNat 256 gasPrice
    sender := sender.map (.ofNat 160) }

/-- Containers that take the first key and do not rebalance. -/
def sampleEnv : Env := { begins := fun _ => 0, balance := .none _ }

/-- The import of a transaction. -/
def sampleImport (hash nonce gasPrice : Nat) (sender : Option Nat) : Op :=
  .import sampleEnv (sampleTransaction hash nonce gasPrice sender) .ignore

/-- Two transactions of one sender are pending, and one waits. -/
theorem containers_describe_one_set_three :
    ∃ q, system.Reach (fun _ op => recoverable op = true) q ∧ q.pending.length = 2 ∧
      q.futureSize = 1 ∧ q.OneSet := by
  have hstart : system.Reach (fun _ op => recoverable op = true)
      { limit := 8, futureLimit := 8 } := .init ⟨8, 8, rfl⟩
  obtain ⟨q, hreach, hq⟩ := hstart.exists_of_check
    [sampleImport 1 0 5 (some 2), sampleImport 2 0 6 (some 3), sampleImport 3 1 6 (some 3),
      .setFuture sampleEnv 3]
    (p := fun q => q.pending.length == 2 && q.futureSize == 1)
    (by decide +kernel) (by decide +kernel)
  rw [Bool.and_eq_true, beq_iff_eq, beq_iff_eq] at hq
  exact ⟨q, hreach, hq.1, hq.2, containers_describe_one_set hreach⟩

/-- The import of a transaction whose sender cannot be recovered fails, and leaves an
index entry without a transaction. -/
theorem unrecoverable_sender_leaves_entry :
    ∃ q, system.Reach (fun _ _ => True) q ∧ ¬ q.OneSet := by
  have hstart : system.Reach (fun _ _ => True) { limit := 8, futureLimit := 8 } :=
    .init ⟨8, 8, rfl⟩
  obtain ⟨q, hreach, hq⟩ := hstart.exists_of_check
    [sampleImport 1 0 5 (some 2), sampleImport 2 7 5 none]
    (p := fun q => lookup q.currentByAddressAndNonce 0 7 == some none)
    (by decide +kernel) (by decide +kernel)
  refine ⟨q, hreach, ?_⟩
  intro h
  obtain ⟨t, -, hentry, -⟩ := (h.indexed.byNonce 0 7 none).mp (beq_iff_eq.mp hq)
  cases hentry

end TransactionQueue

end CppSwc
