import CppSwc.Mempool.Operations

/-!
# Known hashes and limits

`m_known` is meant to hold the hashes of the transactions in both sets.
`remove_WITH_LOCK` takes the hash of a pending transaction out of it.  A future
transaction that is replaced by an import, or dropped to keep the future within its
limit, leaves its hash behind, and is answered `AlreadyKnown` from then on.

The limits are kept by `manageImport` for the pending transactions and by
`makeCurrent` for the future ones.  `setFuture` adds to the future and `dropGood` to
the pending transactions, and neither looks at the limit.
-/

namespace CppSwc

open Lib Std

namespace TransactionQueue

variable {q q' : TransactionQueue} {t : Transaction} {env : Env}

/-! ## Known hashes -/

/-- The hashes that are known are those of the transactions held. -/
def Exact (q : TransactionQueue) : Prop := ∀ h, h ∈ q.known ↔ ∃ t, q.Held t ∧ t.sha3 = h

/-- An import is turned down before it changes anything. -/
def turnedDown (q : TransactionQueue) (t : Transaction) (ik : IfDropped) : Bool :=
  t.hasZeroSignature || !t.isSigned || q.check t.sha3 ik != .success ||
    (lookup q.currentByAddressAndNonce t.safeSender t.nonce).any
      (fun entry => entry.any fun old => t.gasPrice < old.gasPrice) ||
    (lookup q.future t.safeSender t.nonce).any fun old => t.gasPrice < old.gasPrice

/-- The operation neither replaces a future transaction nor drops one to keep the
future within its limit. -/
def keepsFuture (q : TransactionQueue) : Op → Bool
  | .import _ t ik => q.turnedDown t ik ||
      (lookup q.future t.safeSender t.nonce).isNone &&
        q.futureSize - (q.promoted t).length ≤ q.futureLimit
  | .dropGood _ t => q.futureSize - (q.promoted t).length ≤ q.futureLimit
  | _ => true

theorem exact_empty (limit futureLimit : Nat) :
    Exact { limit := limit, futureLimit := futureLimit } := by
  intro hash
  simp [Held, pending, SearchTree.toList, lookup]

/-- An import that is turned down changes nothing. -/
theorem step_of_turnedDown (h : q.Sound) {ik : IfDropped} (hdown : q.turnedDown t ik = true) :
    step q (.import env t ik) = some q := by
  simp only [step, TransactionQueue.import]
  split
  · rfl
  · rename_i hzero
    split
    · rfl
    · rename_i hsigned
      split
      · rename_i hcheck
        -- Only a higher price is left as a reason.
        simp only [turnedDown, hcheck, Bool.or_eq_true, hzero, hsigned, bne_self_eq_false,
          Bool.false_eq_true, false_or, Option.any_eq_true, decide_eq_true_eq] at hdown
        rcases hdown with ⟨entry, hentry, old, rfl, hprice⟩ | ⟨old, hold, hprice⟩
        · simp only [manageImport, manageImportBody, replaceCurrent, hentry, if_pos hprice, ok_bind]
          rfl
        · have hnone : lookup q.currentByAddressAndNonce t.safeSender t.nonce = none := by
            cases hentry : lookup q.currentByAddressAndNonce t.safeSender t.nonce with
            | none => rfl
            | some entry =>
                obtain ⟨t', ht', -, hsender, hnonce⟩ := (h.byNonce _ _ _).mp hentry
                have happart := h.apart t' ht'
                rw [hsender, hnonce, hold] at happart
                cases happart
          simp only [manageImport, manageImportBody, replaceCurrent, hnone, ok_bind, replaceFuture,
            hold, if_pos hprice]
          rfl
      · rfl

theorem Removed.exact (h : Removed q q') (hexact : q.Exact) (hknown' : q'.Known) : q'.Exact := by
  intro hash
  constructor
  · intro hmem
    rw [h.known] at hmem
    obtain ⟨t, ht, rfl⟩ := (hexact hash).mp hmem.1
    refine ⟨t, ?_, rfl⟩
    rcases ht with ht | ⟨a, n, ht⟩
    · by_cases hstays : t ∈ q'.pending
      · exact .inl hstays
      · exact absurd rfl (hmem.2 t ht hstays)
    · exact .inr ⟨a, n, h.future ▸ ht⟩
  · rintro ⟨t, ht, rfl⟩
    exact hknown' t ht

/-- The hashes stay exact through an import that keeps the future. -/
theorem Stored.exact {q₁ q₂ q₃ : TransactionQueue} {current : SearchTree Transaction}
    (hq : q.Consistent) (hq' : q'.Consistent) (h : Stored q env t q₁ q₂ current q₃ q')
    (hfuture : lookup q.future t.safeSender t.nonce = none)
    (hroom : q.futureSize - (q.promoted t).length ≤ q.futureLimit) (hexact : q.Exact) :
    q'.Exact := by
  have hexact₁ := h.removed.exact hexact (h.removed.keeps_known hq.sound hq.known)
  -- There was nothing to replace in the future.
  have hsame : q₂ = q₁ := by
    have hreplace := h.replaceFuture
    simp only [TransactionQueue.replaceFuture, h.removed.future, hfuture] at hreplace
    exact (Prod.mk.inj hreplace).1.symm
  subst hsame
  have hpromoted : (q₂.entered t current).promoted t = q.promoted t := by
    simp only [promoted, entered, h.removed.future]
  have hkept := h.advanced.kept (by
    rw [hpromoted]
    simp only [entered, h.removed.futureSize, h.removed.futureLimit]
    exact hroom)
  have hmem : ∀ t', (q₂.entered t current).Held t' ↔ t' = t ∨ q₂.Held t' := by
    intro t'
    rw [Held, (entered_pending h.enter).mem_iff, List.mem_cons, or_assoc]
    rfl
  have hexact₃ : Exact { q₃ with known := q₃.known.insert t.sha3 } := by
    intro hash
    dsimp only
    have hheld : ∀ t', Held { q₃ with known := q₃.known.insert t.sha3 } t' ↔
        t' = t ∨ q₂.Held t' := by
      intro t'
      rw [← hmem t']
      exact ⟨fun ht' => h.advanced.held ht', hkept t'⟩
    have hknown₃ : q₃.known = q₂.known := h.advanced.known
    rw [mem_insert_iff, hknown₃, hexact₁ hash]
    constructor
    · rintro (rfl | ⟨t', ht', rfl⟩)
      · exact ⟨t, (hheld t).mpr (.inl rfl), rfl⟩
      · exact ⟨t', (hheld t').mpr (.inr ht'), rfl⟩
    · rintro ⟨t', ht', rfl⟩
      rcases (hheld t').mp ht' with rfl | ht'
      · exact .inl rfl
      · exact .inr ⟨t', ht', rfl⟩
  exact h.evicted.exact hexact₃ hq'.known

theorem exact_effect {op : Op} (hq : q.Consistent) (hq' : q'.Consistent)
    (hkeeps : q.keepsFuture op = true) (hstep : step q op = some q') (heffect : Effect q op q')
    (hexact : q.Exact) : q'.Exact := by
  cases heffect with
  | imported himported =>
      rename_i env t ik
      rw [keepsFuture, Bool.or_eq_true, Bool.and_eq_true, Option.isNone_iff_eq_none,
        decide_eq_true_eq] at hkeeps
      rcases hkeeps with hdown | ⟨hfuture, hroom⟩
      · rw [step_of_turnedDown hq.sound hdown] at hstep
        cases hstep
        exact hexact
      · cases himported with
        | same => exact hexact
        | stored _ _ hstored => exact hstored.exact hq hq' hfuture hroom hexact
  | dropped hremoved => exact hremoved.exact hexact hq'.known
  | dropGood _ hadvanced h₁ hremoved _ =>
      rw [keepsFuture, decide_eq_true_eq] at hkeeps
      refine hremoved.exact ?_ hq'.known
      intro hash
      rw [hadvanced.known, hexact hash]
      constructor
      · rintro ⟨t', ht', rfl⟩
        exact ⟨t', hadvanced.kept hkeeps t' ht', rfl⟩
      · rintro ⟨t', ht', rfl⟩
        exact ⟨t', hadvanced.held ht', rfl⟩
  | unchanged => exact hexact
  | deferred _ hdeferred =>
      intro hash
      rw [hdeferred.known, hexact hash]
      exact exists_congr fun t => and_congr_left fun _ => (hdeferred.held t).symm
  | cleared => exact exact_empty q.limit q.futureLimit

/-- **Along every run in which no future transaction is replaced or dropped for the
limit, and senders can be recovered, the known hashes are those of the transactions
held, and only these are answered `AlreadyKnown`.** -/
theorem known_hashes_exact (h : system.Reach
      (fun q op => recoverable op = true ∧ q.keepsFuture op = true) q) :
    (∀ hash, hash ∈ q.known ↔ ∃ t, q.Held t ∧ t.sha3 = hash) ∧
    ∀ hash ik, q.check hash ik = .alreadyKnown ↔ ∃ t, q.Held t ∧ t.sha3 = hash := by
  have hexact : q.Exact := by
    refine (reach_invariant (fun _ _ hop => hop.1) exact_empty ?_ h).2
    intro q op q' hq hop hstep heffect hexact
    obtain ⟨q₁, hstep', hq₁, -⟩ := hq.step hop.1
    cases hstep.symm.trans hstep'
    exact exact_effect hq hq₁ hop.2 hstep heffect hexact
  refine ⟨hexact, ?_⟩
  intro hash ik
  rw [← hexact hash, check, ← ExtTreeSet.contains_iff_mem]
  cases q.known.contains hash with
  | true => simp
  | false =>
      simp only [Bool.false_eq_true, if_false, iff_false]
      split <;> simp

/-- A transaction is replaced by one with a higher price, and its hash is unknown
again. -/
theorem known_hashes_exact_replaced :
    ∃ q, system.Reach (fun q op => recoverable op = true ∧ q.keepsFuture op = true) q ∧
      q.pending.map Transaction.sha3 = [2] ∧ q.known.contains 1 = false ∧
      ∀ hash ik, q.check hash ik = .alreadyKnown ↔ ∃ t, q.Held t ∧ t.sha3 = hash := by
  have hstart : system.Reach (fun q op => recoverable op = true ∧ q.keepsFuture op = true)
      { limit := 8, futureLimit := 8 } := .init ⟨8, 8, rfl⟩
  obtain ⟨q, hreach, hq⟩ := hstart.exists_of_check
    [sampleImport 1 0 5 (some 3), sampleImport 2 0 6 (some 3)]
    (p := fun q => q.pending.map Transaction.sha3 == [2] && !q.known.contains 1)
    (by decide +kernel) (by decide +kernel)
  rw [Bool.and_eq_true, beq_iff_eq, Bool.not_eq_true'] at hq
  exact ⟨q, hreach, hq.1, hq.2, (known_hashes_exact hreach).2⟩

/-- A future transaction is replaced by one with a higher price, and is answered
`AlreadyKnown` from then on. -/
theorem replaced_future_stays_known :
    ∃ q, system.Reach (fun _ op => recoverable op = true) q ∧ q.check 1 .ignore = .alreadyKnown ∧
      ¬ ∃ t, q.Held t ∧ t.sha3 = 1 := by
  have hstart : system.Reach (fun _ op => recoverable op = true)
      { limit := 8, futureLimit := 8 } := .init ⟨8, 8, rfl⟩
  obtain ⟨q, hreach, hq⟩ := hstart.exists_of_check
    [sampleImport 1 5 5 (some 3), .setFuture sampleEnv 1, sampleImport 2 5 6 (some 3)]
    (p := fun q => q.check 1 .ignore == .alreadyKnown && q.pending.map Transaction.sha3 == [2] &&
      q.future.isEmpty)
    (by decide +kernel) (by decide +kernel)
  rw [Bool.and_eq_true, Bool.and_eq_true, beq_iff_eq, beq_iff_eq] at hq
  obtain ⟨⟨hcheck, hpending⟩, hfuture⟩ := hq
  refine ⟨q, hreach, hcheck, ?_⟩
  rintro ⟨t, ht | ⟨a, n, ht⟩, hhash⟩
  · have hmem := List.mem_map_of_mem (f := Transaction.sha3) ht
    rw [hpending, hhash] at hmem
    exact absurd (List.mem_singleton.mp hmem) (by decide)
  · rw [ExtTreeMap.isEmpty_iff.mp hfuture, lookup_empty] at ht
    cases ht

/-! ## Limits -/

/-- Both sets are within their limits. -/
structure Bounded (q : TransactionQueue) : Prop where
  pending : q.pending.length ≤ q.limit
  future : q.futureSize ≤ q.futureLimit

/-- What `dropGood` makes pending is within the limit, the transaction it then removes
not counted, and what `setFuture` adds to the future is within its limit. -/
def fits (q : TransactionQueue) : Op → Bool
  | .dropGood _ t => q.pending.length + (q.promoted t).length ≤ q.limit +
      if t.isSigned && q.known.contains t.sha3 &&
        (q.pending ++ (q.promoted t).map Prod.snd).any (·.sha3 == t.sha3) then 1 else 0
  | .setFuture _ hash => (q.currentByHash[hash]?).all fun st =>
      q.futureSize + (q.fromNonce st).length ≤ q.futureLimit
  | _ => true

theorem bounded_empty (limit futureLimit : Nat) :
    Bounded { limit := limit, futureLimit := futureLimit } :=
  ⟨Nat.zero_le _, Nat.zero_le _⟩

theorem Removed.bounded (h : Removed q q') (hq : q.Bounded) : q'.Bounded := by
  constructor
  · rw [h.limit]
    exact h.pending.length_le.trans hq.pending
  · rw [h.futureSize, h.futureLimit]
    exact hq.future

/-- An import keeps both limits, whatever it takes over from the future. -/
theorem Stored.withinLimits {q₁ q₂ q₃ : TransactionQueue} {current : SearchTree Transaction}
    (h : Stored q env t q₁ q₂ current q₃ q') : q'.Bounded := by
  refine ⟨h.bounded, ?_⟩
  have hbounded : q₃.futureSize ≤ q₃.futureLimit := by
    rw [h.advanced.futureLimit]
    exact h.advanced.bounded
  rw [h.evicted.futureSize, h.evicted.futureLimit]
  exact hbounded

/-- What `dropGood` removes makes room for one transaction. -/
theorem length_lt_of_gone {l l' : List Transaction} {h : H256} (hsub : l'.Sublist l)
    (hmem : l.any (·.sha3 == h) = true) (hgone : ∀ t ∈ l', t.sha3 ≠ h) : l'.length < l.length := by
  obtain ⟨t, ht, hhash⟩ := List.any_eq_true.mp hmem
  refine Nat.lt_of_le_of_ne hsub.length_le ?_
  intro heq
  rw [hsub.eq_of_length heq] at hgone
  exact hgone t ht (beq_iff_eq.mp hhash)

theorem bounded_effect {op : Op} (hfits : q.fits op = true) (heffect : Effect q op q')
    (hq : q.Bounded) : q'.Bounded := by
  cases heffect with
  | imported himported =>
      cases himported with
      | same => exact hq
      | stored _ _ hstored => exact hstored.withinLimits
  | dropped hremoved => exact hremoved.bounded hq
  | @dropGood env t q₁ _ _ hadvanced _ hremoved hgone =>
      rw [fits, decide_eq_true_eq] at hfits
      have hlength : q₁.pending.length = q.pending.length + (q.promoted t).length := by
        rw [hadvanced.pending.length_eq, List.length_append, List.length_map, Nat.add_comm]
      constructor
      · rw [hremoved.limit, hadvanced.limit]
        split at hfits
        · rename_i hgoes
          rw [Bool.and_eq_true, Bool.and_eq_true, ExtTreeSet.contains_iff_mem] at hgoes
          obtain ⟨⟨hsigned, hknown⟩, hmem⟩ := hgoes
          have hmem₁ : q₁.pending.any (·.sha3 == t.sha3) = true := by
            rw [(hadvanced.pending.trans List.perm_append_comm).any_eq]
            exact hmem
          have hlt := length_lt_of_gone hremoved.pending hmem₁ (hgone hsigned hknown)
          omega
        · have hle := hremoved.pending.length_le
          omega
      · rw [hremoved.futureSize, hremoved.futureLimit, hadvanced.futureLimit]
        exact hadvanced.bounded
  | unchanged => exact hq
  | deferred hst hdeferred =>
      rw [fits, hst, Option.all_some, decide_eq_true_eq] at hfits
      constructor
      · rw [hdeferred.limit]
        exact hdeferred.pending.length_le.trans hq.pending
      · rw [hdeferred.futureSize, hdeferred.futureLimit]
        exact hfits
  | cleared => exact bounded_empty q.limit q.futureLimit

/-- **Along every run in which what `dropGood` and `setFuture` move is within the
limits, and senders can be recovered, both sets are within their limits.** -/
theorem sets_within_limits (h : system.Reach
      (fun q op => recoverable op = true ∧ q.fits op = true) q) :
    q.pending.length ≤ q.limit ∧ total q.future ≤ q.futureLimit := by
  obtain ⟨hq, hbounded⟩ := reach_invariant (fun _ _ hop => hop.1) bounded_empty
    (fun q op q' _ hop _ heffect hq => bounded_effect hop.2 heffect hq) h
  exact ⟨hbounded.pending, hq.sound.counted ▸ hbounded.future⟩

/-- The pending transaction at the end goes when there is a third one. -/
theorem sets_within_limits_two :
    ∃ q, system.Reach (fun q op => recoverable op = true ∧ q.fits op = true) q ∧
      q.pending.map Transaction.sha3 = [2, 3] ∧ q.pending.length ≤ q.limit ∧
      total q.future ≤ q.futureLimit := by
  have hstart : system.Reach (fun q op => recoverable op = true ∧ q.fits op = true)
      { limit := 2, futureLimit := 1 } := .init ⟨2, 1, rfl⟩
  obtain ⟨q, hreach, hq⟩ := hstart.exists_of_check
    [sampleImport 1 0 5 (some 1), sampleImport 2 0 7 (some 2), sampleImport 3 0 6 (some 3)]
    (p := fun q => q.pending.map Transaction.sha3 == [2, 3])
    (by decide +kernel) (by decide +kernel)
  exact ⟨q, hreach, beq_iff_eq.mp hq, sets_within_limits hreach⟩

/-- Both limits are exceeded: `setFuture` moves a transaction to a future without
room, and `dropGood` takes two over beside two that have come in meanwhile. -/
theorem moves_exceed_limits :
    (∃ q, system.Reach (fun _ op => recoverable op = true) q ∧
      ¬ total q.future ≤ q.futureLimit) ∧
    ∃ q, system.Reach (fun _ op => recoverable op = true) q ∧ ¬ q.pending.length ≤ q.limit := by
  constructor
  · have hstart : system.Reach (fun _ op => recoverable op = true)
        { limit := 2, futureLimit := 0 } := .init ⟨2, 0, rfl⟩
    obtain ⟨q, hreach, hq⟩ := hstart.exists_of_check
      [sampleImport 1 0 5 (some 1), .setFuture sampleEnv 1]
      (p := fun q : TransactionQueue => decide (¬ total q.future ≤ q.futureLimit))
      (by decide +kernel) (by decide +kernel)
    exact ⟨q, hreach, decide_eq_true_eq.mp hq⟩
  · have hstart : system.Reach (fun _ op => recoverable op = true)
        { limit := 2, futureLimit := 2 } := .init ⟨2, 2, rfl⟩
    obtain ⟨q, hreach, hq⟩ := hstart.exists_of_check
      [sampleImport 1 1 5 (some 1), sampleImport 2 2 5 (some 1), .setFuture sampleEnv 1,
        sampleImport 3 0 5 (some 2), sampleImport 4 0 5 (some 3),
        .dropGood sampleEnv (sampleTransaction 5 0 5 (some 1))]
      (p := fun q : TransactionQueue => decide (¬ q.pending.length ≤ q.limit))
      (by decide +kernel) (by decide +kernel)
    exact ⟨q, hreach, decide_eq_true_eq.mp hq⟩

end TransactionQueue

end CppSwc
