import CppSwc.Mempool.Limits

/-!
# The order of the pending transactions

`PriorityCompare` orders by the height of a nonce above the lowest pending nonce of
its sender, and then by gas price.  The lowest nonce changes while transactions stay in
the multiset.  A comment in the header says that updating it does not affect the
order, and it does: the heights of one sender move against those of the others, so the
multiset need not be in the order of the comparison by which the next transaction
descends.  It may then come to stand before a transaction of its own sender with a
lower nonce.

`placed` says at which insertions this cannot happen, whatever the shape of the tree.
-/

namespace CppSwc

open Lib Std

namespace TransactionQueue

variable {q q' : TransactionQueue} {t x : Transaction} {env : Env} {b : Balance Transaction}

/-- The transactions of each sender stand in the order of their nonces. -/
def InNonceOrder (l : List Transaction) : Prop :=
  l.Pairwise fun t t' => t.safeSender = t'.safeSender → t.nonce < t'.nonce

/-- `PriorityCompare` of a transaction that is being inserted with a pending one. -/
def goesBefore (x t : Transaction) (q : TransactionQueue) : Bool :=
  match (q.register x.safeSender x).priorityCompare x t with
  | .ok answer => answer
  | .error _ => false

/-- The first has the same sender as the second and a lower nonce. -/
def precedes (t t' : Transaction) : Bool :=
  t.safeSender == t'.safeSender && decide (t.nonce < t'.nonce)

/-- Whatever the inserted transaction goes before stands behind the lower nonces of
its sender, and whatever it does not go before stands in front of the higher ones. -/
def placed (x : Transaction) (q : TransactionQueue) : Bool :=
  decide (q.pending.Pairwise fun t t' =>
    (q.goesBefore x t = true → precedes t' x = false) ∧
    (q.goesBefore x t' = false → precedes x t = false))

/-- Of two transactions of one sender the comparison puts the lower nonce first. -/
theorem goesBefore_of_sender (h : q.Pending) (hfresh : q.Fresh x) (hx : x.sender.isSome = true)
    (ht : t ∈ q.pending) (hsender : t.safeSender = x.safeSender) :
    q.goesBefore x t = decide (x.nonce < t.nonce) := by
  obtain ⟨a, ha⟩ := Option.isSome_iff_exists.mp hx
  obtain ⟨c, hc⟩ := Option.isSome_iff_exists.mp (h.recoverable t ht)
  have hxa : x.safeSender = a := by rw [Transaction.safeSender, ha]; rfl
  have hac : c = a := by
    rw [← hxa, ← hsender, Transaction.safeSender, hc]
    rfl
  subst hac
  have hnew : lookup (insertAt q.currentByAddressAndNonce c x.nonce none) c x.nonce =
      some none := lookup_insertAt.trans (if_pos ⟨rfl, rfl⟩)
  have hne : x.nonce ≠ t.nonce := ((hfresh t ht).2 hsender).symm
  have hold : lookup (insertAt q.currentByAddressAndNonce c x.nonce none) c t.nonce =
      some (some t) := by
    rw [lookup_insertAt, if_neg (fun heq => hne heq.2), ← hxa, ← hsender]
    exact h.lookup_of_mem ht
  -- Both nonces are taken above the same lowest one.
  obtain ⟨low, hlow, hle₁, h₁⟩ := height_of_lookup (q := { q with
    currentByAddressAndNonce := insertAt q.currentByAddressAndNonce c x.nonce none }) ha hnew
  obtain ⟨low', hlow', hle₂, h₂⟩ := height_of_lookup (q := { q with
    currentByAddressAndNonce := insertAt q.currentByAddressAndNonce c x.nonce none }) hc hold
  cases hlow.symm.trans hlow'
  rw [goesBefore, register_eq (h.lookup_eq_none hfresh), hxa, priorityCompare, h₁, h₂]
  show (decide (x.nonce - low < t.nonce - low) || (x.nonce - low == t.nonce - low) &&
    decide (t.gasPrice < x.gasPrice)) = decide (x.nonce < t.nonce)
  have hlt : x.nonce - low < t.nonce - low ↔ x.nonce < t.nonce := by
    bv_omega
  have hbeq : (x.nonce - low == t.nonce - low) = false := by
    rw [beq_eq_false_iff_ne]
    intro heq
    exact hne (by bv_omega)
  rw [hbeq, Bool.false_and, Bool.or_false]
  exact decide_eq_decide.mpr hlt

/-- At every cut a well placed transaction keeps the order of the nonces. -/
theorem Cut.inNonceOrder {xs ys : List Transaction} (hcut : q.Cut x xs ys) (h : q.Pending)
    (hfresh : q.Fresh x) (hx : x.sender.isSome = true) (hplaced : q.placed x = true)
    (horder : InNonceOrder q.pending) : InNonceOrder (xs ++ x :: ys) := by
  rw [placed, decide_eq_true_eq, hcut.split, List.pairwise_append] at hplaced
  obtain ⟨hplacedLeft, hplacedRight, -⟩ := hplaced
  have hsub : ∀ t, t ∈ xs ∨ t ∈ ys → t ∈ q.pending := by
    intro t ht
    rw [hcut.split]
    exact List.mem_append.mpr ht
  have hcompare := fun t (ht : t ∈ q.pending) (hsender : t.safeSender = x.safeSender) =>
    goesBefore_of_sender h hfresh hx ht hsender
  have hne := fun t (ht : t ∈ q.pending) (hsender : t.safeSender = x.safeSender) =>
    (hfresh t ht).2 hsender
  have hleft : ∀ t ∈ xs, t.safeSender = x.safeSender → t.nonce < x.nonce := by
    intro t ht hsender
    by_contra hge
    have hlt : x.nonce < t.nonce := by
      have := hne t (hsub t (.inl ht)) hsender
      bv_omega
    -- The last transaction on the left is one the new one does not go before.
    cases hlast : xs.getLast? with
    | none =>
        rw [List.getLast?_eq_none_iff.mp hlast] at ht
        cases ht
    | some z =>
        have hz : q.goesBefore x z = false := by rw [goesBefore, hcut.left z hlast]
        rcases SearchTree.rel_getLast_of_pairwise hplacedLeft hlast ht with rfl | hrel
        · rw [hcompare t (hsub t (.inl ht)) hsender, decide_eq_false_iff_not] at hz
          exact hz hlt
        · have hprecedes := hrel.2 hz
          rw [precedes, hsender, beq_self_eq_true, Bool.true_and, decide_eq_false_iff_not] at hprecedes
          exact hprecedes hlt
  have hright : ∀ t ∈ ys, x.safeSender = t.safeSender → x.nonce < t.nonce := by
    intro t ht hsender
    by_contra hge
    have hlt : t.nonce < x.nonce := by
      have := hne t (hsub t (.inr ht)) hsender.symm
      bv_omega
    -- The first transaction on the right is one the new one goes before.
    cases hhead : ys.head? with
    | none =>
        rw [List.head?_eq_none_iff.mp hhead] at ht
        cases ht
    | some z =>
        have hz : q.goesBefore x z = true := by rw [goesBefore, hcut.right z hhead]
        rcases SearchTree.rel_head_of_pairwise hplacedRight hhead ht with rfl | hrel
        · rw [hcompare t (hsub t (.inr ht)) hsender.symm, decide_eq_true_eq] at hz
          exact hge hz
        · have hprecedes := hrel.1 hz
          rw [precedes, hsender, beq_self_eq_true, Bool.true_and, decide_eq_false_iff_not] at hprecedes
          exact hprecedes hlt
  rw [InNonceOrder, hcut.split, List.pairwise_append] at horder
  rw [InNonceOrder, List.pairwise_append, List.pairwise_cons]
  refine ⟨horder.1, ⟨hright, horder.2.1⟩, ?_⟩
  intro t ht t' ht'
  rcases List.mem_cons.mp ht' with rfl | ht'
  · exact hleft t ht
  · exact horder.2.2 t ht t' ht'

/-! ## Along the operations -/

/-- Every transaction the loop of `makeCurrent` enters is well placed. -/
def placedAll (balance : Balance Transaction) (a : Address) :
    List (U256 × Transaction) → TransactionQueue → Bool
  | [], _ => true
  | e :: es, q => q.placed e.2 &&
      match q.enter balance a e.2 with
      | .ok q => placedAll balance a es { q with futureSize := q.futureSize - 1 }
      | .error _ => true

/-- Every transaction the operation enters is well placed when it is entered. -/
def placesAll (q : TransactionQueue) : Op → Bool
  | .import env t ik => q.turnedDown t ik ||
      match q.replaceCurrent env.balance t with
      | .error _ => true
      | .ok (q, _) =>
          let q := (q.replaceFuture t).1
          q.placed t &&
            match q.enter env.balance t.safeSender t with
            | .ok q => q.placedAll env.balance t.safeSender (q.promoted t)
            | .error _ => true
  | .dropGood env t => q.placedAll env.balance t.safeSender (q.promoted t)
  | _ => true

theorem Takes.inNonceOrder {a : Address} {es : List (U256 × Transaction)} (hes : q.Takes a es)
    (h : q.Pending) (hplaced : q.placedAll b a es = true) (horder : InNonceOrder q.pending)
    (hpromote : q.promote b a es = .ok q') : InNonceOrder q'.pending := by
  induction es generalizing q with
  | nil =>
      cases hpromote
      exact horder
  | cons e es ih =>
      obtain ⟨current, henter, xs, ys, hcut, hpending, hrest⟩ := hes.enter h b
      obtain ⟨hentered, htakes⟩ := hrest (q.futureSize - 1)
      obtain ⟨rfl, hrecover, hfresh⟩ := hes.each e (.head _)
      simp only [placedAll, henter, Bool.and_eq_true] at hplaced
      simp only [promote, henter, ok_bind] at hpromote
      refine ih htakes hentered hplaced.2 ?_ hpromote
      show InNonceOrder (q.entered e.2 current).pending
      rw [hpending]
      exact hcut.inNonceOrder h hfresh hrecover hplaced.1 horder

theorem evictFuture_pending {n : Nat} {begins : Nat → Address}
    (h : q.evictFuture begins n = .ok q') : q'.pending = q.pending := by
  induction n generalizing q with
  | zero =>
      cases h
      rfl
  | succ n ih =>
      simp only [evictFuture] at h
      split at h
      · cases h
        rfl
      · split at h
        · cases h
        · split at h
          · cases h
          · exact (ih h).trans rfl

/-- `makeCurrent` leaves the pending transactions as its first loop leaves them. -/
theorem makeCurrent_pending (hok : q.makeCurrent env t = .ok q') :
    ∃ q₁, q.promote env.balance t.safeSender (q.promoted t) = .ok q₁ ∧ q'.pending = q₁.pending := by
  simp only [makeCurrent] at hok
  cases hpromote : q.promote env.balance t.safeSender (q.promoted t) with
  | error stop =>
      rw [hpromote] at hok
      cases hok
  | ok q₁ =>
      rw [hpromote, ok_bind] at hok
      refine ⟨q₁, rfl, (evictFuture_pending hok).trans ?_⟩
      split <;> rfl

theorem Sound.makeCurrent_inNonceOrder (h : q.Sound) (hok : q.makeCurrent env t = .ok q')
    (hplaced : q.placedAll env.balance t.safeSender (q.promoted t) = true)
    (horder : InNonceOrder q.pending) : InNonceOrder q'.pending := by
  obtain ⟨q₁, hpromote, hpending⟩ := makeCurrent_pending hok
  rw [hpending]
  exact (h.takes t).inNonceOrder h.toPending hplaced horder hpromote

/-- An import whose transactions are well placed keeps the order of the nonces. -/
theorem Stored.inNonceOrder {q₁ q₂ q₃ : TransactionQueue} {current : SearchTree Transaction}
    (h : Stored q env t q₁ q₂ current q₃ q') (ht : t.sender.isSome = true)
    (hplaced : q₂.placed t = true)
    (hplacedAll : (q₂.entered t current).placedAll env.balance t.safeSender
      ((q₂.entered t current).promoted t) = true)
    (horder : InNonceOrder q.pending) : InNonceOrder q'.pending := by
  have horder₂ : InNonceOrder q₂.pending := by
    rw [h.pending]
    exact horder.sublist h.removed.pending
  have hentered : InNonceOrder (q₂.entered t current).pending := by
    obtain ⟨xs, ys, hcut, hpending⟩ := enter_cut h.enter
    rw [hpending]
    exact hcut.inNonceOrder h.sound.toPending h.fresh ht hplaced horder₂
  have hadvanced := h.soundEntered.makeCurrent_inNonceOrder h.makeCurrent hplacedAll hentered
  exact hadvanced.sublist h.evicted.pending

theorem inNonceOrder_effect {op : Op} (hq : q.Consistent) (hplaces : q.placesAll op = true)
    (hstep : step q op = some q') (heffect : Effect q op q') (horder : InNonceOrder q.pending) :
    InNonceOrder q'.pending := by
  cases heffect with
  | imported himported =>
      rw [placesAll, Bool.or_eq_true] at hplaces
      rcases hplaces with hdown | hplaces
      · rw [step_of_turnedDown hq.sound hdown] at hstep
        cases hstep
        exact horder
      · cases himported with
        | same => exact horder
        | stored _ ht hstored =>
            simp only [hstored.replaceCurrent, hstored.replaceFuture, hstored.enter,
              Bool.and_eq_true] at hplaces
            exact hstored.inNonceOrder ht hplaces.1 hplaces.2 horder
  | dropped hremoved => exact horder.sublist hremoved.pending
  | dropGood hmake _ _ hremoved _ =>
      exact (hq.sound.makeCurrent_inNonceOrder hmake hplaces horder).sublist hremoved.pending
  | unchanged => exact horder
  | deferred _ hdeferred => exact horder.sublist hdeferred.pending
  | cleared => exact .nil

theorem topTransactions_sublist (limit : Nat) (avoid : ExtTreeSet H256) (q : TransactionQueue) :
    (q.topTransactions limit avoid).Sublist q.pending :=
  (List.take_sublist _ _).trans List.filter_sublist

/-- **Along every run in which every transaction is well placed when it is entered, and
senders can be recovered, `topTransactions` lists the transactions of each sender by
increasing nonce.** -/
theorem senders_in_nonce_order
    (h : system.Reach (fun q op => recoverable op = true ∧ q.placesAll op = true) q)
    (limit : Nat) (avoid : ExtTreeSet H256) (a : Address) :
    (((q.topTransactions limit avoid).filter (·.safeSender == a)).map Transaction.nonce).Pairwise
      (· < ·) := by
  have horder : InNonceOrder q.pending :=
    (reach_invariant (fun _ _ hop => hop.1) (fun _ _ => .nil)
      (fun q op q' hq hop hstep heffect => inNonceOrder_effect hq hop.2 hstep heffect) h).2
  rw [List.pairwise_map, List.pairwise_filter]
  refine (horder.sublist (topTransactions_sublist limit avoid q)).imp ?_
  intro t t' hrel ht ht'
  exact hrel ((beq_iff_eq.mp ht).trans (beq_iff_eq.mp ht').symm)

/-- Two transactions of one sender stand around one of another sender. -/
theorem senders_in_nonce_order_three :
    ∃ q, system.Reach (fun q op => recoverable op = true ∧ q.placesAll op = true) q ∧
      (q.topTransactions 8 ∅).map Transaction.sha3 = [2, 1, 3] ∧
      (((q.topTransactions 8 ∅).filter (·.safeSender == 1)).map Transaction.nonce).Pairwise
        (· < ·) := by
  have hstart : system.Reach (fun q op => recoverable op = true ∧ q.placesAll op = true)
      { limit := 8, futureLimit := 8 } := .init ⟨8, 8, rfl⟩
  obtain ⟨q, hreach, hq⟩ := hstart.exists_of_check
    [sampleImport 1 0 5 (some 2), sampleImport 2 3 8 (some 1), sampleImport 3 4 8 (some 1)]
    (p := fun q => (q.topTransactions 8 ∅).map Transaction.sha3 == [2, 1, 3])
    (by decide +kernel) (by decide +kernel)
  exact ⟨q, hreach, beq_iff_eq.mp hq, senders_in_nonce_order hreach 8 ∅ 1⟩

/-- A sender with nonce 5 pending sends nonce 3.  Another sender's transaction, which
stood behind nonce 5, now goes before nonce 3. -/
theorem lower_nonce_comes_second :
    ∃ q, system.Reach (fun _ op => recoverable op = true) q ∧
      ¬ (((q.topTransactions 8 ∅).filter (·.safeSender == 1)).map Transaction.nonce).Pairwise
        (· < ·) := by
  have hstart : system.Reach (fun _ op => recoverable op = true)
      { limit := 8, futureLimit := 8 } := .init ⟨8, 8, rfl⟩
  obtain ⟨q, hreach, hq⟩ := hstart.exists_of_check
    [sampleImport 1 0 5 (some 2), sampleImport 2 5 8 (some 1), sampleImport 3 3 2 (some 1)]
    (p := fun q => ((q.topTransactions 8 ∅).filter (·.safeSender == 1)).map Transaction.nonce ==
      [5, 3])
    (by decide +kernel) (by decide +kernel)
  refine ⟨q, hreach, ?_⟩
  rw [beq_iff_eq.mp hq]
  decide

end TransactionQueue

end CppSwc
