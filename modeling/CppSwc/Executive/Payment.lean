import CppSwc.Executive.Conservation

/-!
# Payment for transactions

A transaction takes the price of its gas from the sender before its frame and gives it back
after it, to the sender for what is left and to the author for what is used.  The frame
itself conserves the balances (`Conservation`).
-/

namespace CppSwc

open Std Lib Evm CodeHash

/-! ## Checks before the execution -/

theorem failIf_eq_ok {p : Prop} [Decidable p] {x : Failure} {u : Unit} :
    failIf p x = .ok u ↔ ¬p := by
  unfold failIf
  split
  · next h => simp [h]
  · next h => simp [h]

/-- What `verifyTransaction` has checked. -/
theorem SealEngine.verifyTransaction_ok {engine : SealEngine} {t : TransactionBase}
    {number gasLimit gasUsed : U256} {u : Unit}
    (h : engine.verifyTransaction t number gasLimit gasUsed = .ok u) :
    t.baseGasRequired (engine.evmSchedule number) ≤ t.gas.toNat ∧
      (t.hasZeroSignature = true → t.value = 0 ∧ t.gasPrice = 0) := by
  obtain ⟨_, -, h⟩ := except_bind_eq_ok.mp h
  obtain ⟨_, hbefore, h⟩ := except_bind_eq_ok.mp h
  obtain ⟨_, hzero, h⟩ := except_bind_eq_ok.mp h
  obtain ⟨_, -, h⟩ := except_bind_eq_ok.mp h
  obtain ⟨_, hgas, h⟩ := except_bind_eq_ok.mp h
  rw [failIf_eq_ok] at hbefore hzero hgas
  refine ⟨Nat.not_lt.mp hgas, fun hsignature => ?_⟩
  have hfork : engine.constantinopleForkBlock ≤ number :=
    BitVec.not_lt.mp fun hlt => hbefore ⟨hlt, hsignature⟩
  constructor
  · exact by_contra fun hvalue => hzero ⟨hfork, hsignature, .inl hvalue⟩
  · exact by_contra fun hprice => hzero ⟨hfork, hsignature, .inr (.inl hprice)⟩

namespace Executive

open World

variable {H : Type} [CodeHash H] {M : Setting} {N : Nested H} {e e' : Executive H}
  {t : TransactionBase} {u : Unit}

/-- What `initialize` has made sure of. -/
structure Initialized (M : Setting) (t : TransactionBase) (e e' : Executive H) : Prop where
  conserves : Conserves M e e'
  balanceAt : e.world.state.Balanced → e'.world.state.balanceAt = e.world.state.balanceAt
  transaction : e'.t = some t
  gas : e'.gas = e.gas
  ext : e'.ext = e.ext
  res : e'.res = e.res
  baseGasRequired : e'.baseGasRequired = t.baseGasRequired M.schedule
  base_le : t.baseGasRequired M.schedule ≤ t.gas.toNat
  gasCost : e'.gasCost.toNat = t.gas.toNat * t.gasPrice.toNat
  affordable : e.world.state.Balanced → ∀ sender, t.sender = .ok sender →
    t.value.toNat + t.gas.toNat * t.gasPrice.toNat ≤ (e.world.state.balanceAt sender).toNat

omit [CodeHash H] in
theorem liftExcept_eq_ok {α : Type} {x : Except Failure α} {a : α} :
    (liftExcept x : Action H α) e = .ok a e' ↔ x = .ok a ∧ e' = e := by
  cases x with
  | ok b =>
      show EStateM.Result.ok b e = .ok a e' ↔ _
      simp [eq_comm]
  | error y =>
      show EStateM.Result.error y e = .ok a e' ↔ _
      simp

omit [CodeHash H] in
/-- A balance that is read. -/
theorem balance_ok {pick : State.Pick} {a : Address} {s s' : State H} {value : U256}
    (hs : s.Balanced) (h : State.balance pick a s = .ok value s') : value = s.balanceAt a := by
  rw [State.balance, State.account_bind] at h
  obtain ⟨rfl, -⟩ := pure_eq_ok.mp h
  exact (State.load_balance pick a hs).symm

/-- What a look at the state leaves. -/
structure Reads (M : Setting) (e e' : Executive H) : Prop where
  conserves : Conserves M e e'
  steady : State.Steady e.world.state e'.world.state
  transaction : e'.t = e.t
  gas : e'.gas = e.gas
  ext : e'.ext = e.ext
  res : e'.res = e.res
  baseGasRequired : e'.baseGasRequired = e.baseGasRequired

theorem Reads.trans {e₁ : Executive H} (h : Reads M e e₁) (h' : Reads M e₁ e') : Reads M e e' where
  conserves := trans_of (Conserves M) h.conserves h'.conserves
  steady := trans_of State.Steady h.steady h'.steady
  transaction := h'.transaction.trans h.transaction
  gas := h'.gas.trans h.gas
  ext := h'.ext.trans h.ext
  res := h'.res.trans h.res
  baseGasRequired := h'.baseGasRequired.trans h.baseGasRequired

theorem reads_onState {α : Type} {m : State.Pick → State.Action H α} {a : α}
    (hm : ∀ pick, Moves State.Steady (m pick)) (h : onState M m e = .ok a e') : Reads M e e' := by
  have hconserves := conserves_onState hm h
  obtain ⟨s, hs, rfl⟩ := onState_ok h
  exact ⟨hconserves, (hm _).ends hs, rfl, rfl, rfl, rfl, rfl⟩

/-- Where the transaction is signed, `initialize` has looked at the nonce and at the balance. -/
theorem initialized_signed {start : Executive H}
    (hstart : start = { e with t := some t, baseGasRequired := t.baseGasRequired M.schedule })
    (hbase : t.baseGasRequired M.schedule ≤ t.gas.toNat) {sender : Address} {nonceReq balance : U256}
    {read read' : Executive H} (hsender : t.sender = .ok sender)
    (hnonce : onState M (fun pick => State.getNonce pick sender) start = .ok nonceReq read)
    (hbalance : onState M (fun pick => State.balance pick sender) read = .ok balance read')
    (henough : t.value.toNat + t.gas.toNat * t.gasPrice.toNat ≤ balance.toNat)
    (hend : e' = { read' with gasCost := BitVec.ofNat 256 (t.gas.toNat * t.gasPrice.toNat) }) :
    Initialized M t e e' := by
  have hfits : t.gas.toNat * t.gasPrice.toNat < 2 ^ 256 :=
    (Nat.le_add_left _ _).trans_lt (henough.trans_lt balance.isLt)
  have hfirst := reads_onState (fun pick => State.steady_getNonce pick sender) hnonce
  have hreads := hfirst.trans (reads_onState (fun _ => State.steady_reader) hbalance)
  rw [hstart] at hfirst hreads
  subst hend
  exact
    { conserves := ⟨hreads.conserves.world, hreads.conserves.savepoint, hreads.conserves.isCreation,
        hreads.conserves.newAddress⟩
      balanceAt := hreads.steady.2
      transaction := hreads.transaction
      gas := hreads.gas
      ext := hreads.ext
      res := hreads.res
      baseGasRequired := hreads.baseGasRequired
      base_le := hbase
      gasCost := (BitVec.toNat_ofNat _ _).trans (Nat.mod_eq_of_lt hfits)
      affordable := by
        intro hbalanced sender' hsender'
        cases hsender.symm.trans hsender'
        obtain ⟨s, hs, -⟩ := onState_ok hbalance
        have hread := balance_ok (hfirst.steady.1.balanced hbalanced) hs
        rw [hfirst.steady.2 hbalanced] at hread
        exact hread ▸ henough }

theorem initialized (hcost : e.gasCost = 0) (h : initializeWith M t e = .ok u e') :
    Initialized M t e e' := by
  obtain ⟨u, start, hset, hrest⟩ := bind_eq_ok.mp h
  have hstart := modify_eq_ok.mp hset
  obtain ⟨u, verified, hlift, hrun⟩ := bind_eq_ok.mp hrest
  obtain ⟨hverify, hverified⟩ := liftExcept_eq_ok.mp hlift
  rw [hverified] at hrun
  obtain ⟨hbase, hzero⟩ := SealEngine.verifyTransaction_ok hverify
  rcases runIf_eq_ok.mp hrun with ⟨hsignature, hpart⟩ | ⟨hsignature, hend⟩
  · obtain ⟨sender, same, hlift', hread⟩ := bind_eq_ok.mp hpart
    obtain ⟨hsender, hsame⟩ := liftExcept_eq_ok.mp hlift'
    rw [hsame] at hread
    obtain ⟨nonceReq, read, hnonce, hread⟩ := bind_eq_ok.mp hread
    obtain ⟨-, hread⟩ := throwIf_bind_eq_ok.mp hread
    obtain ⟨balance, read', hbalance, hread⟩ := bind_eq_ok.mp hread
    obtain ⟨henough, hread⟩ := throwIf_bind_eq_ok.mp hread
    rw [not_or, Nat.not_lt, Nat.not_lt] at henough
    exact initialized_signed hstart hbase hsender hnonce hbalance henough.2 (modify_eq_ok.mp hread)
  · obtain ⟨hvalue, hprice⟩ := hzero (by simpa using hsignature)
    have hnone : t.gas.toNat * t.gasPrice.toNat = 0 := by
      rw [hprice]
      exact Nat.mul_zero _
    rw [hend, hstart]
    exact
      { conserves := ⟨refl_of (World.Continues M) _, rfl, rfl, rfl⟩
        balanceAt := fun _ => rfl
        transaction := rfl
        gas := rfl
        ext := rfl
        res := rfl
        baseGasRequired := rfl
        base_le := hbase
        gasCost := by
          rw [hnone]
          exact congrArg BitVec.toNat hcost
        affordable := by
          intro _ _ _
          rw [hvalue, hnone]
          exact Nat.zero_le _ }

variable [DecidableEq H]

/-! ## The end of a transaction -/

/-- What `refund` leaves of an executive with the transaction `t`. -/
structure Refunded (t : TransactionBase) (e e' : Executive H) : Prop where
  state : e'.world.state = e.world.state
  trace : e'.world.trace = e.world.trace
  suicides : e'.world.sub.suicides = e.world.sub.suicides
  transaction : e'.t = some t
  res : e'.res.isSome = e.res.isSome
  gas : e'.gas.toNat = e.gas.toNat + e'.refunded.toNat
  gas_le : e'.gas ≤ t.gas

/-- Half of the gas that was used is refunded at most, so that the sum does not wrap. -/
theorem add_refunded {limit gas refunded : U256} (hgas : gas ≤ limit)
    (h : refunded ≤ (limit - gas).udiv 2) :
    (gas + refunded).toNat = gas.toNat + refunded.toNat ∧ gas + refunded ≤ limit := by
  have hlimit := limit.isLt
  have hle : gas.toNat ≤ limit.toNat := hgas
  have hhalf : refunded.toNat ≤ (limit.toNat - gas.toNat) / 2 := by
    have hdiv : ((limit - gas).udiv 2).toNat = (limit - gas).toNat / 2 := BitVec.toNat_udiv
    rw [BitVec.toNat_sub_of_le hgas] at hdiv
    rw [← hdiv]
    exact h
  have hadd : (gas + refunded).toNat = gas.toNat + refunded.toNat := by
    rw [BitVec.toNat_add]
    exact Nat.mod_eq_of_lt (by omega)
  refine ⟨hadd, BitVec.le_def.mpr ?_⟩
  omega

omit [DecidableEq H] [CodeHash H] in
theorem refund_ok (ht : e.t = some t) (hgas : e.gas ≤ t.gas) (h : refund M e = .ok u e') :
    Refunded t e e' := by
  obtain ⟨u, counted, hcount, h⟩ := bind_eq_ok.mp h
  have hcounted := modify_eq_ok.mp hcount
  obtain ⟨u, found, hfind, h⟩ := bind_eq_ok.mp h
  have hfound := modify_eq_ok.mp hfind
  have hend := modify_eq_ok.mp h
  have hsame : counted.world.state = e.world.state ∧ counted.world.trace = e.world.trace ∧
      counted.world.sub.suicides = e.world.sub.suicides ∧ counted.t = some t ∧
      counted.res = e.res ∧ counted.gas = e.gas := by
    rw [hcounted]
    split
    · exact ⟨rfl, rfl, rfl, ht, rfl, rfl⟩
    · exact ⟨rfl, rfl, rfl, ht, rfl, rfl⟩
  obtain ⟨hstate, htrace, hsuicides, ht', hres, hgas'⟩ := hsame
  have hle : found.refunded ≤ (t.gas - counted.gas).udiv 2 := by
    rw [hfound, ht']
    show (if counted.ext.isNone then (0 : U256)
      else if counted.world.sub.refunds < (t.gas - counted.gas).udiv 2 then
        counted.world.sub.refunds else (t.gas - counted.gas).udiv 2) ≤ _
    split
    · exact Nat.zero_le _
    · split
      · next hlt => exact BitVec.le_of_lt hlt
      · exact BitVec.le_refl _
  have hfound' : found.gas = counted.gas := by rw [hfound]
  obtain ⟨hadd, hadd'⟩ := add_refunded (hgas' ▸ hgas) hle
  rw [hend]
  exact
    { state := by rw [hfound]; exact hstate
      trace := by rw [hfound]; exact htrace
      suicides := by rw [hfound]; exact hsuicides
      transaction := by rw [hfound]; exact ht'
      res := by rw [hfound]; exact congrArg Option.isSome hres
      gas := by rw [← hgas', hfound']; exact hadd
      gas_le := by rw [hfound']; exact hadd' }

/-- What `finalize` does to an executive with the transaction `t` of `sender`, where there
are no suicides. -/
structure Finalized (M : Setting) (t : TransactionBase) (sender : Address) (e e' : Executive H) :
    Prop where
  gas : e'.gas.toNat = e.gas.toNat + e'.refunded.toNat
  gas_le : e'.gas ≤ t.gas
  gasUsed : e.res.isSome = true → e'.res.map ExecutionResult.gasUsed = some (t.gas - e'.gas)
  balanceAt : e'.world.state.balanceAt =
    Ledger.credit (Ledger.credit e.world.state.balanceAt sender (e'.gas * t.gasPrice))
      M.info.author ((t.gas - e'.gas) * t.gasPrice)
  total : e.world.total + (e'.gas * t.gasPrice).toNat +
      ((t.gas - e'.gas) * t.gasPrice).toNat < 2 ^ 256 →
    e'.world.total = e.world.total + (e'.gas * t.gasPrice).toNat +
      ((t.gas - e'.gas) * t.gasPrice).toNat ∧ Exact e.world e'.world

omit [DecidableEq H] in
theorem killSuicides_ok (hsuicides : e.world.sub.suicides = ∅)
    (h : killSuicides M e = .ok u e') :
    e'.world = e.world ∧ e'.gas = e.gas ∧ e'.refunded = e.refunded ∧ e'.t = e.t ∧ e'.res = e.res := by
  rw [killSuicides, get_bind, hsuicides] at h
  obtain ⟨u, killed, hkill, h⟩ := bind_eq_ok.mp h
  have hend := modify_eq_ok.mp h
  have hkilled : killed = e := by
    rcases runIf_eq_ok.mp hkill with ⟨-, hkill⟩ | ⟨-, hkill⟩
    · exact (pure_eq_ok.mp hkill).2
    · exact hkill
  rw [hend, hkilled]
  exact ⟨rfl, rfl, rfl, rfl, rfl⟩

omit [DecidableEq H] [CodeHash H] in
theorem collect_ok (ht : e.t = some t) (h : collect e = .ok u e') :
    e'.world = e.world ∧ e'.gas = e.gas ∧ e'.refunded = e.refunded ∧
      (e.res.isSome = true → e'.res.map ExecutionResult.gasUsed = some (t.gas - e.gas)) := by
  rw [collect, get_bind] at h
  rcases runIf_eq_ok.mp h with ⟨hres, h⟩ | ⟨hres, h⟩
  · obtain ⟨used, counted, hcount, h⟩ := bind_eq_ok.mp h
    have hend := modify_eq_ok.mp h
    rw [Executive.gasUsed, get_bind] at hcount
    obtain ⟨-, hcount⟩ := throwIf_bind_eq_ok.mp hcount
    obtain ⟨hused, hcounted⟩ := pure_eq_ok.mp hcount
    rw [hend, hcounted, hused, ht]
    refine ⟨rfl, rfl, rfl, fun _ => ?_⟩
    obtain ⟨r, hr⟩ := Option.isSome_iff_exists.mp hres
    rw [hr]
    rfl
  · rw [h]
    exact ⟨rfl, rfl, rfl, fun hres' => absurd hres' hres⟩

theorem finalized {sender : Address} {status : Bool} (ht : e.t = some t)
    (hsender : t.sender = .ok sender) (hgas : e.gas ≤ t.gas) (hs : e.world.state.Balanced)
    (hsuicides : e.world.sub.suicides = ∅) (h : finalize M e = .ok status e') :
    Finalized M t sender e e' := by
  obtain ⟨u, r, hrefund, h⟩ := bind_eq_ok.mp h
  obtain ⟨u, p, hpay, h⟩ := bind_eq_ok.mp h
  obtain ⟨u, k, hkill, h⟩ := bind_eq_ok.mp h
  obtain ⟨u, c, hcollect, h⟩ := bind_eq_ok.mp h
  rw [get_bind] at h
  have hend := (pure_eq_ok.mp h).2
  have hrefunded := refund_ok ht hgas hrefund
  -- the two payments
  rw [pay, get_bind, hrefunded.transaction] at hpay
  obtain ⟨u, b, hback, hfees⟩ := bind_eq_ok.mp hpay
  obtain ⟨sender', same, hlift, hback⟩ := bind_eq_ok.mp hback
  obtain ⟨hsender', hsame⟩ := liftExcept_eq_ok.mp hlift
  cases hsender.symm.trans hsender'
  rw [hsame, get_bind] at hback
  rw [payFees, get_bind] at hfees
  have hr : r.world.state.Balanced := hrefunded.state ▸ hs
  obtain ⟨s, hsets, hb⟩ := addBalance_ok hback
  have hbgas : b.gas = r.gas := by rw [hb]; rfl
  have hbstate : b.world.state = s := by rw [hb]; rfl
  rw [hbgas] at hfees
  obtain ⟨s', hsets', hp⟩ := addBalance_ok hfees
  have hbs : b.world.state.Balanced := hbstate ▸ hsets.1.balanced hr
  obtain ⟨hpgas, hprefunded, hpt, hpres, hpsub⟩ : p.gas = r.gas ∧ p.refunded = r.refunded ∧
      p.t = r.t ∧ p.res = r.res ∧ p.world.sub = r.world.sub := by
    rw [hp, hb]
    exact ⟨rfl, rfl, rfl, rfl, rfl⟩
  have hpsuicides : p.world.sub.suicides = ∅ := by rw [hpsub, hrefunded.suicides, hsuicides]
  obtain ⟨hkworld, hkgas, hkrefunded, hkt, hkres⟩ := killSuicides_ok hpsuicides hkill
  have hkt' : k.t = some t := by rw [hkt, hpt, hrefunded.transaction]
  obtain ⟨hcworld, hcgas, hcrefunded, hused⟩ := collect_ok hkt' hcollect
  have hgas' : e'.gas = r.gas := by rw [hend, hcgas, hkgas, hpgas]
  have hrefunded' : e'.refunded = r.refunded := by rw [hend, hcrefunded, hkrefunded, hprefunded]
  have hworld : e'.world = p.world := by rw [hend, hcworld, hkworld]
  exact
    { gas := by rw [hgas', hrefunded', hrefunded.gas]
      gas_le := by rw [hgas']; exact hrefunded.gas_le
      gasUsed := by
        intro hres
        rw [hend, hcgas]
        refine hused ?_
        rw [hkres, hpres, hrefunded.res, hres]
      balanceAt := by
        have hfirst : s.balanceAt = Ledger.credit e.world.state.balanceAt sender (r.gas * t.gasPrice) := by
          rw [hsets.2 hr, hrefunded.state]
          rfl
        rw [hworld, hgas', hp]
        show s'.balanceAt = _
        rw [hsets'.2 hbs, hbstate, hfirst]
        rfl
      total := by
        intro hbound
        rw [hgas'] at hbound ⊢
        have htotal : r.world.total = e.world.total := by rw [World.total, World.total, hrefunded.state]
        have hfirst := credit_total hr (by rw [htotal]; omega) hback
        have hsecond := credit_total hbs (by rw [hfirst.1, htotal]; omega) hfees
        rw [hworld, hsecond.1, hfirst.1, htotal]
        refine ⟨rfl, ?_⟩
        have hsame : Exact e.world r.world := exact_of_trace hrefunded.trace
        exact trans_of Exact hsame (trans_of Exact hfirst.2 hsecond.2) }

/-! ## Whole transactions -/

/-- The frame of a transaction, from the time when its gas has been bought. -/
def runFrame (M : Setting) (N : Nested H) (t : TransactionBase) (sender : Address) :
    Action H Unit := do
  let done ← enter M t sender
  runIf (done = false) (go M N)

/-- A transaction of `sender` on the state `s` has conserved ether.  The gas has been bought
in the state of `bought`, the frame has ended in that of `ended`, and `e'` is left at the
end. -/
structure EtherConserved (M : Setting) (t : TransactionBase) (sender : Address) (s : State H)
    (bought ended e' : Executive H) : Prop where
  /-- The sum of the balances is the same. -/
  total : Ledger.total e'.world.state.balanceAt = Ledger.total s.balanceAt
  /-- The sender pays for all the gas, -/
  bought : bought.world.state.balanceAt =
    Ledger.debit s.balanceAt sender (t.gas * t.gasPrice)
  /-- and gets back what is left of it, while the author gets the rest. -/
  paid : e'.world.state.balanceAt =
    Ledger.credit (Ledger.credit ended.world.state.balanceAt sender (e'.gas * t.gasPrice))
      M.info.author ((t.gas - e'.gas) * t.gasPrice)
  /-- The rest is the gas that is used. -/
  gasUsed : e'.res.map ExecutionResult.gasUsed = some (t.gas - e'.gas)
  gas_le : e'.gas ≤ t.gas
  /-- The prices do not wrap. -/
  price : (t.gas * t.gasPrice).toNat = t.gas.toNat * t.gasPrice.toNat
  priceLeft : (e'.gas * t.gasPrice).toNat = e'.gas.toNat * t.gasPrice.toNat
  priceUsed : ((t.gas - e'.gas) * t.gasPrice).toNat = (t.gas - e'.gas).toNat * t.gasPrice.toNat
  /-- The sums of gas do not wrap. -/
  refunded : e'.gas.toNat = ended.gas.toNat + e'.refunded.toNat
  base_le : t.baseGasRequired M.schedule ≤ (t.gas - e'.gas).toNat + e'.refunded.toNat
  le_gas : (t.gas - e'.gas).toNat + e'.refunded.toNat ≤ t.gas.toNat
  /-- No credit or debit wraps. -/
  exact : ∀ event ∈ e'.world.trace, event.Exact

theorem enter_entered {sender : Address} {done : Bool} (hcreation : e.isCreation = false)
    (h : enter M t sender e = .ok done e') : Entered M e done e' := by
  rw [enter, get_bind] at h
  split at h
  · exact entered_createOpcode h
  · exact entered_call hcreation h

/-- A product of gas and a price that fits for more gas. -/
theorem toNat_mul_of_le {gas limit price : U256} (h : gas ≤ limit)
    (hfits : limit.toNat * price.toNat < 2 ^ 256) :
    (gas * price).toNat = gas.toNat * price.toNat := by
  rw [BitVec.toNat_mul]
  exact Nat.mod_eq_of_lt ((Nat.mul_le_mul_right _ h).trans_lt hfits)

/-- The prices of what is left and of what is used. -/
theorem prices {gas limit price : U256} (h : gas ≤ limit)
    (hfits : limit.toNat * price.toNat < 2 ^ 256) :
    ((limit - gas) * price).toNat = (limit - gas).toNat * price.toNat ∧
      (gas * price).toNat + ((limit - gas) * price).toNat = (limit * price).toNat := by
  have hused : (limit - gas).toNat = limit.toNat - gas.toNat := BitVec.toNat_sub_of_le h
  have hused' : limit - gas ≤ limit := by
    rw [BitVec.le_def, hused]
    exact Nat.sub_le _ _
  have hprice := toNat_mul_of_le hused' hfits
  refine ⟨hprice, ?_⟩
  rw [hprice, toNat_mul_of_le (BitVec.le_refl limit) hfits, toNat_mul_of_le h hfits, hused,
    ← Nat.add_mul, Nat.add_sub_cancel' h]

/-- The gas that the frame of a transaction starts with. -/
theorem toNat_sub_base (hbase : t.baseGasRequired M.schedule ≤ t.gas.toNat) :
    (t.gas - BitVec.ofNat 256 (t.baseGasRequired M.schedule)).toNat =
      t.gas.toNat - t.baseGasRequired M.schedule := by
  have hlt := hbase.trans_lt t.gas.isLt
  rw [BitVec.toNat_sub_of_le, BitVec.toNat_ofNat, Nat.mod_eq_of_lt hlt]
  rw [BitVec.le_def, BitVec.toNat_ofNat, Nat.mod_eq_of_lt hlt]
  exact hbase

/-- What buying the gas leaves: the executive is ready for the frame of the transaction. -/
structure Bought (M : Setting) (t : TransactionBase) (sender : Address) (e e' : Executive H) :
    Prop where
  balanced : e'.world.state.Balanced
  balanceAt : e'.world.state.balanceAt =
    Ledger.debit e.world.state.balanceAt sender (t.gas * t.gasPrice)
  total : e'.world.total + (t.gas * t.gasPrice).toNat = e.world.total
  exact : Exact e.world e'.world
  transaction : e'.t = some t
  gas : e'.gas = 0
  res : e'.res.isSome = true
  baseGasRequired : e'.baseGasRequired = t.baseGasRequired M.schedule
  isCreation : e'.isCreation = e.isCreation
  exited : e'.world.exited = e.world.exited
  sub : e'.world.sub = e.world.sub

theorem buyGas_ok {sender : Address} {start : Executive H} (hstart : Initialized M t e start)
    (hgas : e.gas = 0) (hres : e.res.isSome = true) (hs : start.world.state.Balanced)
    (h : buyGas M sender start = .ok u e') : Bought M t sender start e' := by
  have hcost : start.gasCost = t.gas * t.gasPrice := by
    apply BitVec.eq_of_toNat_eq
    rw [BitVec.toNat_mul, ← hstart.gasCost, Nat.mod_eq_of_lt start.gasCost.isLt]
  rw [buyGas, get_bind, hcost] at h
  obtain ⟨htotal, hexact⟩ := debit_total hs h
  obtain ⟨-, s, hsets, rfl⟩ := subBalance_ok h
  exact
    { balanced := hsets.1.balanced hs
      balanceAt := hsets.2 hs
      total := htotal
      exact := hexact
      transaction := hstart.transaction
      gas := hstart.gas.trans hgas
      res := (congrArg Option.isSome hstart.res).trans hres
      baseGasRequired := hstart.baseGasRequired
      isCreation := rfl
      exited := rfl
      sub := rfl }

/-- The frame of a transaction spends no more gas than it starts with. -/
theorem within_runFrame (hthrifty : M.vm.Thrifty) (n : Nat) {sender : Address}
    (hbase : e.baseGasRequired = t.baseGasRequired M.schedule)
    (h : runFrame M (Nested.upTo M n) t sender e = .ok u e') :
    Within (fun _ => True) (t.gas - BitVec.ofNat 256 (t.baseGasRequired M.schedule)) e e' := by
  obtain ⟨done, entered, henter, hgo⟩ := bind_eq_ok.mp h
  have hwithin : Within (fun _ => True) (t.gas - BitVec.ofNat 256 e.baseGasRequired) e
      (after (enter M t sender) e) := within_enter sender e (BitVec.le_refl _)
  rw [after_of_ok henter, hbase] at hwithin
  refine trans_of (Within _ _) hwithin ((Moves.runIf (within_go ?_)).ends hgo)
  exact Nested.within_exec hthrifty (Nested.returns_upTo hthrifty n) _

/-- The frame of a transaction conserves ether while no block hash is looked up. -/
theorem continues_runFrame (halive : M.vm.ConfinedAlive) (n : Nat) {sender : Address}
    (hcreation : e.isCreation = false)
    (h : runFrame M (Nested.upTo M n) t sender e = .ok u e') :
    World.Continues M e.world e'.world := by
  obtain ⟨done, entered, henter, hgo⟩ := bind_eq_ok.mp h
  have hexec := conserves_exec halive (Nested.conserving_upTo (H := H) halive n)
  exact (enter_entered hcreation henter).finish hexec hgo

/-- **A transaction conserves ether.**  On a state in order, as all that are reached are
(`State.Reachable.balanced`), whose balances add up to less than `2 ^ 256`, if no block hash is
looked up by a transaction, with a machine that does not make gas and does not use
`suicide`. -/
theorem transaction_conserves_ether (M : Setting) (n : Nat) (t : TransactionBase) (s : State H)
    (hs : s.Balanced) (htotal : Ledger.total s.balanceAt < 2 ^ 256)
    (halive : M.vm.ConfinedAlive) (hthrifty : M.vm.Thrifty) {status : Bool} {e' : Executive H}
    (h : executeTransaction M (Nested.upTo M n) t (fresh s) = .ok status e')
    (hlookup : M.looksUp → Event.lookup ∉ e'.world.trace) :
    ∃ (sender : Address) (start bought ended : Executive H), t.sender = .ok sender ∧
      initializeWith M t (fresh s) = .ok () start ∧ buyGas M sender start = .ok () bought ∧
      runFrame M (Nested.upTo M n) t sender bought = .ok () ended ∧
      finalize M ended = .ok status e' ∧ EtherConserved M t sender s bought ended e' := by
  obtain ⟨u, start, hinit, h⟩ := bind_eq_ok.mp h
  obtain ⟨u, ended, hrun, hfinal⟩ := bind_eq_ok.mp h
  obtain ⟨done, entered, hexecute, hgo⟩ := bind_eq_ok.mp hrun
  obtain ⟨sender, same, hlift, hbuy⟩ := bind_eq_ok.mp hexecute
  obtain ⟨hsender, hsame⟩ := liftExcept_eq_ok.mp hlift
  rw [hsame] at hbuy
  obtain ⟨u, bought, hbuy, henter⟩ := bind_eq_ok.mp hbuy
  have hframe : runFrame M (Nested.upTo M n) t sender bought = .ok () ended :=
    bind_eq_ok.mpr ⟨done, entered, henter, hgo⟩
  refine ⟨sender, start, bought, ended, hsender, hinit, hbuy, hframe, hfinal, ?_⟩
  -- a lookup on the way would be in the trace at the end
  have hgrows : Moves Grows (executeAndGo M (Nested.upTo M n) t : Action H Unit) :=
    grows_executeAndGo (Nested.grows_exec halive.confined (Nested.grows_upTo halive.confined n)) t
  have hlookup₃ : M.looksUp → Event.lookup ∉ ended.world.trace := fun hlooks =>
    (grows_finalize.ends hfinal fun _ _ => trivial).1.not_mem (hlookup hlooks)
  have hlookup₁ : M.looksUp → Event.lookup ∉ start.world.trace := fun hlooks =>
    (hgrows.ends hrun fun _ _ => trivial).1.not_mem (hlookup₃ hlooks)
  have hstart := initialized rfl hinit
  obtain ⟨hruns, hsuicides, hkept⟩ := hstart.conserves.world.kept rfl hlookup₁
  obtain ⟨htotal₁, hexact₁⟩ := hkept hs htotal
  have hs₁ := hruns.balanced hs
  have hfresh : (fresh s).world.total = Ledger.total s.balanceAt := rfl
  have hfits : t.gas.toNat * t.gasPrice.toNat < 2 ^ 256 := hstart.gasCost ▸ start.gasCost.isLt
  -- the gas is bought
  have hbought := buyGas_ok hstart rfl rfl hs₁ hbuy
  have htotal₂ := hbought.total
  -- the frame
  have hcontinues := continues_runFrame halive n
    (hbought.isCreation.trans hstart.conserves.isCreation) hframe
  obtain ⟨hruns', hsuicides', hkept'⟩ := hcontinues.kept
    (hbought.exited.trans (hstart.conserves.world.running rfl)) hlookup₃
  obtain ⟨htotal₃, hexact₃⟩ := hkept' hbought.balanced (by omega)
  have hs₃ := hruns'.balanced hbought.balanced
  have hsuicides₃ : ended.world.sub.suicides = ∅ := hsuicides' (hbought.sub ▸ hsuicides rfl)
  have hwithin := within_runFrame hthrifty n hbought.baseGasRequired hframe
  have hgas₃ := (hwithin.gas trivial).2 (hbought.gas ▸ Nat.zero_le _)
  have hgas₃' : ended.gas.toNat ≤ t.gas.toNat - t.baseGasRequired M.schedule :=
    toNat_sub_base hstart.base_le ▸ hgas₃
  have hle : ended.gas ≤ t.gas := hgas₃'.trans (Nat.sub_le _ _)
  -- the end
  have hfinalized :=
    finalized (hwithin.t.trans hbought.transaction) hsender hle hs₃ hsuicides₃ hfinal
  have hleft : e'.gas.toNat ≤ t.gas.toNat := hfinalized.gas_le
  have hused : (t.gas - e'.gas).toNat = t.gas.toNat - e'.gas.toNat :=
    BitVec.toNat_sub_of_le hfinalized.gas_le
  obtain ⟨hpriceUsed, hshares⟩ := prices hfinalized.gas_le hfits
  have hall : ended.world.total + (t.gas * t.gasPrice).toNat = Ledger.total s.balanceAt := by
    rw [htotal₃, htotal₂, htotal₁, hfresh]
  obtain ⟨htotal₄, hexact₄⟩ := hfinalized.total (by omega)
  have hexact := trans_of Exact (trans_of Exact hexact₁ hbought.exact)
    (trans_of Exact hexact₃ hexact₄)
  exact
    { total := by
        have hend : e'.world.total = Ledger.total s.balanceAt := by omega
        exact hend
      bought := by rw [hbought.balanceAt, hstart.balanceAt hs]; rfl
      paid := hfinalized.balanceAt
      gasUsed := hfinalized.gasUsed (hwithin.res.trans hbought.res)
      gas_le := hfinalized.gas_le
      price := toNat_mul_of_le (BitVec.le_refl t.gas) hfits
      priceLeft := toNat_mul_of_le hfinalized.gas_le hfits
      priceUsed := hpriceUsed
      refunded := hfinalized.gas
      base_le := by
        have hgas := hfinalized.gas
        have hbase_le := hstart.base_le
        omega
      le_gas := by
        have hgas := hfinalized.gas
        omega
      exact := by
        obtain ⟨new, hnew, hnew'⟩ := hexact
        intro event hmem
        rw [hnew] at hmem
        exact hnew' event (by simpa [fresh] using hmem) }

/-! ## A creation -/

/-- A machine that sends 1 to the account 3 and gives back the gas that comes back. -/
def relayVM : VMFace where
  exec c gas w :=
    let r := c.host.call w
      ⟨c.message.myAddress, 3, 3, 1, 1, gas, [], false⟩
    (⟨.ok [], r.2.gas, true⟩, r.1)

theorem relayVM_confinedAlive : relayVM.ConfinedAlive := fun _ _ _ _ hkeeps _ w => hkeeps.call w _

theorem relayVM_thrifty : relayVM.Thrifty := fun _ hcall _ _ w => hcall w _

/-- A block with the given machine, far from the forks. -/
def relaySetting : Setting where
  engine := { evmSchedule := fun _ => .byzantium }
  info := { number := 300, gasLimit := 1000000, author := 9 }
  vm := relayVM
  sha3 := fun _ => 7

/-- The same in a block where block hashes are looked up by transactions. -/
def lateSetting : Setting :=
  { relaySetting with engine := { relaySetting.engine with constantinopleForkBlock := 0 } }

/-- The account 1 with the given balance, and no other. -/
def oneAccount (balance : U256) : State Bytes :=
  State.opened (ExtTreeMap.empty.insert 1 ⟨0, balance, ∅, []⟩) id 0

/-- The creation of a contract by the account 1. -/
def creation : TransactionBase where
  isCreation := true
  value := 5
  gasPrice := 1
  gas := 100000
  data := [0]
  cachedSender := 1

theorem oneAccount_balanced (balance : U256) : (oneAccount balance).Balanced :=
  (State.Reachable.opened _ _ _).balanced

theorem oneAccount_total (balance : U256) :
    Ledger.total (oneAccount balance).balanceAt = balance.toNat := by
  have hbalance : (oneAccount balance).balanceAt = Ledger.credit (fun _ => 0) 1 balance := by
    funext a
    rw [State.balanceAt_of_none (by simp [oneAccount, State.opened]), State.trieBalance,
      Ledger.credit, Function.update_apply]
    show (ExtTreeMap.insert _ _ _)[a]?.elim 0 Leaf.balance = _
    rw [getElem?_insert_eq]
    simp only [eq_comm (a := a)]
    split
    · exact (BitVec.zero_add balance).symm
    · simp
  have htotal : Ledger.total (fun _ : Address => (0 : U256)) = 0 := Finset.sum_const_zero
  have hcredit := Ledger.total_credit (b := fun _ : Address => (0 : U256)) (a := 1) (x := balance) (by
    rw [htotal, Nat.zero_add]
    exact balance.isLt)
  rw [hbalance, hcredit.2, htotal, Nat.zero_add]

/-- The theorem at a creation with a call inside, which looks up no block hash. -/
theorem transaction_conserves_ether_creation :
    lateSetting.looksUp ∧ ∃ e' : Executive Bytes,
      executeTransaction lateSetting (Nested.upTo lateSetting 2) creation
        (fresh (oneAccount 200000)) = .ok true e' ∧
      e'.world.state.balanceAt 3 = 1 ∧
      ∃ (sender : Address) (bought ended : Executive Bytes),
        EtherConserved lateSetting creation sender (oneAccount 200000) bought ended e' := by
  have hrun : executeTransaction lateSetting (Nested.upTo lateSetting 2) creation
      (fresh (oneAccount 200000)) = .ok true (after (executeTransaction lateSetting
        (Nested.upTo lateSetting 2) creation) (fresh (oneAccount 200000))) :=
    eq_ok_of_outcome (by decide +kernel)
  refine ⟨by decide, _, hrun, by decide +kernel, ?_⟩
  obtain ⟨sender, start, bought, ended, -, -, -, -, -, hconserved⟩ :=
    transaction_conserves_ether lateSetting 2 creation (oneAccount 200000)
      (oneAccount_balanced _) (by
        rw [oneAccount_total]
        exact (_ : U256).isLt) relayVM_confinedAlive relayVM_thrifty hrun
      fun _ => by decide +kernel
  exact ⟨sender, bought, ended, hconserved⟩

/-- The accounts 1 and 2, of which the second one has the greatest balance. -/
def richAccount : State Bytes :=
  State.opened ((ExtTreeMap.empty.insert 1 ⟨0, 200000, ∅, []⟩).insert 2 ⟨0, invalid256, ∅, []⟩) id 0

/-- A transfer of 5 to the account 2. -/
def transferTo2 : TransactionBase where
  receiveAddress := 2
  value := 5
  gasPrice := 1
  gas := 100000
  cachedSender := 1

theorem richAccount_balanced : richAccount.Balanced :=
  (State.Reachable.opened _ _ _).balanced

/-- A balance that wraps. -/
theorem ether_wraps :
    ¬∀ (M : Setting) (n : Nat) (t : TransactionBase) (s : State Bytes), s.Balanced → ¬M.looksUp →
      M.vm.ConfinedAlive → M.vm.Thrifty → ∀ (status : Bool) (e' : Executive Bytes),
        executeTransaction M (Nested.upTo M n) t (fresh s) = .ok status e' →
          ∃ (sender : Address) (bought ended : Executive Bytes),
            EtherConserved M t sender s bought ended e' := by
  intro h
  have hrun : executeTransaction relaySetting (Nested.upTo relaySetting 2) transferTo2
      (fresh richAccount) = .ok true (after (executeTransaction relaySetting
        (Nested.upTo relaySetting 2) transferTo2) (fresh richAccount)) :=
    eq_ok_of_outcome (by decide +kernel)
  have hcredit : Event.credit 2 invalid256 5 ∈ (after (executeTransaction relaySetting
      (Nested.upTo relaySetting 2) transferTo2) (fresh richAccount)).world.trace := by
    decide +kernel
  obtain ⟨sender, bought, ended, hconserved⟩ := h relaySetting 2 transferTo2 richAccount
    richAccount_balanced (by decide) relayVM_confinedAlive relayVM_thrifty true _ hrun
  have hexact : invalid256.toNat + (5 : U256).toNat < 2 ^ 256 := hconserved.exact _ hcredit
  exact absurd hexact (by decide)

end Executive

end CppSwc
