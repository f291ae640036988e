import CppSwc.Evm.Gas

/-!
# The gas of calls

A call takes the gas of its callee from the caller and gets back what the callee
leaves.  Without `eip150Mode` it hands the callee what the stack asks for, while
the amount that it takes is cut to what the caller has.  So a call that asks for more
than is left after its static costs makes gas.

`callCost` is what a call pays before that.  `Covered` says of the state before an
instruction that it is no such call, and `never_creates_gas` is about the runs whose
steps are all covered.  Under the declared schedules with `eip150Mode` every step is.
-/

namespace CppSwc.Evm

open Lib

namespace LegacyVM

variable {σ : Type} (c : Context σ)

/-! ## What a call costs -/

/-- `gasForMem`, without its checks. -/
def memGas (size : Nat) : Nat :=
  c.schedule.memoryGas.toNat * (size / 32) + size / 32 * (size / 32) / c.schedule.quadCoeffDiv.toNat

/-- `memNeed`, without its check. -/
def memEnd (offset size : U256) : Nat := if size ≠ 0 then offset.toNat + size.toNat else 0

/-- The end of the input of a call. -/
def inputEnd (s : LegacyVM σ) : Nat :=
  memEnd (s.sp (sizesOffset s.op)) (s.sp (sizesOffset s.op + 1))

/-- The end of the output of a call. -/
def outputEnd (s : LegacyVM σ) : Nat :=
  memEnd (s.sp (sizesOffset s.op + 2)) (s.sp (sizesOffset s.op + 3))

/-- The size that memory is given for a use up to `n`. -/
def roundUp (n : Nat) : Nat := (n + 31) / 32 * 32

/-- The memory of a call. -/
def callMemSize (s : LegacyVM σ) : Nat := roundUp (max (inputEnd s) (outputEnd s))

/-- The price of growing memory to `size`. -/
def growthGas (s : LegacyVM σ) (size : Nat) : Nat :=
  if s.mem.length < size then memGas c size - memGas c s.mem.length else 0

/-- What the accounts and the value of a call cost. -/
def accountGas (s : LegacyVM σ) : Nat :=
  c.schedule.callGas.toNat +
    (if createsAccount c s then c.schedule.callNewAccountGas.toNat else 0) +
    (if transfersValue s then c.schedule.callValueTransferGas.toNat else 0)

/-- The static costs of a call. -/
def callCost (s : LegacyVM σ) : Nat := accountGas c s + growthGas c s (callMemSize s)

theorem memGas_mono {m n : Nat} (h : m ≤ n) : memGas c m ≤ memGas c n := by
  have hwords : m / 32 ≤ n / 32 := Nat.div_le_div_right h
  exact Nat.add_le_add (Nat.mul_le_mul_left _ hwords)
    (Nat.div_le_div_right (Nat.mul_le_mul hwords hwords))

/-! ## The actions of a call that end well -/

theorem toInt63_eq_ok {v n : Nat} {s t : LegacyVM σ} :
    (toInt63 v : Action σ Nat) s = .ok n t ↔ v < 2 ^ 63 ∧ n = v ∧ t = s := by
  unfold toInt63
  split
  · have : ¬v < 2 ^ 63 := by omega
    simp only [this, false_and, iff_false]
    show ¬EStateM.Result.error _ _ = .ok n t
    simp
  · have : v < 2 ^ 63 := by omega
    simp only [this, true_and]
    exact pure_eq_ok

theorem toInt63_bind_eq_ok {α : Type} {f : Nat → Action σ α} {v : Nat} {s t : LegacyVM σ} {a : α} :
    (toInt63 v >>= f) s = .ok a t ↔ v < 2 ^ 63 ∧ f v s = .ok a t := by
  rw [bind_eq_ok]
  simp only [toInt63_eq_ok]
  constructor
  · rintro ⟨_, _, ⟨hv, rfl, rfl⟩, h⟩
    exact ⟨hv, h⟩
  · rintro ⟨hv, h⟩
    exact ⟨v, s, ⟨hv, rfl, rfl⟩, h⟩

theorem gasForMem_bind_ok {α : Type} {f : Nat → Action σ α} {size : Nat} {s t : LegacyVM σ} {a : α}
    (h : (gasForMem c size >>= f) s = .ok a t) :
    c.schedule.quadCoeffDiv ≠ 0 ∧ memGas c size < 2 ^ 63 ∧ f (memGas c size) s = .ok a t := by
  unfold gasForMem at h
  split at h
  · cases h
  · exact ⟨‹_›, toInt63_bind_eq_ok.mp h⟩

theorem updateIOGas_eq_ok {s t : LegacyVM σ} {u : Unit} :
    updateIOGas s = .ok u t ↔
      s.runGas ≤ s.ioGas ∧ t = { s with ioGas := s.ioGas - s.runGas } := by
  simp only [updateIOGas, get_bind, throwIf_bind_eq_ok, modify_eq_ok, Nat.not_lt]

/-- `updateGas` of a state without bytes to copy. -/
theorem updateGas_ok {s t : LegacyVM σ} {u : Unit} (hcopy : s.copyMemSize = 0)
    (hrun : s.runGas < 2 ^ 63) (h : updateGas c s = .ok u t) :
    (s.mem.length < s.newMemSize →
        c.schedule.quadCoeffDiv ≠ 0 ∧ memGas c s.newMemSize < 2 ^ 63) ∧
      t = { s with runGas := s.runGas + growthGas c s s.newMemSize } := by
  rw [updateGas, get_bind] at h
  obtain ⟨_, s₁, hgrow, h⟩ := bind_eq_ok.mp h
  -- the bytes to copy cost nothing, so the memory is all that is added
  have hcopied : s₁.runGas < 2 ^ 64 → t = s₁ := by
    intro hlt
    rw [addRunGas, modify_bind, get_bind] at h
    obtain ⟨-, rfl⟩ := throwIf_eq_ok.mp h
    simp only [hcopy]
    rw [show c.schedule.copyGas.toNat * ((0 + 31) / 32) = 0 by simp, Nat.add_zero,
      Nat.mod_eq_of_lt hlt]
  rcases runIf_eq_ok.mp hgrow with ⟨hlt, hgrow⟩ | ⟨hge, rfl⟩
  · obtain ⟨hquad, hbound, hgrow⟩ := gasForMem_bind_ok c hgrow
    obtain ⟨-, -, hgrow⟩ := gasForMem_bind_ok c hgrow
    obtain ⟨-, hgrow⟩ := toInt63_bind_eq_ok.mp hgrow
    have hs₁ := modify_eq_ok.mp hgrow
    have hmono := memGas_mono c (Nat.le_of_lt hlt)
    have hdiff : (memGas c s.newMemSize + 2 ^ 64 - memGas c s.mem.length) % 2 ^ 64 =
        memGas c s.newMemSize - memGas c s.mem.length := by
      omega
    refine ⟨fun _ => ⟨hquad, hbound⟩, ?_⟩
    rw [hcopied (hs₁ ▸ Nat.mod_lt _ (by decide)), hs₁, hdiff, growthGas, if_pos hlt,
      Nat.mod_eq_of_lt]
    omega
  · refine ⟨fun hlt => absurd hlt hge, ?_⟩
    rw [hcopied (by omega), growthGas, if_neg hge, Nat.add_zero]

/-- `updateMem` of a state without bytes to copy pays for the growth. -/
theorem updateMem_ok {s t : LegacyVM σ} {n : Nat} {u : Unit} (hcopy : s.copyMemSize = 0)
    (hrun : s.runGas < 2 ^ 63) (h : updateMem c n s = .ok u t) :
    (s.mem.length < roundUp n → c.schedule.quadCoeffDiv ≠ 0 ∧ memGas c (roundUp n) < 2 ^ 63) ∧
      t = { s with
        runGas := s.runGas + growthGas c s (roundUp n)
        newMemSize := roundUp n
        mem := s.mem ++ List.replicate (roundUp n - s.mem.length) 0 } := by
  rw [updateMem, modify_bind] at h
  obtain ⟨_, t₁, hgas, h⟩ := bind_eq_ok.mp h
  obtain ⟨hmem, ht₁⟩ := updateGas_ok c (by exact hcopy) (by exact hrun) hgas
  refine ⟨hmem, ?_⟩
  rw [modify_eq_ok.mp h, ht₁]
  rfl

/-- The memory that a call needs can be paid for. -/
def MemoryFits (s : LegacyVM σ) : Prop :=
  inputEnd s < 2 ^ 63 ∧ outputEnd s < 2 ^ 63 ∧
    (s.mem.length < callMemSize s →
      c.schedule.quadCoeffDiv ≠ 0 ∧ memGas c (callMemSize s) < 2 ^ 63)

theorem accountGas_lt (s : LegacyVM σ) : accountGas c s < 2 ^ 34 := by
  have h₁ := c.schedule.callGas.toNat_lt
  have h₂ := c.schedule.callNewAccountGas.toNat_lt
  have h₃ := c.schedule.callValueTransferGas.toNat_lt
  unfold accountGas
  split <;> split <;> omega

theorem runIf_addRunGas {p : Prop} [Decidable p] {gas : Nat} {s t : LegacyVM σ} {u : Unit}
    (hbound : s.runGas + gas < 2 ^ 64) (h : runIf p (addRunGas gas) s = .ok u t) :
    t = { s with runGas := s.runGas + if p then gas else 0 } := by
  rcases runIf_eq_ok.mp h with ⟨hp, h⟩ | ⟨hp, rfl⟩
  · rw [modify_eq_ok.mp h, if_pos hp, Nat.mod_eq_of_lt hbound]
  · rw [if_neg hp, Nat.add_zero]

/-- The static costs are paid, and only they. -/
theorem callStaticCosts_ok {s t : LegacyVM σ} {u : Unit} (hcopy : s.copyMemSize = 0)
    (h : callStaticCosts c s = .ok u t) :
    MemoryFits c s ∧ t.ioGas + callCost c s = s.ioGas ∧ t.stack = s.stack ∧ t.op = s.op ∧
      t.handovers = s.handovers := by
  have hnew := c.schedule.callNewAccountGas.toNat_lt
  have hvalue := c.schedule.callValueTransferGas.toNat_lt
  have hcall := c.schedule.callGas.toNat_lt
  rw [callStaticCosts, setRunGas, modify_bind, get_bind] at h
  obtain ⟨_, s₁, hadd, h⟩ := bind_eq_ok.mp h
  obtain rfl := runIf_addRunGas (by show c.schedule.callGas.toNat + _ < _; omega) hadd
  obtain ⟨_, s₂, hadd, h⟩ := bind_eq_ok.mp h
  have hle : (if createsAccount c s then c.schedule.callNewAccountGas.toNat else 0) < 2 ^ 32 := by
    split <;> omega
  obtain rfl := runIf_addRunGas
    (by show c.schedule.callGas.toNat + ite (createsAccount c s = true) _ _ + _ < _; omega) hadd
  obtain ⟨hinput, h⟩ := toInt63_bind_eq_ok.mp h
  obtain ⟨houtput, h⟩ := toInt63_bind_eq_ok.mp h
  obtain ⟨_, s₃, hmem, h⟩ := bind_eq_ok.mp h
  have hrun := accountGas_lt c s
  obtain ⟨hfits, rfl⟩ := updateMem_ok c (by exact hcopy)
    (by show accountGas c s < _; omega) hmem
  obtain ⟨hpaid, rfl⟩ := updateIOGas_eq_ok.mp h
  refine ⟨⟨hinput, houtput, hfits⟩, ?_, rfl, rfl, rfl⟩
  exact Nat.sub_add_cancel hpaid

/-- The gas of the callee is what the caller has for it. -/
theorem callGas_ok {s t : LegacyVM σ} {gas : U256}
    (h : callGas c s = .ok gas t) :
    gas.toNat < 2 ^ 63 ∧
      (c.schedule.staticCallDepthLimit = true → gas = s.sp 0) ∧
      (c.schedule.staticCallDepthLimit = false → gas.toNat ≤ s.ioGas) ∧
      t = { s with runGas := min gas.toNat s.ioGas, ioGas := s.ioGas - min gas.toNat s.ioGas } := by
  rw [callGas, get_bind] at h
  obtain ⟨hbound, h⟩ := toInt63_bind_eq_ok.mp h
  rw [setRunGas, modify_bind] at h
  obtain ⟨_, s₁, hpay, h⟩ := bind_eq_ok.mp h
  obtain ⟨-, rfl⟩ := updateIOGas_eq_ok.mp hpay
  obtain ⟨rfl, rfl⟩ := pure_eq_ok.mp h
  refine ⟨hbound, ?_, ?_, ?_⟩
  · intro hlimit
    simp [hlimit]
  · intro hlimit
    simp only [hlimit, Bool.false_eq_true, if_false, BitVec.toNat_ofNat]
    exact Nat.le_trans (Nat.mod_le _ _) (Nat.le_trans (Nat.min_le_right _ _) (Nat.sub_le _ _))
  · generalize (ite (c.schedule.staticCallDepthLimit = true) _ _ : U256).toNat = g
    have hmin : (if s.ioGas < g then s.ioGas else g) = min g s.ioGas := by
      split <;> omega
    simp only [hmin]

/-! ## Calls that are covered -/

/-- The instruction at the program counter is fetched. -/
def fetched (s : LegacyVM σ) : LegacyVM σ := { s with op := .ofByte (c.program.code.getD s.pc 0) }

/-- The instruction is a call that passes every check up to the gas of its callee. -/
def Calls (s : LegacyVM σ) : Prop :=
  isCall s.op ∧ s.op.metric.args ≤ s.stack.length ∧
    s.stack.length - s.op.metric.args + s.op.metric.ret ≤ 1024 ∧
    (s.op = .delegatecall → c.schedule.haveDelegateCall) ∧
    (s.op = .staticcall → c.schedule.haveStaticCall) ∧
    ¬(s.op = .call ∧ c.message.staticCall ∧ s.sp 2 ≠ 0) ∧
    MemoryFits c s ∧ callCost c s ≤ s.ioGas ∧
    (c.schedule.staticCallDepthLimit → (s.sp 0).toNat < 2 ^ 63)

/-- If the next instruction is a call, then the caller has the gas that it asks for
without `eip150Mode`, and its static costs are no less than its stipend. -/
def Covered (s : LegacyVM σ) : Prop :=
  Calls c (fetched c s) →
    (c.schedule.staticCallDepthLimit →
      callCost c (fetched c s) + ((fetched c s).sp 0).toNat ≤ s.ioGas) ∧
    stipend c (fetched c s) ≤ callCost c (fetched c s)

instance (s : LegacyVM σ) : Decidable (MemoryFits c s) :=
  inferInstanceAs (Decidable (_ ∧ _ ∧ (_ → _)))

instance (s : LegacyVM σ) : Decidable (Calls c s) :=
  inferInstanceAs (Decidable (_ ∧ _ ∧ _ ∧ (_ → _) ∧ (_ → _) ∧ ¬_ ∧ _ ∧ _ ∧ (_ → _)))

instance (s : LegacyVM σ) : Decidable (Covered c s) :=
  inferInstanceAs (Decidable (_ → (_ → _) ∧ _))

/-- The declared schedules charge more for a transfer than the stipend. -/
theorem stipend_le_callCost (hc : c.schedule ∈ EVMSchedule.standard) (s : LegacyVM σ) :
    stipend c s ≤ callCost c s := by
  have hle : ∀ x ∈ EVMSchedule.standard, x.callStipend.toNat ≤ x.callValueTransferGas.toNat := by
    decide
  have hx := hle _ hc
  unfold stipend callCost accountGas
  split <;> omega

/-- Under the declared schedules with `eip150Mode` every step is covered. -/
theorem covered_of_eip150 (hc : c.schedule ∈ EVMSchedule.standard)
    (hmode : c.schedule.eip150Mode = true) (s : LegacyVM σ) : Covered c s := by
  intro _
  refine ⟨fun hlimit => ?_, stipend_le_callCost c hc _⟩
  simp [EVMSchedule.staticCallDepthLimit, hmode] at hlimit

variable {ok : σ → Prop}

/-- The end of a call that took what it gives. -/
theorem finishCall_bound (hcall : CallReturnsOn c ok) (s : LegacyVM σ) (params : CallParameters)
    (hok : ok (finishCall c params s).ext) :
    ok s.ext ∧ (finishCall c params s).ioGas ≤ s.ioGas + params.gas.toNat ∧
      ∀ h ∈ (finishCall c params s).handovers,
        h ∈ s.handovers ∨ h = ⟨s.runGas, stipend c s, params.gas.toNat⟩ := by
  unfold finishCall at hok ⊢
  split at hok
  · obtain ⟨hbefore, hreturned⟩ := hcall s.ext params hok
    have hleft : (c.host.call s.ext params).2.gas.toNat ≤ params.gas.toNat := hreturned
    rw [if_pos ‹_›]
    refine ⟨hbefore, ?_, ?_⟩
    · exact Nat.le_trans (Nat.mod_le _ _)
        (Nat.add_le_add_left (Nat.le_trans (Nat.mod_le _ _) hleft) _)
    · intro h hh
      exact (List.mem_append.mp hh).imp_right List.mem_singleton.mp
  · rw [if_neg ‹_›]
    refine ⟨hok, ?_, fun h hh => .inl hh⟩
    exact Nat.le_trans (Nat.mod_le _ _) (Nat.add_le_add_left (Nat.mod_le _ _) _)

/-- There is no more gas, and every other handover gives at most what was deducted and
the stipend. -/
def Fair (s s' : LegacyVM σ) : Prop :=
  s'.ioGas ≤ s.ioGas ∧
    ∀ h ∈ s'.handovers, h ∈ s.handovers ∨ h.given ≤ h.deducted + h.stipend

/-- The world was good before if it is now, and then the action is fair. -/
structure FairOn (ok : σ → Prop) (s s' : LegacyVM σ) : Prop where
  world : ok s'.ext → ok s.ext
  fair : ok s'.ext → s.ioGas < 2 ^ 64 → Fair s s'

theorem SpendsOn.fairOn {s s' : LegacyVM σ} (h : SpendsOn ok s s') : FairOn ok s s' where
  world := h.world
  fair hok hs := ⟨h.gas hok hs, fun _ hx => .inl (h.handovers ▸ hx)⟩

theorem Fair.trans {s t u : LegacyVM σ} (hst : Fair s t) (htu : Fair t u) : Fair s u := by
  refine ⟨Nat.le_trans htu.1 hst.1, fun h hh => ?_⟩
  rcases htu.2 h hh with hh | hh
  · exact hst.2 h hh
  · exact .inr hh

theorem FairOn.trans {s t u : LegacyVM σ} (hst : FairOn ok s t) (htu : FairOn ok t u) :
    FairOn ok s u := by
  refine ⟨hst.world ∘ htu.world, fun hok hs => ?_⟩
  have hfair := hst.fair (htu.world hok) hs
  exact hfair.trans (htu.fair hok (Nat.lt_of_le_of_lt hfair.1 hs))

/-- What a quiet action leaves when it throws. -/
theorem fairOn_of_error {α : Type} {m : Action σ α} (hm : Moves Quiet m) {s t : LegacyVM σ}
    {e : VMException} (h : m s = .error e t) : FairOn ok s t := by
  have := hm s
  rw [after_of_error h] at this
  exact this.spendsOn.fairOn

/-- The gas with the stipend does not wrap. -/
theorem given_eq {gas : U256} (hgas : gas.toNat < 2 ^ 63) (s : LegacyVM σ) :
    (gas + BitVec.ofNat 256 (stipend c s)).toNat = gas.toNat + stipend c s := by
  have hlt : stipend c s < 2 ^ 32 := by
    have := c.schedule.callStipend.toNat_lt
    unfold stipend
    split <;> omega
  rw [BitVec.toNat_add, BitVec.toNat_ofNat, Nat.mod_eq_of_lt (by omega : stipend c s < 2 ^ 256),
    Nat.mod_eq_of_lt (by omega)]

theorem stipend_congr {s t : LegacyVM σ} (hstack : t.stack = s.stack) (hop : t.op = s.op) :
    stipend c t = stipend c s := by
  have : transfersValue t = transfersValue s := by simp only [transfersValue, sp, hstack, hop]
  rw [stipend, stipend, this]

/-- The callee gets the gas that was taken and the stipend, and returns at most that. -/
theorem fairOn_finishCall (hcall : CallReturnsOn c ok) {s t : LegacyVM σ} {gas : U256}
    (hgas : gas.toNat < 2 ^ 63) (hext : t.ext = s.ext) (hstack : t.stack = s.stack)
    (hop : t.op = s.op) (hhand : t.handovers = s.handovers) (hrun : t.runGas = gas.toNat)
    (hpaid : t.ioGas + gas.toNat + stipend c s ≤ s.ioGas) :
    FairOn ok s (finishCall c (callParameters c (gas + BitVec.ofNat 256 (stipend c t)) t) t) := by
  have hbound := finishCall_bound c hcall t
    (callParameters c (gas + BitVec.ofNat 256 (stipend c t)) t)
  have hgiven : (callParameters c (gas + BitVec.ofNat 256 (stipend c t)) t).gas.toNat =
      gas.toNat + stipend c s :=
    (given_eq c hgas t).trans (by rw [stipend_congr c hstack hop])
  refine ⟨fun hok => hext ▸ (hbound hok).1, fun hok _ => ?_⟩
  obtain ⟨-, hle, hnew⟩ := hbound hok
  rw [hgiven] at hle hnew
  refine ⟨by omega, fun h hh => ?_⟩
  rcases hnew h hh with hh | rfl
  · exact .inl (hhand ▸ hh)
  · refine .inr ?_
    show gas.toNat + stipend c s ≤ t.runGas + stipend c t
    exact Nat.le_of_eq (by rw [hrun, stipend_congr c hstack hop])

/-- A call whose caller has what it asks for is fair. -/
theorem fairOn_caseCall (hcall : CallReturnsOn c ok) {s : LegacyVM σ}
    (hcopy : s.copyMemSize = 0)
    (hcovered : MemoryFits c s → callCost c s ≤ s.ioGas →
      (c.schedule.staticCallDepthLimit → (s.sp 0).toNat < 2 ^ 63) →
      (c.schedule.staticCallDepthLimit → callCost c s + (s.sp 0).toNat ≤ s.ioGas) ∧
        stipend c s ≤ callCost c s) :
    FairOn ok s (after (caseCall c) s) := by
  show FairOn ok s (after (callStaticCosts c >>= _) { s with returnData := [] })
  have hquiet : Moves Quiet (callStaticCosts c) := Metered.quiet (metered_callStaticCosts c)
  refine after_bind (fun e t h => ?_) ?_
  · have hfair : FairOn ok { s with returnData := [] } t := fairOn_of_error hquiet h
    exact ⟨hfair.world, hfair.fair⟩
  intro _ t hstatic
  have hext : t.ext = s.ext := by
    have hsame := (hquiet { s with returnData := [] }).1
    rw [after_of_ok hstatic] at hsame
    exact hsame
  obtain ⟨hfits, hpaid, hstack, hop, hhand⟩ := callStaticCosts_ok c (by exact hcopy) hstatic
  replace hpaid : t.ioGas + callCost c s = s.ioGas := hpaid
  have hsp : t.sp 0 = s.sp 0 := by rw [sp, sp, hstack]
  have ht : FairOn ok s t :=
    ⟨fun hok => hext ▸ hok, fun _ _ => ⟨by omega, fun h hh => .inl (hhand ▸ hh)⟩⟩
  refine after_bind (fun e t' h => ht.trans (fairOn_of_error (Metered.quiet (metered_callGas c)) h)) ?_
  intro gas u hgas
  obtain ⟨hbound, hlimit, hshare, rfl⟩ := callGas_ok c hgas
  have hasked : c.schedule.staticCallDepthLimit → (s.sp 0).toNat < 2 ^ 63 := by
    intro hmode
    rw [← hsp, ← hlimit hmode]
    exact hbound
  obtain ⟨hask, hstipend⟩ := hcovered hfits (by omega) hasked
  -- the caller has the gas of the callee, so that the minimum is that gas
  have hhas : gas.toNat ≤ t.ioGas := by
    cases hmode : c.schedule.staticCallDepthLimit with
    | true =>
        have := hask hmode
        rw [hlimit hmode, hsp]
        omega
    | false => exact hshare hmode
  rw [Nat.min_eq_left hhas]
  have hpaid' : t.ioGas - gas.toNat + gas.toNat + stipend c s ≤ s.ioGas := by omega
  have hfinish := fairOn_finishCall c hcall
    (t := { t with runGas := gas.toNat, ioGas := t.ioGas - gas.toNat }) hbound hext hstack hop hhand
    rfl hpaid'
  rw [after_modify_bind]
  exact hfinish.trans (quiet_next _).spendsOn.fairOn

/-! ## Steps and runs -/

/-- What `fetchInstruction` checks and sets. -/
theorem fetchInstruction_ok {s t : LegacyVM σ} {u : Unit} (h : fetchInstruction c s = .ok u t) :
    (fetched c s).op.metric.args ≤ s.stack.length ∧
      s.stack.length - (fetched c s).op.metric.args + (fetched c s).op.metric.ret ≤ 1024 ∧
      t = { fetched c s with
        runGas := (c.schedule.tierGas (fetched c s).op.metric.gasPriceTier).toNat
        newMemSize := s.mem.length
        copyMemSize := 0 } := by
  rw [fetchInstruction, modify_bind, get_bind] at h
  obtain ⟨_, s₁, hadjust, h⟩ := bind_eq_ok.mp h
  rw [adjustStack, get_bind] at hadjust
  obtain ⟨hargs, hadjust⟩ := throwIf_bind_eq_ok.mp hadjust
  obtain ⟨hfit, rfl⟩ := throwIf_eq_ok.mp hadjust
  exact ⟨Nat.le_of_not_lt hargs, Nat.le_of_not_lt hfit, modify_eq_ok.mp h⟩

/-- What `allowCall` checks. -/
theorem allowCall_ok {s t : LegacyVM σ} {u : Unit} (h : allowCall c s = .ok u t) :
    (s.op = .delegatecall → c.schedule.haveDelegateCall) ∧
      (s.op = .staticcall → c.schedule.haveStaticCall) ∧
      ¬(s.op = .call ∧ c.message.staticCall ∧ s.sp 2 ≠ 0) ∧ t = s := by
  rw [allowCall, get_bind] at h
  obtain ⟨_, s₁, hdelegate, h⟩ := bind_eq_ok.mp h
  obtain ⟨_, s₂, hstatic, h⟩ := bind_eq_ok.mp h
  obtain ⟨hvalue, rfl⟩ := throwIf_eq_ok.mp h
  have hfeature : ∀ {p : Prop} [Decidable p] {b : Bool} {s t : LegacyVM σ} {u : Unit},
      runIf p (enabled b) s = .ok u t → (p → b = true) ∧ t = s := by
    intro p _ b s t u h
    rcases runIf_eq_ok.mp h with ⟨hp, h⟩ | ⟨hp, rfl⟩
    · obtain ⟨hb, rfl⟩ := throwIf_eq_ok.mp h
      exact ⟨fun _ => Bool.not_eq_false _ ▸ hb, rfl⟩
    · exact ⟨fun h => absurd h hp, rfl⟩
  obtain ⟨hdelegate, rfl⟩ := hfeature hdelegate
  obtain ⟨hstatic, rfl⟩ := hfeature hstatic
  exact ⟨hdelegate, hstatic, hvalue, rfl⟩

theorem interpretCases_call {i : Instruction} (hi : isCall i = true) :
    interpretCases c i = (do allowCall c; caseCall c) := by
  cases i with
  | delegatecall | staticcall | call | callcode => rfl
  | _ => cases hi

/-- A covered instruction is fair, thrown or not, as long as the world is good. -/
theorem fairOn_execOne (hcall : CallReturnsOn c ok) (hcreate : CreateReturnsOn c ok)
    {s : LegacyVM σ} (hcovered : Covered c s) : FairOn ok s (after (execOne c) s) := by
  refine after_bind (fun e t h => fairOn_of_error (quiet_fetchInstruction c) h) ?_
  intro _ t hfetch
  obtain ⟨hargs, hfit, rfl⟩ := fetchInstruction_ok c hfetch
  have hsame : ∀ {t}, FairOn ok { fetched c s with
      runGas := (c.schedule.tierGas (fetched c s).op.metric.gasPriceTier).toNat
      newMemSize := s.mem.length
      copyMemSize := 0 } t → FairOn ok s t := fun h => ⟨h.world, h.fair⟩
  refine hsame ?_
  show FairOn ok _ (after (interpretCases c (fetched c s).op) _)
  cases hop : isCall (fetched c s).op with
  | false => exact (spendsOn_interpretCases hcreate _ hop _).fairOn
  | true =>
      rw [interpretCases_call c hop]
      refine after_bind (fun e t h => fairOn_of_error (Metered.quiet (metered_allowCall c)) h) ?_
      intro _ t hallow
      obtain ⟨hdelegate, hstatic, hvalue, rfl⟩ := allowCall_ok c hallow
      refine fairOn_caseCall c hcall rfl fun hmem hcost hasked => ?_
      exact hcovered ⟨hop, hargs, hfit, hdelegate, hstatic, hvalue, hmem, hcost, hasked⟩

theorem fair_execOne (hcall : CallReturns c) (hcreate : CreateReturns c) {s : LegacyVM σ}
    (hs : s.ioGas < 2 ^ 63) (hcovered : Covered c s) : Fair s (after (execOne c) s) :=
  (fairOn_execOne c (fun w p _ => ⟨trivial, hcall w p⟩) hcreate.on hcovered).fair trivial
    (Nat.lt_trans hs (by decide))

end LegacyVM

namespace Execution

open LegacyVM

variable {σ : Type} {c : Context σ}

/-- A step leaves the machine that its instruction leaves. -/
theorem vm_of_step {x x' : Execution σ} (h : x.step c = some x') :
    x'.vm = after (execOne c) x.vm := by
  cases x with
  | returned output s => cases h
  | thrown e s => cases h
  | running s =>
      simp only [step] at h
      split at h
      · cases h
        exact (after_of_ok ‹_›).symm
      · cases h
        exact (after_of_ok ‹_›).symm
      · cases h
        exact (after_of_error ‹_›).symm

/-- There is at most `gas` gas, and every callee was given at most what its caller was
charged and the stipend. -/
def Bounded (gas : Nat) (s : LegacyVM σ) : Prop :=
  s.ioGas ≤ gas ∧ ∀ h ∈ s.handovers, h.given ≤ h.deducted + h.stipend

/-- **An execution whose calls are covered by the gas of their callers makes no gas**,
for any code, schedule and machine, and none of its callees gets more than its caller
was charged and the stipend. -/
theorem never_creates_gas (c : Context σ) (gas : U256) (vm : LegacyVM σ)
    (hgas : gas.toNat < 2 ^ 63) (hcall : CallReturns c) (hcreate : CreateReturns c)
    {x : Execution σ} (hx : (system c gas vm).Reach (fun x _ => Covered c x.vm) x) :
    Bounded gas.toNat x.vm := by
  refine hx.invariant (I := fun x => Bounded gas.toNat x.vm) ?_ ?_
  · rintro _ rfl
    refine ⟨Nat.mod_le _ _, ?_⟩
    rintro h ⟨⟩
  · intro x _ x' _ hbounded hcovered hstep
    rw [vm_of_step hstep]
    obtain ⟨hle, hhand⟩ :=
      fair_execOne c hcall hcreate (Nat.lt_of_le_of_lt hbounded.1 hgas) hcovered
    refine ⟨Nat.le_trans hle hbounded.1, fun h hh => ?_⟩
    exact (hhand h hh).elim (hbounded.2 h) id

/-- A host without storage whose callees and creations return all their gas. -/
def idleHost : Host Unit where
  store _ _ := 0
  setStore w _ _ := w
  balance _ _ := 0
  codeAt _ _ := []
  codeSizeAt _ _ := 0
  exists' _ _ := true
  suicide w _ := w
  create w p := (w, ⟨1, [], p.gas⟩)
  call w p := (w, ⟨true, [], p.gas⟩)
  log w _ _ := w
  blockHash w _ := (w, 0)
  addRefunds w _ := w

/-- A contract that calls the account 1 with the gas of a four byte literal and stops,
under the schedule of `QposSealEngine`. -/
def callerOf (gas : List UInt8) : Context Unit where
  optimized := false
  schedule := EVMSchedule.qpos 1
  message :=
    { code := [0x60, 0, 0x60, 0, 0x60, 0, 0x60, 0, 0x60, 0, 0x60, 1, 0x63] ++ gas ++ [0xf1, 0] }
  env := {}
  host := idleHost
  sha3 _ := 0

/-- A machine as it is constructed. -/
def freshVM : LegacyVM Unit := { ioGas := 0, ext := () }

/-- A call that asks for less than the caller has, run to its end. -/
theorem never_creates_gas_covered_call :
    ∃ x, (system (callerOf [0, 0, 0, 100]) 100000 freshVM).Reach
        (fun x _ => Covered (callerOf [0, 0, 0, 100]) x.vm) x ∧
      x.vm.handovers ≠ [] ∧ Bounded 100000 x.vm := by
  have hrun : ∃ x, (system (callerOf [0, 0, 0, 100]) 100000 freshVM).Reach
      (fun x _ => Covered (callerOf [0, 0, 0, 100]) x.vm) x ∧
        decide (x.vm.handovers ≠ []) = true :=
    System.Reach.exists_of_check (List.replicate 9 ()) (.init rfl) (by decide +kernel)
      (by decide +kernel)
  obtain ⟨x, hx, hhand⟩ := hrun
  refine ⟨x, hx, of_decide_eq_true hhand, ?_⟩
  exact never_creates_gas _ 100000 _ (by decide) (fun _ _ => BitVec.le_refl _)
    (fun _ _ => BitVec.le_refl _) hx

/-- The execution has stopped with more than `gas` gas, and a callee was given more
than its caller was charged. -/
def overdrawn (gas : Nat) : Execution σ → Bool
  | .returned _ vm =>
      gas < vm.ioGas && vm.handovers.any fun h => h.deducted + h.stipend < h.given
  | _ => false

/-- A call that asks for more than the caller has ends with more gas than there was at
the start, and the callee got more than was taken. -/
theorem literal_gas_creates_gas :
    CallReturns (callerOf [0x7f, 0xff, 0xff, 0xff]) ∧
      CreateReturns (callerOf [0x7f, 0xff, 0xff, 0xff]) ∧
      ∃ x, (system (callerOf [0x7f, 0xff, 0xff, 0xff]) 100000 freshVM).Reach (fun _ _ => True) x ∧
        overdrawn 100000 x = true := by
  refine ⟨fun _ _ => BitVec.le_refl _, fun _ _ => BitVec.le_refl _, ?_⟩
  exact System.Reach.exists_of_check (List.replicate 9 ()) (.init rfl) (by decide +kernel)
    (by decide +kernel)

end Execution

end CppSwc.Evm
