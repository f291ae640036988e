import CppSwc.Evm.Calls

/-!
# Virtual machines

`VMFace`: a machine runs code on a host.  It is `Confined` if it changes the world by the
operations of the host only, whatever the host is: a relation between worlds that these
operations keep is kept by `exec`.

`LegacyVM` is such a machine.  Its `exec` is followed for a number of instructions, and a
run that takes more of them is cut off as if it had run out of gas.
-/

namespace CppSwc.Evm

open Lib

/-- What `exec` ends with. -/
structure VMResult where
  /-- The output, or an exception. -/
  outcome : Except VMException Bytes
  /-- The gas that is written back. -/
  gas : U256
  /-- Every call was covered by the gas of its caller.  The code keeps no such record. -/
  covered : Bool := true

/-- `VMFace`. -/
structure VMFace where
  exec : {σ : Type} → Context σ → U256 → σ → VMResult × σ

/-- The operations of a host but `suicide` take its world along a relation. -/
structure Host.Keeps {σ : Type} (h : Host σ) (R : σ → σ → Prop) : Prop where
  setStore : ∀ w key value, R w (h.setStore w key value)
  create : ∀ w p, R w (h.create w p).1
  call : ∀ w p, R w (h.call w p).1
  log : ∀ w topics data, R w (h.log w topics data)
  blockHash : ∀ w number, R w (h.blockHash w number).1
  addRefunds : ∀ w gas, R w (h.addRefunds w gas)

namespace VMFace

/-- The world is changed by the operations of the host only. -/
def Confined (vm : VMFace) : Prop :=
  ∀ {σ : Type} (c : Context σ) (R : σ → σ → Prop) [Std.Refl R] [IsTrans σ R], c.host.Keeps R →
    (∀ w dest, R w (c.host.suicide w dest)) → ∀ gas w, R w (vm.exec c gas w).2

/-- The world is changed by the operations of the host but `suicide`. -/
def ConfinedAlive (vm : VMFace) : Prop :=
  ∀ {σ : Type} (c : Context σ) (R : σ → σ → Prop) [Std.Refl R] [IsTrans σ R], c.host.Keeps R →
    ∀ gas w, R w (vm.exec c gas w).2

theorem ConfinedAlive.confined {vm : VMFace} (h : vm.ConfinedAlive) : vm.Confined :=
  fun c R _ _ hkeeps _ => h c R hkeeps

/-- At most the gas that is given comes back, if that is true of callees and creations. -/
def Thrifty (vm : VMFace) : Prop :=
  ∀ {σ : Type} (c : Context σ), LegacyVM.CallReturns c → LegacyVM.CreateReturns c →
    ∀ gas w, (vm.exec c gas w).1.gas ≤ gas

end VMFace

/-! ## LegacyVM -/

namespace Execution

variable {σ : Type}

/-- Up to `n` instructions. -/
def run (c : Context σ) : Nat → Execution σ → Execution σ
  | 0, x => x
  | n + 1, x =>
      match x.step c with
      | some x => run c n x
      | none => x

/-- Whether the next calls of `n` instructions are covered. -/
def allCovered (c : Context σ) : Nat → Execution σ → Bool
  | 0, _ => true
  | n + 1, x =>
      match x.step c with
      | some y => decide (LegacyVM.Covered c x.vm) && allCovered c n y
      | none => true

/-- How an execution has ended. -/
def outcome : Execution σ → Except VMException Bytes
  | .returned output _ => .ok output
  | .thrown e _ => .error e
  | .running _ => .error .outOfGas

/-- What single instructions keep, runs keep. -/
theorem run_moves {c : Context σ} {R : LegacyVM σ → LegacyVM σ → Prop} [Std.Refl R]
    [IsTrans (LegacyVM σ) R] (h : Moves R (LegacyVM.execOne c)) (n : Nat) (x : Execution σ) :
    R x.vm (run c n x).vm := by
  induction n generalizing x with
  | zero => exact refl_of R _
  | succ n ih =>
      rw [run]
      split
      · next y hstep =>
          have hone := h x.vm
          rw [← vm_of_step hstep] at hone
          exact trans_of R hone (ih y)
      · exact refl_of R _

end Execution

/-- `LegacyVM`, for up to `fuel` instructions. -/
def legacyVM (fuel : Nat) : VMFace where
  exec c gas w :=
    let x := Execution.run c fuel (.start gas { ioGas := 0, ext := w })
    (⟨x.outcome, BitVec.ofNat 256 x.vm.ioGas,
      Execution.allCovered c fuel (.start gas { ioGas := 0, ext := w })⟩, x.vm.ext)

namespace LegacyVM

variable {σ : Type} (c : Context σ)

/-- The world is as before, or what `create` makes of it. -/
def Creates (s s' : LegacyVM σ) : Prop :=
  s'.ext = s.ext ∨ ∃ p : CreateParameters, p.op = s.op ∧ s'.ext = (c.host.create s.ext p).1

/-- The world is as before, or what `call` makes of it. -/
def CallsOut (s s' : LegacyVM σ) : Prop :=
  s'.ext = s.ext ∨ ∃ (t : LegacyVM σ) (gas : U256), Metered s t ∧
    s'.ext = (c.host.call s.ext (callParameters c gas t)).1

theorem Creates.of_metered {s t r : LegacyVM σ} (h : Metered s t) (hr : Creates c t r) :
    Creates c s r := by
  rwa [Creates, h.1.1, h.2.1] at hr

theorem CallsOut.of_metered {s t r : LegacyVM σ} (h : Metered s t) (hr : CallsOut c t r) :
    CallsOut c s r := by
  rw [CallsOut, h.1.1] at hr
  exact hr.imp_right fun ⟨u, gas, hu, hext⟩ => ⟨u, gas, trans_of Metered h hu, hext⟩

theorem creates_caseCreate : Moves (Creates c) (caseCreate c) := by
  have hbefore : ∀ {α : Type} {m : Action σ α} {f : α → Action σ (Option Bytes)},
      Moves Metered m → (∀ a, Moves (Creates c) (f a)) → Moves (Creates c) (m >>= f) :=
    fun hm hf => hm.before (fun _ _ _ => Creates.of_metered c) (fun _ => .inl rfl) hf
  refine hbefore (metered_setRunGas _) fun _ => hbefore Moves.get fun s => ?_
  refine hbefore (metered_memNeed _ _) fun _ => hbefore (metered_updateMem c _) fun _ => ?_
  refine hbefore metered_updateIOGas fun _ => ?_
  refine hbefore (metered_modify fun _ => ⟨rfl, rfl, rfl, rfl, rfl⟩) fun _ => fun t => ?_
  rw [after_modify_bind]
  split
  · exact .inr ⟨_, rfl, rfl⟩
  · exact .inl rfl

/-- A call ends in the world that the host makes of it, or changes nothing. -/
theorem finishCall_ext (params : CallParameters) (s : LegacyVM σ) :
    (finishCall c params s).ext = s.ext ∨
      (finishCall c params s).ext = (c.host.call s.ext params).1 := by
  unfold finishCall
  split
  · exact .inr rfl
  · exact .inl rfl

theorem callsOut_caseCall : Moves (CallsOut c) (caseCall c) := by
  have hbefore : ∀ {α : Type} {m : Action σ α} {f : α → Action σ (Option Bytes)},
      Moves Metered m → (∀ a, Moves (CallsOut c) (f a)) → Moves (CallsOut c) (m >>= f) :=
    fun hm hf => hm.before (fun _ _ _ => CallsOut.of_metered c) (fun _ => .inl rfl) hf
  refine hbefore (metered_modify fun _ => ⟨rfl, rfl, rfl, rfl, rfl⟩) fun _ => ?_
  refine hbefore (metered_callStaticCosts c) fun _ => hbefore (metered_callGas c) fun gas => ?_
  intro t
  rw [after_modify_bind]
  exact (finishCall_ext c _ t).imp_right fun h => ⟨t, _, refl_of Metered t, h⟩

variable {c} {R : σ → σ → Prop} [Std.Refl R]

/-- The relation between the worlds of two machines. -/
def OnExt (R : σ → σ → Prop) (s s' : LegacyVM σ) : Prop := R s.ext s'.ext

instance : Std.Refl (OnExt R) where
  refl s := refl_of R s.ext

instance [IsTrans σ R] : IsTrans (LegacyVM σ) (OnExt R) where
  trans _ _ _ hst htu := trans_of R hst htu

theorem onExt_of_eq {s s' : LegacyVM σ} (h : s'.ext = s.ext) : OnExt R s s' := by
  rw [OnExt, h]
  exact refl_of R _

theorem onExt_of_quiet {α : Type} {m : Action σ α} (hm : Moves Quiet m) : Moves (OnExt R) m :=
  hm.mono fun _ _ h => onExt_of_eq h.1

theorem Creates.onExt {s s' : LegacyVM σ} (h : Creates c s s')
    (hcreate : ∀ w p, p.op = s.op → R w (c.host.create w p).1) : OnExt R s s' := by
  rcases h with h | ⟨p, hop, h⟩
  · exact onExt_of_eq h
  · rw [OnExt, h]
    exact hcreate _ p hop

theorem CallsOut.onExt {s s' : LegacyVM σ} (h : CallsOut c s s')
    (hcall : ∀ (t : LegacyVM σ) (gas : U256), Metered s t → ∀ w,
      R w (c.host.call w (callParameters c gas t)).1) : OnExt R s s' := by
  rcases h with h | ⟨t, gas, ht, h⟩
  · exact onExt_of_eq h
  · rw [OnExt, h]
    exact hcall t gas ht _

variable [IsTrans σ R]

/-- The instructions but the calls and `CREATE2`. -/
theorem onExt_interpretCases {i : Instruction} (hcall : isCall i = false) (hcreate2 : i ≠ .create2)
    (hblockHash : ∀ w number, R w (c.host.blockHash w number).1)
    (hkeeps : c.message.staticCall = false → c.host.Keeps R ∧ ∀ w dest, R w (c.host.suicide w dest)) :
    Moves (OnExt R) (interpretCases c i) := by
  have hdrives : Drives c (OnExt R) :=
    { quiet := fun _ _ h => onExt_of_eq h.1
      addRefunds := fun hstatic s gas => (hkeeps hstatic).1.addRefunds s.ext gas
      setStore := fun hstatic s key value => (hkeeps hstatic).1.setStore s.ext key value
      log := fun hstatic s topics data => (hkeeps hstatic).1.log s.ext topics data
      suicide := fun hstatic s dest => (hkeeps hstatic).2 s.ext dest
      blockHash := fun s number => hblockHash s.ext number
      caseCreate := fun hstatic => (creates_caseCreate c).mono fun s t h =>
        h.onExt fun w p _ => (hkeeps hstatic).1.create w p }
  refine moves_interpretCases hdrives i (fun h => ?_) fun h => absurd h hcreate2
  rw [hcall] at h
  cases h

/-- An instruction after it has been fetched. -/
theorem onExt_execOne (h : ∀ s : LegacyVM σ, OnExt R s (after (interpretCases c s.op) s)) :
    Moves (OnExt R) (execOne c) :=
  Moves.bind (onExt_of_quiet (quiet_fetchInstruction c)) fun _ => h

end LegacyVM

open LegacyVM in
/-- **`LegacyVM` changes the world by the operations of the host only.** -/
theorem legacyVM_confined (fuel : Nat) : (legacyVM fuel).Confined := by
  intro σ c R _ _ hkeeps hsuicide gas w
  refine Execution.run_moves (onExt_execOne fun s => ?_) fuel
    (.start gas { ioGas := 0, ext := w })
  cases hcall : isCall s.op with
  | true =>
      rw [interpretCases_call c hcall]
      refine Moves.bind (onExt_of_quiet (Metered.quiet (metered_allowCall c))) (fun _ => ?_) s
      exact (callsOut_caseCall c).mono fun _ _ h => h.onExt fun _ _ _ w => hkeeps.call w _
  | false =>
      by_cases hcreate2 : s.op = .create2
      · rw [hcreate2]
        refine Moves.bind (onExt_of_quiet (Metered.quiet (metered_enabled _))) (fun _ => ?_) s
        exact (creates_caseCreate c).mono fun _ _ h => h.onExt fun w p _ => hkeeps.create w p
      · exact onExt_interpretCases hcall hcreate2 hkeeps.blockHash (fun _ => ⟨hkeeps, hsuicide⟩) s

open LegacyVM in
/-- A run whose calls are covered gives back at most its gas, if the world is good after it. -/
theorem Execution.run_bound {σ : Type} {c : Context σ} {ok : σ → Prop}
    (hcall : CallReturnsOn c ok) (hcreate : CreateReturnsOn c ok) {n : Nat} {x : Execution σ}
    (hcovered : allCovered c n x = true) (hok : ok (run c n x).vm.ext) :
    ok x.vm.ext ∧ (x.vm.ioGas < 2 ^ 64 → (run c n x).vm.ioGas ≤ x.vm.ioGas) := by
  induction n generalizing x with
  | zero => exact ⟨hok, fun _ => Nat.le_refl _⟩
  | succ n ih =>
      rw [run] at hok ⊢
      rw [allCovered] at hcovered
      split at hok
      · next y hstep =>
          rw [hstep] at hcovered
          obtain ⟨hnow, hrest⟩ := Bool.and_eq_true_iff.mp hcovered
          obtain ⟨hnext, hle⟩ := ih hrest hok
          have hfair := fairOn_execOne c hcall hcreate (of_decide_eq_true hnow)
          rw [← vm_of_step hstep] at hfair
          refine ⟨hfair.world hnext, fun hgas => ?_⟩
          have hone := (hfair.fair hnext hgas).1
          exact Nat.le_trans (hle (Nat.lt_of_le_of_lt hone hgas)) hone
      · exact ⟨hok, fun _ => Nat.le_refl _⟩

open LegacyVM in
/-- **Covered code gives back at most the gas that it gets.** -/
theorem legacyVM_returns (fuel : Nat) {σ : Type} {c : Context σ} {ok : σ → Prop}
    (hcall : CallReturnsOn c ok) (hcreate : CreateReturnsOn c ok) {gas : U256} {w : σ}
    (hcovered : ((legacyVM fuel).exec c gas w).1.covered = true)
    (hok : ok ((legacyVM fuel).exec c gas w).2) :
    ok w ∧ ((legacyVM fuel).exec c gas w).1.gas ≤ gas := by
  obtain ⟨hbefore, hle⟩ := Execution.run_bound hcall hcreate hcovered hok
  refine ⟨hbefore, ?_⟩
  have hrun := hle (Nat.mod_lt _ (by decide))
  rw [BitVec.le_def]
  calc ((legacyVM fuel).exec c gas w).1.gas.toNat
      ≤ (Execution.run c fuel (.start gas { ioGas := 0, ext := w })).vm.ioGas :=
        (BitVec.toNat_ofNat _ _).trans_le (Nat.mod_le _ _)
    _ ≤ gas.toNat % 2 ^ 64 := hrun
    _ ≤ gas.toNat := Nat.mod_le _ _

/-- What a static frame asks of its host takes the world along a relation. -/
structure Context.KeepsStatic {σ : Type} (c : Context σ) (R : σ → σ → Prop) : Prop where
  blockHash : ∀ w number, R w (c.host.blockHash w number).1
  create2 : c.schedule.haveCreate2 = true → ∀ w p, p.op = .create2 → R w (c.host.create w p).1
  call : ∀ w p, p.staticCall = true →
    p.valueTransfer = 0 ∨ p.senderAddress = p.receiveAddress → R w (c.host.call w p).1

open LegacyVM in
/-- The parameters of a call in a static frame. -/
theorem LegacyVM.callParameters_static {σ : Type} {c : Context σ} {s t : LegacyVM σ}
    (hstatic : c.message.staticCall = true) (hcall : isCall s.op = true) (ht : Metered s t)
    (hvalue : s.op = .call → s.sp 2 = 0) (gas : U256) :
    (callParameters c gas t).staticCall = true ∧
      ((callParameters c gas t).valueTransfer = 0 ∨
        (callParameters c gas t).senderAddress = (callParameters c gas t).receiveAddress) := by
  have hsp : t.sp 2 = s.sp 2 := by rw [sp, sp, ht.2.2]
  refine ⟨by simp [callParameters, hstatic], ?_⟩
  simp only [callParameters, ht.2.1, hsp]
  cases hop : s.op with
  | call => exact .inl (by simpa [haveValueArg] using hvalue hop)
  | callcode => exact .inr (by simp)
  | delegatecall | staticcall => exact .inl (by simp [haveValueArg])
  | _ =>
      rw [hop] at hcall
      cases hcall

open LegacyVM in
/-- **In a static frame `LegacyVM` asks the host only for block hashes, for static calls
without a transfer to another account, and for `CREATE2`.** -/
theorem legacyVM_static (fuel : Nat) {σ : Type} (c : Context σ) (R : σ → σ → Prop) [Std.Refl R]
    [IsTrans σ R] (hstatic : c.message.staticCall = true) (hkeeps : c.KeepsStatic R) (gas : U256)
    (w : σ) : R w ((legacyVM fuel).exec c gas w).2 := by
  refine Execution.run_moves (onExt_execOne fun s => ?_) fuel
    (.start gas { ioGas := 0, ext := w })
  cases hcall : isCall s.op with
  | true =>
      rw [interpretCases_call c hcall]
      refine after_bind (fun e t h => ?_) fun _ t h => ?_
      · have hmetered := metered_allowCall c s
        rw [after_of_error h] at hmetered
        exact onExt_of_eq hmetered.1.1
      · obtain ⟨-, -, hvalue, rfl⟩ := allowCall_ok c h
        refine (callsOut_caseCall c _).onExt fun u gas hu w => ?_
        have hparams := callParameters_static hstatic hcall hu fun hop =>
          by_contra fun hne => hvalue ⟨hop, hstatic, hne⟩
        exact hkeeps.call w _ (hparams gas).1 (hparams gas).2
  | false =>
      by_cases hcreate2 : s.op = .create2
      · rw [hcreate2]
        show OnExt R s (after (do enabled c.schedule.haveCreate2; caseCreate c) s)
        rw [enabled, after_throwIf_bind]
        split
        · exact refl_of (OnExt R) s
        · next henabled =>
            refine (creates_caseCreate c s).onExt fun w p hop => ?_
            exact hkeeps.create2 (by simpa using henabled) w p (hop.trans hcreate2)
      · refine onExt_interpretCases hcall hcreate2 hkeeps.blockHash (fun hfalse => ?_) s
        rw [hstatic] at hfalse
        cases hfalse

end CppSwc.Evm
