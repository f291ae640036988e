import CppSwc.Evm.Interpreter

/-!
# What instructions do

Most of what an instruction does stays inside the machine: an action is `Quiet` if it
leaves the world and the record of callees alone and makes no gas.  The instructions are
made of quiet pieces and of the operations of the host, so that a property of machines
which both keep is kept by every instruction (`moves_interpretCases`).

The first such property is `Spends`: no instruction but the four calls ends with more gas
than it started with, thrown or not, if creations return no more than they are given.
Calls are the subject of `Evm/Calls`.
-/

namespace CppSwc.Evm

open Lib

namespace LegacyVM

variable {σ : Type}

/-! ## Quiet pieces -/

/-- The world and the callees are as before, and there is no more gas. -/
def Quiet (s s' : LegacyVM σ) : Prop :=
  s'.ext = s.ext ∧ s'.handovers = s.handovers ∧ s'.ioGas ≤ s.ioGas

instance : Std.Refl (@Quiet σ) where
  refl _ := ⟨rfl, rfl, Nat.le_refl _⟩

instance : IsTrans (LegacyVM σ) Quiet where
  trans _ _ _ hst htu :=
    ⟨htu.1.trans hst.1, htu.2.1.trans hst.2.1, Nat.le_trans htu.2.2 hst.2.2⟩

/-- A change of other members. -/
theorem quiet_modify {f : LegacyVM σ → LegacyVM σ}
    (h : ∀ s, (f s).ext = s.ext ∧ (f s).handovers = s.handovers ∧ (f s).ioGas = s.ioGas) :
    Moves Quiet (modify f : Action σ Unit) :=
  Moves.modify fun s => ⟨(h s).1, (h s).2.1, Nat.le_of_eq (h s).2.2⟩

/-- Beside that, the instruction and the stack are as before. -/
def Metered (s s' : LegacyVM σ) : Prop := Quiet s s' ∧ s'.op = s.op ∧ s'.stack = s.stack

instance : Std.Refl (@Metered σ) where
  refl s := ⟨refl_of Quiet s, rfl, rfl⟩

instance : IsTrans (LegacyVM σ) Metered where
  trans _ _ _ hst htu :=
    ⟨trans_of Quiet hst.1 htu.1, htu.2.1.trans hst.2.1, htu.2.2.trans hst.2.2⟩

theorem Metered.quiet {α : Type} {m : Action σ α} (h : Moves Metered m) : Moves Quiet m :=
  h.mono fun _ _ hm => hm.1

theorem metered_modify {f : LegacyVM σ → LegacyVM σ}
    (h : ∀ s, (f s).ext = s.ext ∧ (f s).handovers = s.handovers ∧ (f s).ioGas = s.ioGas ∧
      (f s).op = s.op ∧ (f s).stack = s.stack) :
    Moves Metered (modify f : Action σ Unit) :=
  Moves.modify fun s => ⟨⟨(h s).1, (h s).2.1, Nat.le_of_eq (h s).2.2.1⟩, (h s).2.2.2⟩

section Pieces

variable (c : Context σ)

theorem metered_toInt63 (v : Nat) : Moves Metered (toInt63 v : Action σ Nat) :=
  Moves.ite (Moves.throw _) (Moves.pure _)

theorem metered_memNeed (offset size : U256) : Moves Metered (memNeed offset size : Action σ Nat) :=
  metered_toInt63 _

theorem metered_gasForMem (size : Nat) : Moves Metered (gasForMem c size) :=
  Moves.ite (Moves.throw _) (metered_toInt63 _)

theorem metered_setRunGas (gas : Nat) : Moves Metered (setRunGas gas : Action σ Unit) :=
  metered_modify fun _ => ⟨rfl, rfl, rfl, rfl, rfl⟩

theorem metered_addRunGas (gas : Nat) : Moves Metered (addRunGas gas : Action σ Unit) :=
  metered_modify fun _ => ⟨rfl, rfl, rfl, rfl, rfl⟩

theorem metered_updateIOGas : Moves Metered (updateIOGas : Action σ Unit) := by
  refine Moves.bind Moves.get fun s => Moves.bind (Moves.throwIf _ _) fun _ => ?_
  exact Moves.modify fun s => ⟨⟨rfl, rfl, Nat.sub_le _ _⟩, rfl, rfl⟩

theorem metered_updateGas : Moves Metered (updateGas c) := by
  refine Moves.bind Moves.get fun s => Moves.bind (Moves.runIf ?_) fun _ => ?_
  · refine Moves.bind (metered_gasForMem c _) fun _ => Moves.bind (metered_gasForMem c _) fun _ => ?_
    exact Moves.bind (metered_toInt63 _) fun _ => metered_addRunGas _
  · refine Moves.bind (metered_addRunGas _) fun _ => Moves.bind Moves.get fun _ => ?_
    exact Moves.throwIf _ _

theorem metered_updateMem (newMem : Nat) : Moves Metered (updateMem c newMem) := by
  refine Moves.bind (metered_modify fun _ => ⟨rfl, rfl, rfl, rfl, rfl⟩) fun _ => ?_
  refine Moves.bind (metered_updateGas c) fun _ => ?_
  exact metered_modify fun _ => ⟨rfl, rfl, rfl, rfl, rfl⟩

theorem metered_logGasMem (n : Nat) : Moves Metered (logGasMem c n) := by
  refine Moves.bind Moves.get fun s => Moves.bind (metered_toInt63 _) fun _ => ?_
  refine Moves.bind (metered_setRunGas _) fun _ => Moves.bind (metered_memNeed _ _) fun _ => ?_
  exact metered_updateMem c _

theorem metered_adjustStack (removed added : Nat) :
    Moves Metered (adjustStack removed added : Action σ Unit) := by
  refine Moves.bind Moves.get fun s => Moves.bind (Moves.throwIf _ _) fun _ => ?_
  exact Moves.throwIf _ _

theorem quiet_fetchInstruction : Moves Quiet (fetchInstruction c) := by
  refine Moves.bind (quiet_modify fun _ => ⟨rfl, rfl, rfl⟩) fun _ => ?_
  refine Moves.bind Moves.get fun s => Moves.bind (Metered.quiet (metered_adjustStack _ _)) fun _ => ?_
  exact quiet_modify fun _ => ⟨rfl, rfl, rfl⟩

theorem quiet_next : Moves Quiet (next : Action σ (Option Bytes)) :=
  Moves.bind (quiet_modify fun _ => ⟨rfl, rfl, rfl⟩) fun _ => Moves.pure _

/-- A case that pays, changes other members and goes on. -/
theorem quiet_pay {f : LegacyVM σ → LegacyVM σ}
    (h : ∀ s, (f s).ext = s.ext ∧ (f s).handovers = s.handovers ∧ (f s).ioGas = s.ioGas) :
    Moves Quiet (do updateIOGas; modify f; next : Action σ (Option Bytes)) :=
  Moves.bind (Metered.quiet metered_updateIOGas) fun _ =>
    Moves.bind (quiet_modify h) fun _ => quiet_next

theorem quiet_result (f : LegacyVM σ → U256) : Moves Quiet (result f) :=
  quiet_pay fun _ => ⟨rfl, rfl, rfl⟩

theorem quiet_priced (gas : Nat) (f : LegacyVM σ → U256) : Moves Quiet (priced gas f) :=
  Moves.bind (Metered.quiet (metered_setRunGas _)) fun _ => quiet_result f

theorem metered_enabled (b : Bool) : Moves Metered (enabled b : Action σ Unit) :=
  Moves.throwIf _ _

theorem quiet_verifyJumpDest (dest : U256) : Moves Quiet (verifyJumpDest c dest) :=
  Moves.ite (quiet_modify fun _ => ⟨rfl, rfl, rfl⟩) (Moves.throw _)

theorem quiet_copyCase (data : LegacyVM σ → Bytes) (offset index size : Nat) :
    Moves Quiet (copyCase c data offset index size) := by
  refine Moves.bind Moves.get fun s => Moves.bind (Metered.quiet (metered_toInt63 _)) fun _ => ?_
  refine Moves.bind (quiet_modify fun _ => ⟨rfl, rfl, rfl⟩) fun _ => ?_
  refine Moves.bind (Metered.quiet (metered_memNeed _ _)) fun _ => Moves.bind (Metered.quiet (metered_updateMem c _)) fun _ => ?_
  exact quiet_pay fun _ => ⟨rfl, rfl, rfl⟩

theorem metered_outputCase : Moves Metered (outputCase c) := by
  refine Moves.bind Moves.get fun s => ?_
  refine Moves.bind (metered_modify fun _ => ⟨rfl, rfl, rfl, rfl, rfl⟩) fun _ => ?_
  refine Moves.bind (metered_memNeed _ _) fun _ => Moves.bind (metered_updateMem c _) fun _ => ?_
  refine Moves.bind metered_updateIOGas fun _ => Moves.bind Moves.get fun _ => ?_
  exact Moves.pure _

theorem metered_allowStateChange : Moves Metered (allowStateChange c) :=
  Moves.throwIf _ _

theorem metered_allowCall : Moves Metered (allowCall c) := by
  refine Moves.bind Moves.get fun s => Moves.bind (Moves.runIf (metered_enabled _)) fun _ => ?_
  exact Moves.bind (Moves.runIf (metered_enabled _)) fun _ => Moves.throwIf _ _

theorem metered_accessMem (size : Nat) : Moves Metered (accessMem c size) := by
  refine Moves.bind Moves.get fun s => Moves.bind (metered_toInt63 _) fun _ => ?_
  exact Moves.bind (metered_updateMem c _) fun _ => metered_updateIOGas

theorem metered_callStaticCosts : Moves Metered (callStaticCosts c) := by
  refine Moves.bind (metered_setRunGas _) fun _ => Moves.bind Moves.get fun s => ?_
  refine Moves.bind (Moves.runIf (metered_addRunGas _)) fun _ => ?_
  refine Moves.bind (Moves.runIf (metered_addRunGas _)) fun _ => ?_
  refine Moves.bind (metered_memNeed _ _) fun _ => Moves.bind (metered_memNeed _ _) fun _ => ?_
  exact Moves.bind (metered_updateMem c _) fun _ => metered_updateIOGas

theorem metered_callGas : Moves Metered (callGas c) := by
  refine Moves.bind Moves.get fun s => Moves.bind (metered_toInt63 _) fun _ => ?_
  refine Moves.bind (metered_setRunGas _) fun _ => Moves.bind metered_updateIOGas fun _ => ?_
  exact Moves.pure _

end Pieces

/-! ## Instructions -/

/-- The four calls. -/
def isCall : Instruction → Bool
  | .call | .callcode | .delegatecall | .staticcall => true
  | _ => false

/-- The relation is kept by quiet actions and by what the instructions but the calls and
`CREATE2` ask of the host.  Most of it they ask only if the message is not static. -/
structure Drives (c : Context σ) (R : LegacyVM σ → LegacyVM σ → Prop) : Prop where
  quiet : ∀ s s', Quiet s s' → R s s'
  addRefunds : c.message.staticCall = false → ∀ s gas,
    R s { s with ext := c.host.addRefunds s.ext gas }
  setStore : c.message.staticCall = false → ∀ s key value,
    R s { s with ext := c.host.setStore s.ext key value }
  log : c.message.staticCall = false → ∀ s topics data,
    R s { s with ext := c.host.log s.ext topics data }
  suicide : c.message.staticCall = false → ∀ s dest,
    R s { s with ext := c.host.suicide s.ext dest }
  blockHash : ∀ s number, R s { s with ext := (c.host.blockHash s.ext number).1 }
  caseCreate : c.message.staticCall = false → Moves R (caseCreate c)

section Cases

variable {c : Context σ} {R : LegacyVM σ → LegacyVM σ → Prop} [Std.Refl R]
  [IsTrans (LegacyVM σ) R]

omit [Std.Refl R] [IsTrans (LegacyVM σ) R] in
/-- A quiet action. -/
theorem Drives.of_quiet (h : Drives c R) {α : Type} {m : Action σ α} (hm : Moves Quiet m) :
    Moves R m := hm.mono h.quiet

omit [Std.Refl R] in
/-- A change of the world and of members that do not matter. -/
theorem Drives.modify (h : Drives c R) {f : LegacyVM σ → LegacyVM σ}
    (hext : ∀ s, R s { s with ext := (f s).ext })
    (hquiet : ∀ s, (f s).handovers = s.handovers ∧ (f s).ioGas = s.ioGas) :
    Moves R (modify f : Action σ Unit) := by
  refine Moves.modify fun s => trans_of R (hext s) (h.quiet _ _ ?_)
  exact ⟨rfl, (hquiet s).1, Nat.le_of_eq (hquiet s).2⟩

/-- What comes behind the check of the cases that change the state. -/
theorem Drives.allowStateChange (h : Drives c R) {α : Type} {m : Action σ α}
    (hm : c.message.staticCall = false → Moves R m) :
    Moves R (do LegacyVM.allowStateChange c; m) := by
  cases hstatic : c.message.staticCall with
  | false => exact Moves.bind (h.of_quiet (Metered.quiet (metered_allowStateChange c))) fun _ => hm hstatic
  | true =>
      intro s
      rw [LegacyVM.allowStateChange, after_throwIf_bind, if_pos hstatic]
      exact refl_of R s

theorem Drives.updateSSGas (h : Drives c R) (hstatic : c.message.staticCall = false) :
    Moves R (updateSSGas c) := by
  refine Moves.bind Moves.get fun s => Moves.ite (h.of_quiet (Metered.quiet (metered_setRunGas _))) (Moves.ite ?_ ?_)
  · refine Moves.bind (h.of_quiet (Metered.quiet (metered_setRunGas _))) fun _ => ?_
    exact h.modify (fun s => h.addRefunds hstatic s _) fun _ => ⟨rfl, rfl⟩
  · exact h.of_quiet (Metered.quiet (metered_setRunGas _))

theorem Drives.caseSuicide (h : Drives c R) : Moves R (caseSuicide c) := by
  refine h.allowStateChange fun hstatic => ?_
  refine Moves.bind (h.of_quiet (Metered.quiet (metered_setRunGas _))) fun _ => Moves.bind Moves.get fun s => ?_
  refine Moves.bind (Moves.runIf (h.of_quiet (Metered.quiet (metered_addRunGas _)))) fun _ => ?_
  refine Moves.bind (h.of_quiet (Metered.quiet metered_updateIOGas)) fun _ => ?_
  refine Moves.bind (h.modify (fun s => ?_) fun _ => ⟨rfl, rfl⟩) fun _ => Moves.pure _
  exact h.suicide hstatic s _

theorem Drives.caseLog (h : Drives c R) (n : Nat) : Moves R (caseLog c n) := by
  refine h.allowStateChange fun hstatic => ?_
  refine Moves.bind (h.of_quiet (Metered.quiet (metered_logGasMem c n))) fun _ => ?_
  refine Moves.bind (h.of_quiet (Metered.quiet metered_updateIOGas)) fun _ => ?_
  refine Moves.bind (h.modify (fun s => ?_) fun _ => ⟨rfl, rfl⟩) fun _ => h.of_quiet quiet_next
  exact h.log hstatic s _ _

/-- **Every instruction keeps what its pieces keep.** -/
theorem moves_interpretCases (h : Drives c R) (i : Instruction)
    (hcall : isCall i = true → Moves R (interpretCases c i))
    (hcreate2 : i = .create2 → Moves R (interpretCases c i)) :
    Moves R (interpretCases c i) := by
  cases i with
  | delegatecall | staticcall | call | callcode => exact hcall rfl
  | create2 => exact hcreate2 rfl
  | create => exact h.allowStateChange h.caseCreate
  | suicide => exact h.caseSuicide
  | log n => exact h.caseLog n
  | sstore =>
      refine h.allowStateChange fun hstatic => ?_
      refine Moves.bind (h.updateSSGas hstatic) fun _ => ?_
      refine Moves.bind (h.of_quiet (Metered.quiet metered_updateIOGas)) fun _ => ?_
      refine Moves.bind (h.modify (fun s => ?_) fun _ => ⟨rfl, rfl⟩) fun _ => h.of_quiet quiet_next
      exact h.setStore hstatic s _ _
  | blockhash =>
      refine Moves.bind (h.of_quiet (Metered.quiet (metered_setRunGas _))) fun _ => ?_
      refine Moves.bind (h.of_quiet (Metered.quiet metered_updateIOGas)) fun _ => ?_
      refine Moves.bind (h.modify (fun s => ?_) fun _ => ⟨rfl, rfl⟩) fun _ => h.of_quiet quiet_next
      exact h.blockHash s _
  | ret => exact h.of_quiet (Moves.bind (Metered.quiet (metered_outputCase c)) fun _ => Moves.pure _)
  | revert =>
      refine h.of_quiet (Moves.bind (Metered.quiet (metered_enabled _)) fun _ => ?_)
      exact Moves.bind (Metered.quiet (metered_outputCase c)) fun _ => Moves.throw _
  | stop => exact h.of_quiet (Moves.bind (Metered.quiet metered_updateIOGas) fun _ => Moves.pure _)
  | mload | mstore | mstore8 =>
      refine h.of_quiet (Moves.bind (Metered.quiet (metered_accessMem c _)) fun _ => ?_)
      exact Moves.bind (quiet_modify fun _ => ⟨rfl, rfl, rfl⟩) fun _ => quiet_next
  | sha3 =>
      refine h.of_quiet (Moves.bind Moves.get fun s => Moves.bind (Metered.quiet (metered_toInt63 _)) fun _ => ?_)
      refine Moves.bind (Metered.quiet (metered_setRunGas _)) fun _ => Moves.bind (Metered.quiet (metered_memNeed _ _)) fun _ => ?_
      exact Moves.bind (Metered.quiet (metered_updateMem c _)) fun _ => quiet_result _
  | exp => exact h.of_quiet (Moves.bind Moves.get fun s => quiet_priced _ _)
  | shl | shr | sar | returndatasize =>
      exact h.of_quiet (Moves.bind (Metered.quiet (metered_enabled _)) fun _ => quiet_result _)
  | balance | extcodesize | sload => exact h.of_quiet (quiet_priced _ _)
  | calldatacopy | codecopy => exact h.of_quiet (quiet_copyCase c _ _ _ _)
  | returndatacopy =>
      refine h.of_quiet (Moves.bind (Metered.quiet (metered_enabled _)) fun _ => Moves.bind Moves.get fun s => ?_)
      exact Moves.bind (Moves.throwIf _ _) fun _ => quiet_copyCase c _ _ _ _
  | extcodecopy =>
      exact h.of_quiet (Moves.bind (Metered.quiet (metered_setRunGas _)) fun _ => quiet_copyCase c _ _ _ _)
  | pop => exact h.of_quiet (quiet_pay fun _ => ⟨rfl, rfl, rfl⟩)
  | dup n | swap n => exact h.of_quiet (quiet_pay fun _ => ⟨rfl, rfl, rfl⟩)
  | pushc | jumpc | jumpci =>
      refine h.of_quiet (Moves.ite (Moves.bind (Metered.quiet metered_updateIOGas) fun _ => ?_) (Moves.throw _))
      exact Moves.bind (quiet_modify fun _ => ⟨rfl, rfl, rfl⟩) fun _ => Moves.pure _
  | push n =>
      refine h.of_quiet (Moves.bind (Metered.quiet metered_updateIOGas) fun _ => ?_)
      exact Moves.bind (quiet_modify fun _ => ⟨rfl, rfl, rfl⟩) fun _ => Moves.pure _
  | jump =>
      refine h.of_quiet (Moves.bind (Metered.quiet metered_updateIOGas) fun _ => Moves.bind Moves.get fun s => ?_)
      exact Moves.bind (quiet_verifyJumpDest c _) fun _ => Moves.pure _
  | jumpi =>
      refine h.of_quiet (Moves.bind (Metered.quiet metered_updateIOGas) fun _ => Moves.bind Moves.get fun s => ?_)
      refine Moves.ite (Moves.bind (quiet_verifyJumpDest c _) fun _ => Moves.pure _) ?_
      exact Moves.bind (quiet_modify fun _ => ⟨rfl, rfl, rfl⟩) fun _ => quiet_next
  | jumpdest =>
      refine h.of_quiet (Moves.bind (Metered.quiet (metered_setRunGas _)) fun _ => ?_)
      exact Moves.bind (Metered.quiet metered_updateIOGas) fun _ => quiet_next
  | invalid | unsupported _ => exact Moves.throw _
  | _ => exact h.of_quiet (quiet_result _)

end Cases

/-! ## Spending -/

/-- From a state with less than `2 ^ 63` gas there is no more gas and no other
handover. -/
def Spends (s s' : LegacyVM σ) : Prop :=
  s.ioGas < 2 ^ 63 → s'.ioGas ≤ s.ioGas ∧ s'.handovers = s.handovers

instance : Std.Refl (@Spends σ) where
  refl _ _ := ⟨Nat.le_refl _, rfl⟩

instance : IsTrans (LegacyVM σ) Spends where
  trans s t u hst htu hs := by
    obtain ⟨hle, heq⟩ := hst hs
    obtain ⟨hle', heq'⟩ := htu (Nat.lt_of_le_of_lt hle hs)
    exact ⟨Nat.le_trans hle' hle, heq'.trans heq⟩

variable (c : Context σ)

/-- A host whose `create` returns at most the gas it was given. -/
def CreateReturns : Prop := ∀ w p, (c.host.create w p).2.gas ≤ p.gas

/-- A host whose `call` returns at most the gas it was given. -/
def CallReturns : Prop := ∀ w p, (c.host.call w p).2.gas ≤ p.gas

/-- No callee makes the world good, and when it is good after one, then at most the gas that was
given has come back. -/
def CallReturnsOn (ok : σ → Prop) : Prop :=
  ∀ w p, ok (c.host.call w p).1 → ok w ∧ (c.host.call w p).2.gas ≤ p.gas

/-- The same of creations, and no other operation of the host makes the world good. -/
structure CreateReturnsOn (ok : σ → Prop) : Prop where
  setStore : ∀ w key value, ok (c.host.setStore w key value) → ok w
  create : ∀ w p, ok (c.host.create w p).1 → ok w ∧ (c.host.create w p).2.gas ≤ p.gas
  suicide : ∀ w dest, ok (c.host.suicide w dest) → ok w
  log : ∀ w topics data, ok (c.host.log w topics data) → ok w
  blockHash : ∀ w number, ok (c.host.blockHash w number).1 → ok w
  addRefunds : ∀ w gas, ok (c.host.addRefunds w gas) → ok w

/-- Creations that always return at most the gas that was given. -/
theorem CreateReturns.on (hcreate : CreateReturns c) : CreateReturnsOn c fun _ => True where
  setStore _ _ _ := id
  create w p _ := ⟨trivial, hcreate w p⟩
  suicide _ _ := id
  log _ _ _ := id
  blockHash _ _ := id
  addRefunds _ _ := id

/-- The world was good before if it is now, and then there is no more gas and no other handover. -/
structure SpendsOn (ok : σ → Prop) (s s' : LegacyVM σ) : Prop where
  world : ok s'.ext → ok s.ext
  gas : ok s'.ext → s.ioGas < 2 ^ 64 → s'.ioGas ≤ s.ioGas
  handovers : s'.handovers = s.handovers

variable {ok : σ → Prop}

instance : Std.Refl (SpendsOn ok) where
  refl _ := ⟨id, fun _ _ => Nat.le_refl _, rfl⟩

instance : IsTrans (LegacyVM σ) (SpendsOn ok) where
  trans s t u hst htu := by
    refine ⟨hst.world ∘ htu.world, fun hok hs => ?_, htu.handovers.trans hst.handovers⟩
    have hle := hst.gas (htu.world hok) hs
    exact Nat.le_trans (htu.gas hok (Nat.lt_of_le_of_lt hle hs)) hle

theorem Quiet.spendsOn {s s' : LegacyVM σ} (h : Quiet s s') : SpendsOn ok s s' where
  world hok := h.1 ▸ hok
  gas _ _ := h.2.2
  handovers := h.2.1

/-- A change of the world by an operation of the host. -/
theorem SpendsOn.of_world {s : LegacyVM σ} {w : σ} (h : ok w → ok s.ext) :
    SpendsOn ok s { s with ext := w } := ⟨h, fun _ _ => Nat.le_refl _, rfl⟩

/-- What is left after a creation that returned part of its gas. -/
theorem create_left {g x : Nat} {left : U256} (hg : g < 2 ^ 64) (hx : x ≤ g)
    (hleft : left ≤ BitVec.ofNat 256 x) :
    (BitVec.ofNat 256 g - (BitVec.ofNat 256 x - left)).toNat % 2 ^ 64 ≤ g := by
  have hg' : (BitVec.ofNat 256 g).toNat = g := by
    rw [BitVec.toNat_ofNat]
    exact Nat.mod_eq_of_lt (by omega)
  have hx' : (BitVec.ofNat 256 x).toNat = x := by
    rw [BitVec.toNat_ofNat]
    exact Nat.mod_eq_of_lt (by omega)
  have hsub : (BitVec.ofNat 256 x - left).toNat = x - left.toNat := by
    rw [BitVec.toNat_sub_of_le hleft, hx']
  have hle : BitVec.ofNat 256 x - left ≤ BitVec.ofNat 256 g := by
    rw [BitVec.le_def, hsub, hg']
    omega
  rw [BitVec.toNat_sub_of_le hle, hsub, hg']
  exact Nat.le_trans (Nat.mod_le _ _) (Nat.sub_le _ _)

variable {c}

theorem spendsOn_caseCreate (hhost : CreateReturnsOn c ok) : Moves (SpendsOn ok) (caseCreate c) := by
  have hquiet : ∀ {α : Type} {m : Action σ α}, Moves Quiet m → Moves (SpendsOn ok) m :=
    fun hm => hm.mono fun _ _ => Quiet.spendsOn
  refine Moves.bind (hquiet (Metered.quiet (metered_setRunGas _))) fun _ => Moves.bind Moves.get fun s => ?_
  refine Moves.bind (hquiet (Metered.quiet (metered_memNeed _ _))) fun _ => ?_
  refine Moves.bind (hquiet (Metered.quiet (metered_updateMem c _))) fun _ => ?_
  refine Moves.bind (hquiet (Metered.quiet metered_updateIOGas)) fun _ => ?_
  refine Moves.bind (hquiet (quiet_modify fun _ => ⟨rfl, rfl, rfl⟩)) fun _ => ?_
  refine Moves.bind (Moves.modify ?_) fun _ => hquiet quiet_next
  intro s
  split
  · refine ⟨fun hok => (hhost.create _ _ hok).1, fun hok hs => ?_, rfl⟩
    have hleft := (hhost.create _ _ hok).2
    split
    · next hdepth =>
        simp only [hdepth, if_true] at hleft
        exact create_left hs (Nat.le_refl _) hleft
    · next hdepth =>
        simp only [hdepth] at hleft
        exact create_left hs (Nat.sub_le _ _) hleft
  · exact ⟨id, fun _ _ => Nat.le_refl _, rfl⟩

theorem drives_spendsOn (hhost : CreateReturnsOn c ok) : Drives c (SpendsOn ok) where
  quiet _ _ := Quiet.spendsOn
  addRefunds _ _ _ := .of_world (hhost.addRefunds _ _)
  setStore _ _ _ _ := .of_world (hhost.setStore _ _ _)
  log _ _ _ _ := .of_world (hhost.log _ _ _)
  suicide _ _ _ := .of_world (hhost.suicide _ _)
  blockHash _ _ := .of_world (hhost.blockHash _ _)
  caseCreate _ := spendsOn_caseCreate hhost

/-- Every instruction but the calls only spends. -/
theorem spendsOn_interpretCases (hhost : CreateReturnsOn c ok) (i : Instruction)
    (hi : isCall i = false) : Moves (SpendsOn ok) (interpretCases c i) := by
  refine moves_interpretCases (drives_spendsOn hhost) i (fun hcall => ?_) ?_
  · rw [hi] at hcall
    cases hcall
  · rintro rfl
    refine Moves.bind ((metered_enabled _).mono fun _ _ h => h.1.spendsOn) fun _ => ?_
    exact spendsOn_caseCreate hhost

end LegacyVM

end CppSwc.Evm
