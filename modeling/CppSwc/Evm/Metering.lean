import CppSwc.Evm.Calls
import Mathlib.Data.Nat.Digits.Lemmas

/-!
# What instructions pay

`cost` is the price of an instruction over the natural numbers: its base cost, the growth
of memory as a difference of the quadratic formula, the words to copy or to hash, the data
of a log, and the gas that a call asks for its callee.

`charge` is the part of an instruction up to its last payment, so that what is left of it
neither pays nor runs out of gas (`execOne_eq`).  `exactGas_iff` says that under the
declared schedules it takes exactly the cost, or runs out of gas where the cost is more
than there is.  The exception are the calls that are not covered by the gas of the caller.
-/

namespace CppSwc.Evm

open Lib

namespace LegacyVM

variable {σ : Type} (c : Context σ)

/-! ## Costs -/

/-- The number of words of `n` bytes. -/
def words (n : Nat) : Nat := (n + 31) / 32

/-- The number of bytes of a number without leading zeros. -/
def byteLength (x : U256) : Nat := (Nat.digits 256 x.toNat).length

/-- The price of memory for a use of `size` bytes at `offset`. -/
def useGas (s : LegacyVM σ) (offset size : U256) : Nat :=
  growthGas c s (roundUp (memEnd offset size))

/-- The gas that a call asks for its callee, of which `eip150Mode` keeps a share. -/
def calleeGas (s : LegacyVM σ) : Nat :=
  if c.schedule.staticCallDepthLimit then (s.sp 0).toNat
  else min (s.sp 0).toNat (s.ioGas - callCost c s - (s.ioGas - callCost c s) / 64)

/-- The price tier of the instruction. -/
def baseGas (s : LegacyVM σ) : Nat := (c.schedule.tierGas s.op.metric.gasPriceTier).toNat

/-- The price of a copy of `size` bytes to `offset`. -/
def copyCost (s : LegacyVM σ) (offset size : U256) : Nat :=
  c.schedule.copyGas.toNat * words size.toNat + useGas c s offset size

/-- The price of `SUICIDE`. -/
def suicideCost (s : LegacyVM σ) : Nat :=
  c.schedule.suicideGas.toNat +
    if (c.host.balance s.ext c.message.myAddress ≠ 0 ∨
          c.schedule.zeroValueTransferChargesNewAccountGas) ∧
        c.schedule.suicideChargesNewAccountGas ∧ !c.host.exists' s.ext (asAddress (s.sp 0))
    then c.schedule.callNewAccountGas.toNat else 0

/-- The price of `SSTORE`. -/
def storeCost (s : LegacyVM σ) : Nat :=
  if c.host.store s.ext (s.sp 0) = 0 ∧ s.sp 1 ≠ 0 then c.schedule.sstoreSetGas.toNat
  else c.schedule.sstoreResetGas.toNat

/-- The number of topics of a `LOG`. -/
def topics : Instruction → Nat
  | .log n => n
  | _ => 0

/-- What the instruction of a state costs. -/
def cost (s : LegacyVM σ) : Nat :=
  match s.op with
  | .create => c.schedule.createGas.toNat + useGas c s (s.sp 1) (s.sp 2)
  | .create2 => c.schedule.createGas.toNat + useGas c s (s.sp 2) (s.sp 3)
  | .delegatecall | .staticcall | .call | .callcode => callCost c s + calleeGas c s
  | .ret | .revert => baseGas c s + useGas c s (s.sp 0) (s.sp 1)
  | .suicide => suicideCost c s
  | .mload | .mstore => baseGas c s + growthGas c s (roundUp ((s.sp 0).toNat + 32))
  | .mstore8 => baseGas c s + growthGas c s (roundUp ((s.sp 0).toNat + 1))
  | .sha3 =>
      c.schedule.sha3Gas.toNat + c.schedule.sha3WordGas.toNat * words (s.sp 1).toNat +
        useGas c s (s.sp 0) (s.sp 1)
  | .log n =>
      c.schedule.logGas.toNat + c.schedule.logTopicGas.toNat * n +
        c.schedule.logDataGas.toNat * (s.sp 1).toNat + useGas c s (s.sp 0) (s.sp 1)
  | .exp => c.schedule.expGas.toNat + c.schedule.expByteGas.toNat * byteLength (s.sp 1)
  | .balance => c.schedule.balanceGas.toNat
  | .extcodesize => c.schedule.extcodesizeGas.toNat
  | .blockhash => c.schedule.blockhashGas.toNat
  | .sload => c.schedule.sloadGas.toNat
  | .sstore => storeCost c s
  | .calldatacopy | .codecopy | .returndatacopy => baseGas c s + copyCost c s (s.sp 0) (s.sp 2)
  | .extcodecopy => c.schedule.extcodecopyGas.toNat + copyCost c s (s.sp 1) (s.sp 3)
  | .jumpdest => 1
  | _ => baseGas c s

/-! ## Payments -/

/-- The salt, the offset and the size of a creation. -/
def createArgs (s : LegacyVM σ) : U256 × U256 × U256 :=
  if s.op = .create then (0, s.sp 1, s.sp 2) else (s.sp 1, s.sp 2, s.sp 3)

/-- The payment of `caseCreate`. -/
def payCreate : Action σ Unit := do
  setRunGas c.schedule.createGas.toNat
  let s ← get
  let need ← memNeed (createArgs s).2.1 (createArgs s).2.2
  updateMem c need
  updateIOGas

/-- The payment of a case that copies. -/
def payCopy (offset size : Nat) : Action σ Unit := do
  let s ← get
  let copyMemSize ← toInt63 (s.sp size).toNat
  modify fun s => { s with copyMemSize }
  let need ← memNeed (s.sp offset) (s.sp size)
  updateMem c need
  updateIOGas

/-- The payment of `RETURN` and `REVERT`. -/
def payOutput : Action σ Unit := do
  let s ← get
  modify fun s => { s with copyMemSize := 0 }
  let need ← memNeed (s.sp 0) (s.sp 1)
  updateMem c need
  updateIOGas

/-- The payment of `SHA3`. -/
def paySha3 : Action σ Unit := do
  let s ← get
  let gas ← toInt63 (c.schedule.sha3Gas.toNat +
    ((s.sp 1).toNat + 31) / 32 * c.schedule.sha3WordGas.toNat)
  setRunGas gas
  let need ← memNeed (s.sp 0) (s.sp 1)
  updateMem c need
  updateIOGas

/-- The payment of `SUICIDE`. -/
def paySuicide : Action σ Unit := do
  setRunGas c.schedule.suicideGas.toNat
  let s ← get
  let dest := asAddress (s.sp 0)
  runIf ((c.host.balance s.ext c.message.myAddress ≠ 0 ∨
        c.schedule.zeroValueTransferChargesNewAccountGas) ∧
      c.schedule.suicideChargesNewAccountGas ∧ !c.host.exists' s.ext dest)
    (addRunGas c.schedule.callNewAccountGas.toNat)
  updateIOGas

/-- The payment at a price of its own. -/
def payPrice (gas : Nat) : Action σ Unit := do
  setRunGas gas
  updateIOGas

/-- The payment of a call, with the gas for its callee. -/
def payCall : Action σ U256 := do
  allowCall c
  modify fun s => { s with returnData := [] }
  callStaticCosts c
  callGas c

/-- The part of an instruction other than a call up to its payment, with its checks. -/
def pay : Instruction → Action σ Unit
  | .create2 => do
      enabled c.schedule.haveCreate2
      payCreate c
  | .create => do
      allowStateChange c
      payCreate c
  | .ret => payOutput c
  | .revert => do
      enabled c.schedule.haveRevert
      payOutput c
  | .suicide => do
      allowStateChange c
      paySuicide c
  | .mload | .mstore => accessMem c 32
  | .mstore8 => accessMem c 1
  | .sha3 => paySha3 c
  | .log n => do
      allowStateChange c
      logGasMem c n
      updateIOGas
  | .exp => do
      let s ← get
      payPrice ((c.schedule.expGas.toNat +
        c.schedule.expByteGas.toNat * (32 - firstBitSet (s.sp 1) / 8)) % 2 ^ 32)
  | .shl | .shr | .sar => do
      enabled c.schedule.haveBitwiseShifting
      updateIOGas
  | .balance => payPrice c.schedule.balanceGas.toNat
  | .returndatasize => do
      enabled c.schedule.haveReturnData
      updateIOGas
  | .extcodesize => payPrice c.schedule.extcodesizeGas.toNat
  | .calldatacopy | .codecopy => payCopy c 0 2
  | .returndatacopy => do
      enabled c.schedule.haveReturnData
      let s ← get
      throwIf (s.returnData.length < (s.sp 1).toNat + (s.sp 2).toNat) .bufferOverrun
      payCopy c 0 2
  | .extcodecopy => do
      setRunGas c.schedule.extcodecopyGas.toNat
      payCopy c 1 3
  | .blockhash => payPrice c.schedule.blockhashGas.toNat
  | .pushc | .jumpc | .jumpci => if c.optimized then updateIOGas else throw .badInstruction
  | .sload => payPrice c.schedule.sloadGas.toNat
  | .sstore => do
      allowStateChange c
      updateSSGas c
      updateIOGas
  | .jumpdest => payPrice 1
  | .invalid | .unsupported _ => throw .badInstruction
  | _ => updateIOGas

/-- An instruction up to its last payment, with the gas for the callee of a call. -/
def charge : Action σ U256 := do
  fetchInstruction c
  let s ← get
  if isCall s.op then payCall c
  else do
    pay c s.op
    pure 0

/-! ## What is left after the payment -/

/-- The action does not run out of gas. -/
def Paid {α : Type} (m : Action σ α) : Prop := ∀ s t, m s ≠ .error .outOfGas t

theorem paid_pure {α : Type} (a : α) : Paid (pure a : Action σ α) := by
  intro s t h
  cases h

theorem paid_throw {α : Type} {e : VMException} (he : e ≠ .outOfGas) :
    Paid (throw e : Action σ α) := by
  intro s t h
  cases h
  exact he rfl

theorem paid_modify_bind {α : Type} (f : LegacyVM σ → LegacyVM σ) {m : Action σ α} (hm : Paid m) :
    Paid (do modify f; m) :=
  fun s t => hm (f s) t

theorem paid_get_bind {α : Type} {f : LegacyVM σ → Action σ α} (hf : ∀ s, Paid (f s)) :
    Paid (do let s ← get; f s) :=
  fun s t => hf s s t

theorem paid_next (f : LegacyVM σ → LegacyVM σ) :
    Paid (do modify f; next : Action σ (Option Bytes)) :=
  paid_modify_bind f (paid_modify_bind _ (paid_pure none))

/-- A jump that is checked. -/
theorem paid_verifyJumpDest {α : Type} (dest : U256) {m : Action σ α} (hm : Paid m) :
    Paid (do verifyJumpDest c dest; m) := by
  intro s t
  rw [verifyJumpDest]
  split
  · exact hm _ t
  · exact paid_throw (by decide) s t

/-- An instruction that does not set the program counter itself. -/
def straight : Instruction → Bool
  | .push _ | .pushc | .jump | .jumpi | .jumpc | .jumpci => false
  | _ => true

/-- If the action goes on, then with the next position. -/
def Advances (m : Action σ (Option Bytes)) : Prop := ∀ s t, m s = .ok none t → t.pc = s.pc + 1

/-- What may be left of an instruction after its payment. -/
structure Rest (i : Instruction) (m : Action σ (Option Bytes)) : Prop where
  paid : Paid m
  advances : straight i = true → Advances m

theorem advances_next {f : LegacyVM σ → LegacyVM σ} (hf : ∀ s, (f s).pc = s.pc) :
    Advances (do modify f; next : Action σ (Option Bytes)) := by
  intro s t h
  cases h
  exact congrArg (· + 1) (hf s)

section Rest

variable {i : Instruction}

theorem rest_next {f : LegacyVM σ → LegacyVM σ} (hf : ∀ s, (f s).pc = s.pc) :
    Rest i (do modify f; next : Action σ (Option Bytes)) :=
  ⟨paid_next f, fun _ => advances_next hf⟩

/-- An action that stops. -/
theorem rest_some (output : Bytes) : Rest i (pure (some output) : Action σ (Option Bytes)) := by
  refine ⟨paid_pure _, fun _ s t h => ?_⟩
  cases h

/-- An action that does not go on. -/
theorem rest_ends {m : Action σ (Option Bytes)} (hm : Paid m) (hends : ∀ s t, m s ≠ .ok none t) :
    Rest i m :=
  ⟨hm, fun _ s t h => absurd h (hends s t)⟩

/-- An action that sets the program counter. -/
theorem rest_jumps {m : Action σ (Option Bytes)} (hm : Paid m) (hi : straight i = false) :
    Rest i m := by
  refine ⟨hm, fun h => ?_⟩
  rw [hi] at h
  cases h

end Rest

/-- Sequences with the same beginning. -/
theorem bind_congr_left {α β γ : Type} {x : Action σ α} {m : α → Action σ β} {n : α → Action σ γ}
    {f : β → Action σ γ} (h : ∀ a, n a = m a >>= f) : x >>= n = (x >>= m) >>= f := by
  rw [bind_assoc]
  exact congrArg (x >>= ·) (funext h)

theorem ite_bind_throw {α β : Type} {p : Prop} [Decidable p] {m : Action σ α}
    {f : α → Action σ β} {e : VMException} :
    (if p then m >>= f else throw e) = (if p then m else throw e) >>= f := by
  split <;> rfl

/-- What follows an action has to agree only in the states that the action leaves. -/
theorem bind_congr_ok {α β : Type} {m : Action σ α} {f g : α → Action σ β} {s : LegacyVM σ}
    (h : ∀ a t, m s = .ok a t → f a t = g a t) : (m >>= f) s = (m >>= g) s := by
  cases hm : m s with
  | ok a t => rw [bind_of_ok hm, bind_of_ok hm, h a t hm]
  | error e t => rw [bind_of_error hm, bind_of_error hm]

/-- The rest of `caseCreate`. -/
def createRest (args : U256 × U256 × U256) : Action σ (Option Bytes) := do
  modify fun s => { s with returnData := [] }
  modify fun s =>
    if s.sp 0 ≤ c.host.balance s.ext c.message.myAddress ∧ c.message.depth < 1024 then
      let createGas : U256 :=
        if c.schedule.staticCallDepthLimit then BitVec.ofNat 256 s.ioGas
        else BitVec.ofNat 256 (s.ioGas - s.ioGas / 64)
      let initCode := bytesAt s.mem args.2.1.toNat args.2.2.toNat
      let (ext, r) := c.host.create s.ext
        { endowment := s.sp 0, gas := createGas, initCode, op := s.op, salt := args.1 }
      { s.setSPP (fromAddress r.address) with
        ext
        returnData := r.output
        ioGas := (BitVec.ofNat 256 s.ioGas - (createGas - r.gas)).toNat % 2 ^ 64 }
    else s.setSPP 0
  next

theorem metered_payCreate : Moves Metered (payCreate c) := by
  refine Moves.bind (metered_setRunGas _) fun _ => Moves.bind Moves.get fun s => ?_
  refine Moves.bind (metered_memNeed _ _) fun _ => Moves.bind (metered_updateMem c _) fun _ => ?_
  exact metered_updateIOGas

theorem metered_paySuicide : Moves Metered (paySuicide c) := by
  refine Moves.bind (metered_setRunGas _) fun _ => Moves.bind Moves.get fun s => ?_
  exact Moves.bind (Moves.runIf (metered_addRunGas _)) fun _ => metered_updateIOGas

theorem caseCreate_eq (s : LegacyVM σ) :
    caseCreate c s = (do payCreate c; let s ← get; createRest c (createArgs s)) s := by
  have hsplit : caseCreate c s = (payCreate c >>= fun _ => createRest c (createArgs s)) s := by
    rw [payCreate]
    simp only [bind_assoc]
    rfl
  rw [hsplit]
  refine bind_congr_ok fun _ t ht => ?_
  have hmetered := metered_payCreate c s
  rw [after_of_ok ht] at hmetered
  rw [get_bind, createArgs, createArgs, sp, sp, sp, sp, sp, sp, hmetered.2.1, hmetered.2.2]

/-- The bytes of `RETURN` and `REVERT`. -/
def outputBytes : Action σ Bytes := do
  let s ← get
  pure (bytesAt s.mem (s.sp 0).toNat (s.sp 1).toNat)

theorem outputCase_eq : outputCase c = (payOutput c >>= fun _ => outputBytes : Action σ Bytes) := by
  simp only [outputCase, payOutput, outputBytes, bind_assoc]

/-- The rest of a case that copies. -/
def copyRest (data : LegacyVM σ → Bytes) (offset index size : Nat) : Action σ (Option Bytes) := do
  modify fun s => (copyDataToMemory (data s) (s.sp offset) (s.sp index) (s.sp size) s).dropArgs
  next

theorem copyCase_eq (data : LegacyVM σ → Bytes) (offset index size : Nat) :
    copyCase c data offset index size =
      payCopy c offset size >>= fun _ => copyRest data offset index size := by
  simp only [copyCase, payCopy, copyRest, bind_assoc]

/-- The rest of `SUICIDE`. -/
def suicideRest (dest : Address) : Action σ (Option Bytes) := do
  modify fun s => { s.dropArgs with ext := c.host.suicide s.ext dest }
  pure (some [])

theorem paySuicide_eq (s : LegacyVM σ) :
    (paySuicide c >>= fun _ => suicideRest c (asAddress (s.sp 0))) s =
      (do paySuicide c; let s ← get; suicideRest c (asAddress (s.sp 0))) s := by
  refine bind_congr_ok fun _ t ht => ?_
  have hmetered := metered_paySuicide c s
  rw [after_of_ok ht] at hmetered
  rw [get_bind, sp, sp, hmetered.2.2]

theorem rest_createRest {i : Instruction} :
    Rest i (do let s ← get; createRest c (createArgs s)) := by
  refine ⟨paid_get_bind fun s => paid_modify_bind _ (paid_next _), fun _ s t h => ?_⟩
  rw [get_bind, createRest, modify_bind] at h
  refine advances_next (fun u => ?_) { s with returnData := [] } t h
  split <;> rfl

/-- An instruction other than a call pays and then runs a rest that does not run out of
gas. -/
theorem interpretCases_eq (i : Instruction) (hi : isCall i = false) :
    ∃ f : Action σ (Option Bytes), Rest i f ∧ interpretCases c i = pay c i >>= fun _ => f := by
  have hcreate : ∀ check : Action σ Unit,
      (do check; caseCreate c) =
        ((do check; payCreate c) >>= fun _ => do let s ← get; createRest c (createArgs s)) :=
    fun check => bind_congr_left fun _ => funext (caseCreate_eq c)
  cases i with
  | delegatecall | staticcall | call | callcode => cases hi
  | create => exact ⟨_, rest_createRest c, hcreate _⟩
  | create2 => exact ⟨_, rest_createRest c, hcreate _⟩
  | ret =>
      refine ⟨do let output ← outputBytes; pure (some output), rest_ends ?_ ?_, ?_⟩
      · exact paid_get_bind fun s => paid_pure _
      · exact fun s t h => by cases h
      · show (outputCase c >>= fun output => pure (some output)) = _
        rw [outputCase_eq, bind_assoc]
        rfl
  | revert =>
      refine ⟨do let output ← outputBytes; throw (.revertInstruction output), rest_ends ?_ ?_, ?_⟩
      · exact paid_get_bind fun s => paid_throw (by simp)
      · exact fun s t h => by cases h
      · refine bind_congr_left fun _ => ?_
        rw [outputCase_eq, bind_assoc]
  | suicide =>
      refine ⟨do let s ← get; suicideRest c (asAddress (s.sp 0)), rest_ends ?_ ?_, ?_⟩
      · exact paid_get_bind fun s => paid_modify_bind _ (paid_pure _)
      · exact fun s t h => by cases h
      · refine bind_congr_left fun _ => funext fun s => ?_
        rw [← paySuicide_eq, paySuicide, bind_assoc, setRunGas, modify_bind, modify_bind,
          bind_assoc, get_bind, get_bind, bind_assoc]
        rfl
  | stop => exact ⟨_, rest_some [], rfl⟩
  | mload | mstore | mstore8 => exact ⟨_, rest_next (by intro; rfl), rfl⟩
  | sha3 =>
      refine ⟨do
        modify fun s => s.setSPP (c.sha3 (bytesAt s.mem (s.sp 0).toNat (s.sp 1).toNat))
        next, rest_next fun _ => rfl, ?_⟩
      simp only [interpretCases, pay, paySha3, result, bind_assoc]
  | log n =>
      exact ⟨_, rest_next (by intro; rfl), bind_congr_left fun _ => bind_congr_left fun _ => rfl⟩
  | exp =>
      exact ⟨_, rest_next (by intro; rfl), bind_congr_left fun _ => bind_congr_left fun _ => rfl⟩
  | shl | shr | sar => exact ⟨_, rest_next (by intro; rfl), bind_congr_left fun _ => rfl⟩
  | returndatasize => exact ⟨_, rest_next (by intro; rfl), bind_congr_left fun _ => rfl⟩
  | balance | extcodesize | sload =>
      exact ⟨_, rest_next (by intro; rfl), bind_congr_left fun _ => rfl⟩
  | blockhash => exact ⟨_, rest_next (by intro; rfl), bind_congr_left fun _ => rfl⟩
  | jumpdest => exact ⟨_, rest_next (f := id) fun _ => rfl, bind_congr_left fun _ => rfl⟩
  | calldatacopy | codecopy =>
      exact ⟨_, rest_next (by intro; rfl), copyCase_eq c _ _ _ _⟩
  | returndatacopy =>
      refine ⟨copyRest (fun s => s.returnData) 0 1 2, rest_next fun _ => rfl, ?_⟩
      exact bind_congr_left fun _ => bind_congr_left fun _ => bind_congr_left fun _ =>
        copyCase_eq c _ _ _ _
  | extcodecopy =>
      exact ⟨_, rest_next (by intro; rfl), bind_congr_left fun _ => copyCase_eq c _ _ _ _⟩
  | pushc | jumpc | jumpci =>
      exact ⟨_, rest_jumps (paid_modify_bind _ (paid_pure _)) rfl, ite_bind_throw⟩
  | sstore =>
      exact ⟨_, rest_next (by intro; rfl), bind_congr_left fun _ => bind_congr_left fun _ => rfl⟩
  | push n => exact ⟨_, rest_jumps (paid_modify_bind _ (paid_pure _)) rfl, rfl⟩
  | pop => exact ⟨_, rest_next (by intro; rfl), rfl⟩
  | dup n | swap n => exact ⟨_, rest_next (by intro; rfl), rfl⟩
  | jump =>
      refine ⟨do let s ← get; verifyJumpDest c (s.sp 0); pure none, rest_jumps ?_ rfl, rfl⟩
      exact paid_get_bind fun s => paid_verifyJumpDest c _ (paid_pure _)
  | jumpi =>
      refine ⟨_, rest_jumps (paid_get_bind fun s => ?_) rfl, rfl⟩
      split
      · exact paid_verifyJumpDest c _ (paid_pure _)
      · exact paid_next _
  | invalid | unsupported _ => exact ⟨_, rest_some [], rfl⟩
  | _ => exact ⟨_, rest_next (by intro; rfl), rfl⟩

/-- The rest of a call, which has been given the gas for its callee. -/
def callRest (gas : U256) : Action σ (Option Bytes) := do
  modify fun s => finishCall c (callParameters c (gas + BitVec.ofNat 256 (stipend c s)) s) s
  next

theorem caseCall_eq : (do allowCall c; caseCall c) = payCall c >>= callRest c := by
  simp only [caseCall, payCall, bind_assoc]
  rfl

/-- **An instruction pays first**, and what follows does not run out of gas. -/
theorem execOne_eq (s : LegacyVM σ) :
    ∃ f : U256 → Action σ (Option Bytes), (∀ gas, Paid (f gas)) ∧
      execOne c s = (charge c >>= f) s := by
  cases hcall : isCall (fetched c s).op with
  | true =>
      refine ⟨callRest c, fun gas => paid_next _, ?_⟩
      rw [execOne, charge, bind_assoc]
      refine bind_congr_ok fun _ t ht => ?_
      obtain ⟨-, -, rfl⟩ := fetchInstruction_ok c ht
      rw [get_bind, bind_assoc, get_bind, if_pos hcall, ← caseCall_eq]
      exact congrFun (interpretCases_call c hcall) _
  | false =>
      obtain ⟨f, hf, hpay⟩ := interpretCases_eq c _ hcall
      refine ⟨fun _ => f, fun _ => hf.paid, ?_⟩
      rw [execOne, charge, bind_assoc]
      refine bind_congr_ok fun _ t ht => ?_
      obtain ⟨-, -, rfl⟩ := fetchInstruction_ok c ht
      rw [get_bind, bind_assoc, get_bind, hcall]
      exact congrFun (hpay.trans (bind_congr_left (n := fun _ => f) fun _ => rfl)) _

/-! ## Sums that do not wrap -/

/-- What memory has cost and the gas that is left are together less than `2 ^ 63`, as in
every execution that starts with less. -/
def Affordable (s : LegacyVM σ) : Prop := memGas c s.mem.length + s.ioGas < 2 ^ 63

/-- The action takes `n` of the gas, or runs out of gas because there is less.  Other
exceptions are allowed. -/
def Exactly {α : Type} (gas n : Nat) : EStateM.Result VMException (LegacyVM σ) α → Prop
  | .ok _ t => t.ioGas + n = gas
  | .error e _ => e = .outOfGas → gas < n

instance {α : Type} (gas n : Nat) (r : EStateM.Result VMException (LegacyVM σ) α) :
    Decidable (Exactly gas n r) :=
  match r with
  | .ok _ t => inferInstanceAs (Decidable (t.ioGas + n = gas))
  | .error e _ => inferInstanceAs (Decidable (e = .outOfGas → gas < n))

instance (s : LegacyVM σ) : Decidable (Affordable c s) :=
  inferInstanceAs (Decidable (_ < _))

section Exactly

variable {c} {α β : Type} {gas n : Nat} {s t : LegacyVM σ}

theorem exactly_throwIf_bind {p : Prop} [Decidable p] {e : VMException} {f : Unit → Action σ α}
    (he : e ≠ .outOfGas) (h : ¬p → Exactly gas n (f ⟨⟩ s)) :
    Exactly gas n ((throwIf p e >>= f) s) := by
  by_cases hp : p
  · rw [throwIf, if_pos hp]
    exact fun h => absurd h he
  · rw [throwIf, if_neg hp]
    exact h hp

theorem exactly_toInt63_bind {v : Nat} {f : Nat → Action σ α} (hbig : 2 ^ 63 ≤ v → gas < n)
    (h : v < 2 ^ 63 → Exactly gas n (f v s)) : Exactly gas n ((toInt63 v >>= f) s) := by
  by_cases hv : v < 2 ^ 63
  · rw [toInt63, if_neg (by omega)]
    exact h hv
  · rw [toInt63, if_pos (by omega)]
    exact fun _ => hbig (by omega)

theorem exactly_updateIOGas (s : LegacyVM σ) : Exactly s.ioGas s.runGas (updateIOGas s) := by
  rw [updateIOGas, get_bind]
  by_cases hlt : s.ioGas < s.runGas
  · rw [throwIf, if_pos hlt]
    exact fun _ => hlt
  · rw [throwIf, if_neg hlt]
    exact Nat.sub_add_cancel (Nat.le_of_not_lt hlt)

/-- What follows a payment and does not throw. -/
theorem Exactly.bind_pure {m : Action σ α} {v : β} (h : Exactly gas n (m s)) :
    Exactly gas n ((do let _ ← m; pure v) s) := by
  cases hm : m s with
  | ok a t =>
      rw [hm] at h
      rw [bind_of_ok hm]
      exact h
  | error e t =>
      rw [hm] at h
      rw [bind_of_error hm]
      exact h

end Exactly

theorem gasForMem_eq (hquad : c.schedule.quadCoeffDiv ≠ 0) (size : Nat) :
    gasForMem c size = toInt63 (memGas c size) := by
  rw [gasForMem, if_neg hquad]
  rfl

theorem toInt63_of_le {v : Nat} {s : LegacyVM σ} (hv : 2 ^ 63 ≤ v) :
    (toInt63 v : Action σ Nat) s = .error .outOfGas s := by
  rw [toInt63, if_pos (by omega)]
  rfl

theorem updateIOGas_of_le {s : LegacyVM σ} (hle : s.runGas ≤ s.ioGas) :
    updateIOGas s = .ok ⟨⟩ { s with ioGas := s.ioGas - s.runGas } :=
  updateIOGas_eq_ok.mpr ⟨hle, rfl⟩

/-- An extra charge under a condition. -/
theorem runIf_addRunGas_eq {p : Prop} [Decidable p] {gas : Nat} {s : LegacyVM σ}
    (hsum : s.runGas + gas < 2 ^ 64) :
    runIf p (addRunGas gas) s = .ok ⟨⟩ { s with runGas := s.runGas + if p then gas else 0 } := by
  by_cases hp : p
  · rw [runIf, if_pos hp, if_pos hp, addRunGas, modify_eq_ok, Nat.mod_eq_of_lt hsum]
  · rw [runIf, if_neg hp, if_neg hp]
    rfl

/-- Growing memory to a size that costs `2 ^ 63` is more than there is. -/
theorem lt_growthGas {s : LegacyVM σ} {size : Nat} (hs : Affordable c s)
    (hbig : 2 ^ 63 ≤ memGas c size) : s.ioGas < growthGas c s size := by
  have hgrows : s.mem.length < size := by
    by_contra hle
    have hmono := memGas_mono c (Nat.le_of_not_lt hle)
    have hs : memGas c s.mem.length + s.ioGas < 2 ^ 63 := hs
    omega
  rw [growthGas, if_pos hgrows]
  have hs : memGas c s.mem.length + s.ioGas < 2 ^ 63 := hs
  omega

/-- Memory of `2 ^ 63` bytes costs more than `2 ^ 63`. -/
theorem le_memGas_roundUp (hquad : c.schedule.quadCoeffDiv ≠ 0) {n : Nat} (hn : 2 ^ 63 ≤ n) :
    2 ^ 63 ≤ memGas c (roundUp n) := by
  have hwords : 2 ^ 58 ≤ roundUp n / 32 := by
    rw [roundUp]
    omega
  have hsquare : 2 ^ 58 * 2 ^ 58 ≤ roundUp n / 32 * (roundUp n / 32) :=
    Nat.mul_le_mul hwords hwords
  have hdiv : c.schedule.quadCoeffDiv.toNat ≤ 2 ^ 32 :=
    Nat.le_of_lt c.schedule.quadCoeffDiv.toNat_lt
  have hpos : 0 < c.schedule.quadCoeffDiv.toNat := by
    rw [Nat.pos_iff_ne_zero]
    exact fun hzero => hquad (UInt32.toNat_inj.mp hzero)
  have hquotient : 2 ^ 63 ≤ roundUp n / 32 * (roundUp n / 32) / c.schedule.quadCoeffDiv.toNat := by
    rw [Nat.le_div_iff_mul_le hpos]
    calc 2 ^ 63 * c.schedule.quadCoeffDiv.toNat ≤ 2 ^ 63 * 2 ^ 32 := Nat.mul_le_mul_left _ hdiv
      _ ≤ 2 ^ 58 * 2 ^ 58 := by decide
      _ ≤ _ := hsquare
  exact Nat.le_trans hquotient (Nat.le_add_left _ _)

/-- The charge for growing memory, which `updateGas` adds first. -/
theorem growth_spec (hquad : c.schedule.quadCoeffDiv ≠ 0) {s : LegacyVM σ}
    (hs : Affordable c s) (hrun : s.runGas < 2 ^ 63) :
    let m : Action σ Unit := runIf (s.mem.length < s.newMemSize) do
      let gas ← gasForMem c s.newMemSize
      let paid ← gasForMem c s.mem.length
      let extra ← toInt63 ((gas + 2 ^ 64 - paid) % 2 ^ 64)
      addRunGas extra
    (growthGas c s s.newMemSize < 2 ^ 63 ∧
        m s = .ok ⟨⟩ { s with runGas := s.runGas + growthGas c s s.newMemSize }) ∨
      (s.ioGas < growthGas c s s.newMemSize ∧ ∃ t, m s = .error .outOfGas t) := by
  intro m
  have hs' : memGas c s.mem.length + s.ioGas < 2 ^ 63 := hs
  by_cases hgrow : s.mem.length < s.newMemSize
  · simp only [m, runIf, if_pos hgrow, gasForMem_eq c hquad]
    by_cases hbig : memGas c s.newMemSize < 2 ^ 63
    · have hmono := memGas_mono c (Nat.le_of_lt hgrow)
      have hdiff : (memGas c s.newMemSize + 2 ^ 64 - memGas c s.mem.length) % 2 ^ 64 =
          growthGas c s s.newMemSize := by
        rw [growthGas, if_pos hgrow]
        omega
      have hgrowth : growthGas c s s.newMemSize < 2 ^ 63 := by
        rw [growthGas, if_pos hgrow]
        omega
      refine .inl ⟨hgrowth, toInt63_bind_eq_ok.mpr ⟨hbig, toInt63_bind_eq_ok.mpr ⟨by omega, ?_⟩⟩⟩
      refine toInt63_bind_eq_ok.mpr ⟨hdiff ▸ hgrowth, ?_⟩
      rw [hdiff, addRunGas, modify_eq_ok, Nat.mod_eq_of_lt (by omega)]
    · refine .inr ⟨lt_growthGas c hs (Nat.le_of_not_lt hbig), s, ?_⟩
      rw [toInt63, if_pos (by omega)]
      rfl
  · have hzero : growthGas c s s.newMemSize = 0 := if_neg hgrow
    refine .inl ⟨by rw [hzero]; decide, ?_⟩
    simp only [m, runIf, if_neg hgrow, hzero]
    rfl

/-- `updateGas` charges for memory and for the words to copy, if there is enough. -/
theorem updateGas_spec (hquad : c.schedule.quadCoeffDiv ≠ 0) {s : LegacyVM σ}
    (hs : Affordable c s)
    (hrun : s.runGas + c.schedule.copyGas.toNat * words s.copyMemSize < 2 ^ 63) :
    let n := s.runGas + c.schedule.copyGas.toNat * words s.copyMemSize +
      growthGas c s s.newMemSize
    (n ≤ s.ioGas ∧ updateGas c s = .ok ⟨⟩ { s with runGas := n }) ∨
      (s.ioGas < n ∧ ∃ t, updateGas c s = .error .outOfGas t) := by
  intro n
  have hcopy : s.runGas + growthGas c s s.newMemSize +
      c.schedule.copyGas.toNat * ((s.copyMemSize + 31) / 32) = n := Nat.add_right_comm _ _ _
  rw [updateGas, get_bind]
  rcases growth_spec c hquad hs (by omega) with ⟨hgrowth, hgrow⟩ | ⟨hlt, t, hgrow⟩
  · rw [bind_of_ok hgrow, addRunGas, modify_bind, get_bind, hcopy, Nat.mod_eq_of_lt (by omega)]
    by_cases hlt : s.ioGas < n
    · exact .inr ⟨hlt, { s with runGas := n }, by rw [throwIf, if_pos hlt]; rfl⟩
    · exact .inl ⟨Nat.le_of_not_lt hlt, by rw [throwIf, if_neg hlt]; rfl⟩
  · exact .inr ⟨by omega, t, by rw [bind_of_error hgrow]⟩

/-- `updateMem` charges and then grows memory. -/
theorem updateMem_spec (hquad : c.schedule.quadCoeffDiv ≠ 0) {s : LegacyVM σ}
    (hs : Affordable c s)
    (hrun : s.runGas + c.schedule.copyGas.toNat * words s.copyMemSize < 2 ^ 63) (need : Nat) :
    let n := s.runGas + c.schedule.copyGas.toNat * words s.copyMemSize +
      growthGas c s (roundUp need)
    (n ≤ s.ioGas ∧ updateMem c need s = .ok ⟨⟩ { s with
        runGas := n
        newMemSize := roundUp need
        mem := s.mem ++ List.replicate (roundUp need - s.mem.length) 0 }) ∨
      (s.ioGas < n ∧ ∃ t, updateMem c need s = .error .outOfGas t) := by
  intro n
  rw [updateMem, modify_bind]
  have hgas := updateGas_spec c hquad (s := { s with newMemSize := roundUp need }) hs hrun
  rcases hgas with ⟨hle, hgas⟩ | ⟨hlt, t, hgas⟩
  · exact .inl ⟨hle, bind_of_ok hgas⟩
  · exact .inr ⟨hlt, t, bind_of_error hgas⟩

/-- The payment of an instruction that may grow memory. -/
theorem exactly_updateMem (hquad : c.schedule.quadCoeffDiv ≠ 0) {s : LegacyVM σ}
    (hs : Affordable c s)
    (hrun : s.runGas + c.schedule.copyGas.toNat * words s.copyMemSize < 2 ^ 63) (need : Nat) :
    Exactly s.ioGas (s.runGas + c.schedule.copyGas.toNat * words s.copyMemSize +
      growthGas c s (roundUp need)) ((do updateMem c need; updateIOGas : Action σ Unit) s) := by
  rcases updateMem_spec c hquad hs hrun need with ⟨hle, hmem⟩ | ⟨hlt, t, hmem⟩
  · rw [bind_of_ok hmem]
    exact exactly_updateIOGas _
  · rw [bind_of_error hmem]
    exact fun _ => hlt

/-- The payment of an instruction that uses `size` bytes at `offset`. -/
theorem exactly_memNeed (hquad : c.schedule.quadCoeffDiv ≠ 0) {s : LegacyVM σ}
    (hs : Affordable c s)
    (hrun : s.runGas + c.schedule.copyGas.toNat * words s.copyMemSize < 2 ^ 63)
    (offset size : U256) :
    Exactly s.ioGas (s.runGas + c.schedule.copyGas.toNat * words s.copyMemSize +
      useGas c s offset size)
      ((do let need ← memNeed offset size; updateMem c need; updateIOGas : Action σ Unit) s) := by
  refine exactly_toInt63_bind (fun hbig => ?_) fun _ => exactly_updateMem c hquad hs hrun _
  have hlt := lt_growthGas c hs (le_memGas_roundUp c hquad (n := memEnd offset size) hbig)
  rw [useGas]
  omega

/-- The same without bytes to copy. -/
theorem exactly_use (hquad : c.schedule.quadCoeffDiv ≠ 0) {s : LegacyVM σ}
    (hs : Affordable c s) (hcopy : s.copyMemSize = 0) (hrun : s.runGas < 2 ^ 63)
    (offset size : U256) :
    Exactly s.ioGas (s.runGas + useGas c s offset size)
      ((do let need ← memNeed offset size; updateMem c need; updateIOGas : Action σ Unit) s) := by
  have hzero : s.runGas + c.schedule.copyGas.toNat * words s.copyMemSize = s.runGas := by
    rw [hcopy]
    rfl
  have h := exactly_memNeed c hquad hs (by rwa [hzero]) offset size
  rwa [hzero] at h

/-! ## What each instruction pays -/

/-- What the sums of the declared schedules need. -/
theorem standard_bounds : ∀ x ∈ EVMSchedule.standard,
    x.quadCoeffDiv ≠ 0 ∧ x.copyGas.toNat = 3 ∧ x.expGas.toNat = 10 ∧ x.expByteGas.toNat ≤ 50 ∧
      x.logGas.toNat = 375 ∧ x.logTopicGas.toNat = 375 := by
  decide

/-- The bytes that `EXP` counts are those of the exponent. -/
theorem byteLength_eq (x : U256) : 32 - firstBitSet x / 8 = byteLength x := by
  unfold firstBitSet byteLength
  by_cases hx : x = 0
  · rw [if_pos hx, hx]
    rfl
  · have hne : x.toNat ≠ 0 := fun h => hx (BitVec.eq_of_toNat_eq h)
    have hlog : Nat.log 256 x.toNat = Nat.log2 x.toNat / 8 := by
      rw [Nat.log2_eq_log_two, ← Nat.log_pow_left]
    have hlt : Nat.log2 x.toNat < 256 := Nat.log2_lt hne |>.mpr x.isLt
    rw [if_neg hx, Nat.length_digits 256 x.toNat (by decide) hne, hlog]
    omega

theorem byteLength_le (x : U256) : byteLength x ≤ 32 := by
  rw [← byteLength_eq]
  exact Nat.sub_le _ _

section Pay

variable {c} {s : LegacyVM σ} (hc : c.schedule ∈ EVMSchedule.standard) (hs : Affordable c s)

include hc hs

theorem exactly_payCreate (hcopy : s.copyMemSize = 0) :
    Exactly s.ioGas (c.schedule.createGas.toNat + useGas c s (createArgs s).2.1 (createArgs s).2.2)
      (payCreate c s) := by
  have hgas := c.schedule.createGas.toNat_lt
  exact exactly_use c (standard_bounds _ hc).1 (s := { s with runGas := c.schedule.createGas.toNat })
    hs hcopy (by show c.schedule.createGas.toNat < _; omega) _ _

theorem exactly_payOutput (hrun : s.runGas = baseGas c s) :
    Exactly s.ioGas (baseGas c s + useGas c s (s.sp 0) (s.sp 1)) (payOutput c s) := by
  have hgas : baseGas c s < 2 ^ 32 := (c.schedule.tierGas _).toNat_lt
  have h := exactly_use c (standard_bounds _ hc).1 (s := { s with copyMemSize := 0 }) hs rfl
    (by show s.runGas < _; omega) (s.sp 0) (s.sp 1)
  exact hrun ▸ h

theorem exactly_payCopy (hrun : s.runGas < 2 ^ 32) (offset size : Nat) :
    Exactly s.ioGas (s.runGas + copyCost c s (s.sp offset) (s.sp size))
      (payCopy c offset size s) := by
  obtain ⟨hquad, hcopy, -⟩ := standard_bounds _ hc
  rw [payCopy, get_bind, copyCost]
  refine exactly_toInt63_bind (fun hbig => ?_) fun hsize => ?_
  · -- so many bytes need memory that costs more than there is
    have hne : s.sp size ≠ 0 := by
      intro h
      rw [h] at hbig
      exact absurd hbig (by decide)
    have hend : 2 ^ 63 ≤ memEnd (s.sp offset) (s.sp size) := by
      rw [memEnd, if_pos hne]
      omega
    have hlt := lt_growthGas c hs (le_memGas_roundUp c hquad hend)
    rw [useGas]
    omega
  · have hwords : c.schedule.copyGas.toNat * words (s.sp size).toNat < 2 ^ 62 := by
      rw [hcopy, words]
      omega
    rw [modify_bind]
    have h := exactly_memNeed c hquad (s := { s with copyMemSize := (s.sp size).toNat }) hs
      (by show s.runGas + _ * words (s.sp size).toNat < _; omega) (s.sp offset) (s.sp size)
    rw [← Nat.add_assoc]
    exact h

theorem exactly_paySha3 (hcopy : s.copyMemSize = 0) :
    Exactly s.ioGas (c.schedule.sha3Gas.toNat +
      c.schedule.sha3WordGas.toNat * words (s.sp 1).toNat + useGas c s (s.sp 0) (s.sp 1))
      (paySha3 c s) := by
  rw [paySha3, get_bind, Nat.mul_comm c.schedule.sha3WordGas.toNat]
  have hs' : memGas c s.mem.length + s.ioGas < 2 ^ 63 := hs
  refine exactly_toInt63_bind (fun hbig => ?_) fun hgas => ?_
  · rw [words]
    omega
  · exact exactly_use c (standard_bounds _ hc).1
      (s := { s with runGas := c.schedule.sha3Gas.toNat +
        ((s.sp 1).toNat + 31) / 32 * c.schedule.sha3WordGas.toNat }) hs hcopy hgas _ _

theorem exactly_logGasMem (hcopy : s.copyMemSize = 0) {n : Nat} (hn : n ≤ 4) :
    Exactly s.ioGas (c.schedule.logGas.toNat + c.schedule.logTopicGas.toNat * n +
      c.schedule.logDataGas.toNat * (s.sp 1).toNat + useGas c s (s.sp 0) (s.sp 1))
      ((do logGasMem c n; updateIOGas : Action σ Unit) s) := by
  obtain ⟨hquad, -, -, -, hlog, htopic⟩ := standard_bounds _ hc
  have hbase : (c.schedule.logGas.toNat + c.schedule.logTopicGas.toNat * n) % 2 ^ 32 =
      c.schedule.logGas.toNat + c.schedule.logTopicGas.toNat * n := by
    rw [hlog, htopic]
    omega
  have hs' : memGas c s.mem.length + s.ioGas < 2 ^ 63 := hs
  simp only [logGasMem, bind_assoc]
  rw [get_bind, hbase]
  refine exactly_toInt63_bind (fun hbig => by omega) fun hgas => ?_
  exact exactly_use c hquad (s := { s with runGas := c.schedule.logGas.toNat +
    c.schedule.logTopicGas.toNat * n + c.schedule.logDataGas.toNat * (s.sp 1).toNat }) hs hcopy
    hgas _ _

theorem exactly_accessMem (hcopy : s.copyMemSize = 0) (hrun : s.runGas = baseGas c s) {size : Nat}
    (hsize : size ≤ 32) :
    Exactly s.ioGas (baseGas c s + growthGas c s (roundUp ((s.sp 0).toNat + size)))
      (accessMem c size s) := by
  have hquad := (standard_bounds _ hc).1
  have hgas : baseGas c s < 2 ^ 32 := (c.schedule.tierGas _).toNat_lt
  rw [accessMem, get_bind]
  refine exactly_toInt63_bind (fun hbig => ?_) fun _ => ?_
  · have hlt := lt_growthGas c hs
      (le_memGas_roundUp c hquad (n := (s.sp 0).toNat + size) (by omega))
    omega
  · have hzero : s.runGas + c.schedule.copyGas.toNat * words s.copyMemSize = baseGas c s := by
      rw [hcopy, hrun]
      rfl
    have h := exactly_updateMem c hquad hs (by omega) ((s.sp 0).toNat + size)
    rwa [hzero] at h

omit hc hs in
theorem exactly_payPrice (gas : Nat) : Exactly s.ioGas gas (payPrice gas s) :=
  exactly_updateIOGas { s with runGas := gas }

omit hc hs in
theorem exactly_paySuicide : Exactly s.ioGas (suicideCost c s) (paySuicide c s) := by
  have hgas := c.schedule.suicideGas.toNat_lt
  have hnew := c.schedule.callNewAccountGas.toNat_lt
  rw [paySuicide, setRunGas, modify_bind, get_bind]
  rw [bind_of_ok (runIf_addRunGas_eq (by show c.schedule.suicideGas.toNat + _ < _; omega))]
  exact exactly_updateIOGas _

omit hc hs in
theorem exactly_updateSSGas :
    Exactly s.ioGas (storeCost c s) ((do updateSSGas c; updateIOGas : Action σ Unit) s) := by
  rw [updateSSGas, bind_assoc, get_bind, storeCost]
  split
  · exact exactly_payPrice _
  · split
    · exact exactly_updateIOGas { s with
        runGas := c.schedule.sstoreResetGas.toNat
        ext := c.host.addRefunds s.ext c.schedule.sstoreRefundGas.toNat }
    · exact exactly_payPrice _

omit hs in
theorem exactly_payExp :
    Exactly s.ioGas (c.schedule.expGas.toNat + c.schedule.expByteGas.toNat * byteLength (s.sp 1))
      (pay c .exp s) := by
  obtain ⟨-, -, hexp, hbyte, -, -⟩ := standard_bounds _ hc
  have hbytes : c.schedule.expByteGas.toNat * byteLength (s.sp 1) ≤ 50 * 32 :=
    Nat.mul_le_mul hbyte (byteLength_le _)
  rw [pay, get_bind, byteLength_eq, Nat.mod_eq_of_lt (by omega)]
  exact exactly_payPrice _

/-- Every instruction but the calls pays its cost. -/
theorem exactly_pay (hrun : s.runGas = baseGas c s) (hcopy : s.copyMemSize = 0)
    (hcall : isCall s.op = false) (htopics : topics s.op ≤ 4) :
    Exactly s.ioGas (cost c s) (pay c s.op s) := by
  have hbase : Exactly s.ioGas (baseGas c s) (updateIOGas s) := hrun ▸ exactly_updateIOGas s
  have hgas : s.runGas < 2 ^ 32 := hrun ▸ (c.schedule.tierGas _).toNat_lt
  rw [cost]
  cases hop : s.op with
  | delegatecall | staticcall | call | callcode =>
      rw [hop] at hcall
      cases hcall
  | create =>
      have h := exactly_payCreate hc hs hcopy
      rw [createArgs, if_pos hop] at h
      exact exactly_throwIf_bind (by decide) fun _ => h
  | create2 =>
      have h := exactly_payCreate hc hs hcopy
      rw [createArgs, if_neg (by simp [hop])] at h
      exact exactly_throwIf_bind (by decide) fun _ => h
  | ret => exact exactly_payOutput hc hs hrun
  | revert => exact exactly_throwIf_bind (by decide) fun _ => exactly_payOutput hc hs hrun
  | suicide => exact exactly_throwIf_bind (by decide) fun _ => exactly_paySuicide
  | mload | mstore | mstore8 => exact exactly_accessMem hc hs hcopy hrun (by decide)
  | sha3 => exact exactly_paySha3 hc hs hcopy
  | log n =>
      rw [hop] at htopics
      exact exactly_throwIf_bind (by decide) fun _ => exactly_logGasMem hc hs hcopy htopics
  | exp => exact exactly_payExp hc
  | shl | shr | sar | returndatasize => exact exactly_throwIf_bind (by decide) fun _ => hbase
  | balance | extcodesize | blockhash | sload | jumpdest => exact exactly_payPrice _
  | calldatacopy | codecopy => exact hrun ▸ exactly_payCopy hc hs hgas 0 2
  | returndatacopy =>
      refine exactly_throwIf_bind (by decide) fun _ => ?_
      rw [get_bind]
      exact exactly_throwIf_bind (by decide) fun _ => hrun ▸ exactly_payCopy hc hs hgas 0 2
  | extcodecopy =>
      exact exactly_payCopy (s := { s with runGas := c.schedule.extcodecopyGas.toNat }) hc hs
        c.schedule.extcodecopyGas.toNat_lt 1 3
  | pushc | jumpc | jumpci =>
      show Exactly s.ioGas (baseGas c s) ((if c.optimized then updateIOGas else throw _) s)
      split
      · exact hbase
      · exact fun h => by cases h
  | sstore => exact exactly_throwIf_bind (by decide) fun _ => exactly_updateSSGas
  | invalid | unsupported _ => exact fun h => by cases h
  | _ => exact hbase

end Pay

/-- `LOG4` has the most topics. -/
theorem topics_ofByte (b : UInt8) : topics (.ofByte b) ≤ 4 := by
  have hall : ∀ i : Fin 256, topics (.ofByte (.ofNat i)) ≤ 4 := by decide +kernel
  have h := hall ⟨b.toNat, b.toNat_lt⟩
  rwa [UInt8.ofNat_toNat] at h

/-- `RETURN` that can pay for its memory. -/
theorem interpretCases_ret_of_le {c : Context σ} {u : LegacyVM σ}
    (hc : c.schedule ∈ EVMSchedule.standard) (hs : Affordable c u) (hrun : u.runGas = 0)
    (hle : growthGas c u (roundUp (memEnd (u.sp 0) (u.sp 1))) ≤ u.ioGas) :
    Lib.outcome (interpretCases c .ret) u = .ok (some (bytesAt
      (u.mem ++ List.replicate (roundUp (memEnd (u.sp 0) (u.sp 1)) - u.mem.length) 0)
      (u.sp 0).toNat (u.sp 1).toNat)) := by
  have hquad := (standard_bounds _ hc).1
  have hneed : memEnd (u.sp 0) (u.sp 1) < 2 ^ 63 := by
    by_contra hbig
    have hlt := lt_growthGas c hs (le_memGas_roundUp c hquad (Nat.le_of_not_lt hbig))
    omega
  have hbase : u.runGas + c.schedule.copyGas.toNat * words 0 = 0 := by
    rw [hrun]
    rfl
  have hmem := updateMem_spec c hquad (s := { u with copyMemSize := 0 }) hs
    (hbase.trans_lt (by decide)) (memEnd (u.sp 0) (u.sp 1))
  have hcost : u.runGas + c.schedule.copyGas.toNat * words 0 +
      growthGas c u (roundUp (memEnd (u.sp 0) (u.sp 1))) ≤ u.ioGas := by
    rwa [hbase, Nat.zero_add]
  rcases hmem with ⟨-, hmem⟩ | ⟨hlt, -⟩
  · have hneed : (memNeed (u.sp 0) (u.sp 1) : Action σ Nat) { u with copyMemSize := 0 } =
        .ok (memEnd (u.sp 0) (u.sp 1)) { u with copyMemSize := 0 } :=
      toInt63_eq_ok.mpr ⟨hneed, rfl, rfl⟩
    show Lib.outcome (outputCase c >>= fun output => pure (some output)) u = _
    rw [outcome_bind_pure, Lib.outcome, outputCase, get_bind, modify_bind, bind_of_ok hneed,
      bind_of_ok hmem, bind_of_ok (updateIOGas_of_le hcost)]
    rfl
  · exact absurd hcost (Nat.not_le_of_lt hlt)

/-! ## What a call pays -/

section Call

variable {c} {s : LegacyVM σ} (hc : c.schedule ∈ EVMSchedule.standard) (hs : Affordable c s)

include hc hs

/-- Memory that a call can pay for fits. -/
theorem memoryFits_of_le (hle : callCost c s ≤ s.ioGas) : MemoryFits c s := by
  have hquad := (standard_bounds _ hc).1
  have hgrowth : growthGas c s (callMemSize s) ≤ s.ioGas :=
    Nat.le_trans (Nat.le_add_left _ _) hle
  have hsmall : memGas c (callMemSize s) < 2 ^ 63 := by
    by_contra hbig
    have hlt := lt_growthGas c hs (Nat.le_of_not_lt hbig)
    omega
  have hend : max (inputEnd s) (outputEnd s) < 2 ^ 63 := by
    by_contra hbig
    have hbig' := le_memGas_roundUp c hquad (Nat.le_of_not_lt hbig)
    rw [callMemSize] at hsmall
    omega
  exact ⟨by omega, by omega, fun _ => ⟨hquad, hsmall⟩⟩

/-- The static costs of a call are paid, if there is enough. -/
theorem callStaticCosts_spec (hcopy : s.copyMemSize = 0) :
    (callCost c s ≤ s.ioGas ∧ ∃ t, callStaticCosts c s = .ok ⟨⟩ t ∧
        t.ioGas = s.ioGas - callCost c s ∧ t.stack = s.stack) ∨
      (s.ioGas < callCost c s ∧ ∃ t, callStaticCosts c s = .error .outOfGas t) := by
  have hquad := (standard_bounds _ hc).1
  have hcall := c.schedule.callGas.toNat_lt
  have hnew := c.schedule.callNewAccountGas.toNat_lt
  have hvalue := c.schedule.callValueTransferGas.toNat_lt
  have hbound := accountGas_lt c s
  have hle : (if createsAccount c s then c.schedule.callNewAccountGas.toNat else 0) < 2 ^ 32 := by
    split <;> omega
  -- up to the memory the costs of the accounts and the value have been added
  have hstart : callStaticCosts c s = (do
      let inputMemNeed ← toInt63 (inputEnd s)
      let outputMemNeed ← toInt63 (outputEnd s)
      updateMem c (max inputMemNeed outputMemNeed)
      updateIOGas : Action σ Unit) { s with runGas := accountGas c s } := by
    rw [callStaticCosts, setRunGas, modify_bind, get_bind]
    rw [bind_of_ok (runIf_addRunGas_eq (by show c.schedule.callGas.toNat + _ < _; omega))]
    rw [bind_of_ok (runIf_addRunGas_eq
      (by show c.schedule.callGas.toNat + ite (createsAccount c s = true) _ _ + _ < _; omega))]
    rfl
  rw [hstart]
  have hfail : 2 ^ 63 ≤ max (inputEnd s) (outputEnd s) → s.ioGas < callCost c s := by
    intro hbig
    have hlt := lt_growthGas c hs (le_memGas_roundUp c hquad hbig)
    rw [callCost, callMemSize]
    omega
  by_cases hin : inputEnd s < 2 ^ 63
  · rw [bind_of_ok (toInt63_eq_ok.mpr ⟨hin, rfl, rfl⟩)]
    by_cases hout : outputEnd s < 2 ^ 63
    · rw [bind_of_ok (toInt63_eq_ok.mpr ⟨hout, rfl, rfl⟩)]
      have hzero : accountGas c s + c.schedule.copyGas.toNat * words s.copyMemSize =
          accountGas c s := by
        rw [hcopy]
        rfl
      have hmem := updateMem_spec c hquad (s := { s with runGas := accountGas c s }) hs
        (by show accountGas c s + _ * words s.copyMemSize < _; omega)
        (max (inputEnd s) (outputEnd s))
      simp only [hzero] at hmem
      rcases hmem with ⟨hpaid, hmem⟩ | ⟨hlt, t, hmem⟩
      · have hpay := (bind_of_ok (f := fun _ => updateIOGas) hmem).trans (updateIOGas_of_le hpaid)
        exact .inl ⟨hpaid, _, hpay, rfl, rfl⟩
      · exact .inr ⟨hlt, t, bind_of_error hmem⟩
    · have htoo : 2 ^ 63 ≤ outputEnd s := Nat.le_of_not_lt hout
      exact .inr ⟨hfail (by omega), _, bind_of_error (toInt63_of_le htoo)⟩
  · have htoo : 2 ^ 63 ≤ inputEnd s := Nat.le_of_not_lt hin
    exact .inr ⟨hfail (by omega), _, bind_of_error (toInt63_of_le htoo)⟩

omit hc hs in
/-- The gas for the callee is taken, as far as there is any. -/
theorem callGas_spec (hs : s.ioGas < 2 ^ 63) :
    let asked := if c.schedule.staticCallDepthLimit then (s.sp 0).toNat
      else min (s.sp 0).toNat (s.ioGas - s.ioGas / 64)
    (asked < 2 ^ 63 ∧ ∃ gas t, callGas c s = .ok gas t ∧ t.ioGas = s.ioGas - min asked s.ioGas) ∨
      (2 ^ 63 ≤ asked ∧ ∃ t, callGas c s = .error .outOfGas t) := by
  intro asked
  have hasked : (if c.schedule.staticCallDepthLimit then s.sp 0
      else BitVec.ofNat 256 (min (s.sp 0).toNat (s.ioGas - s.ioGas / 64)) : U256).toNat = asked := by
    cases hmode : c.schedule.staticCallDepthLimit with
    | true => simp only [asked, hmode, if_true]
    | false =>
        simp only [asked, hmode, Bool.false_eq_true, if_false, BitVec.toNat_ofNat]
        refine Nat.mod_eq_of_lt (Nat.lt_of_le_of_lt (Nat.min_le_right _ _) ?_)
        exact Nat.lt_of_le_of_lt (Nat.sub_le _ _) (Nat.lt_trans hs (by decide))
  rw [callGas, get_bind, hasked]
  by_cases hbig : asked < 2 ^ 63
  · rw [bind_of_ok (toInt63_eq_ok.mpr ⟨hbig, rfl, rfl⟩), setRunGas, modify_bind]
    have hmin : (if s.ioGas < asked then s.ioGas else asked) = min asked s.ioGas := by
      split <;> omega
    rw [hmin]
    have hpay := updateIOGas_of_le (s := { s with runGas := min asked s.ioGas })
      (Nat.min_le_right _ _)
    exact .inl ⟨hbig, _, _, bind_of_ok hpay, rfl⟩
  · exact .inr ⟨Nat.le_of_not_lt hbig, s, bind_of_error (toInt63_of_le (Nat.le_of_not_lt hbig))⟩

/-- A call that passes its checks takes its cost, and else all that is left if it asks for
more than that without `eip150Mode`. -/
theorem payCall_spec (hcopy : s.copyMemSize = 0) (hop : isCall s.op = true) :
    Exactly s.ioGas (cost c s) ((do callStaticCosts c; callGas c : Action σ U256) s) ↔
      (callCost c s ≤ s.ioGas → (c.schedule.staticCallDepthLimit → (s.sp 0).toNat < 2 ^ 63) →
        c.schedule.staticCallDepthLimit → callCost c s + (s.sp 0).toNat ≤ s.ioGas) := by
  have hcost : cost c s = callCost c s + calleeGas c s := by
    rw [cost]
    cases hs : s.op with
    | delegatecall | staticcall | call | callcode => rfl
    | _ =>
        rw [hs] at hop
        cases hop
  have hlt : memGas c s.mem.length + s.ioGas < 2 ^ 63 := hs
  rw [hcost]
  rcases callStaticCosts_spec hc hs hcopy with ⟨hle, t, hstatic, hleft, hstack⟩ | ⟨hlt, t, hstatic⟩
  · rw [bind_of_ok hstatic]
    have hsp : t.sp 0 = s.sp 0 := by rw [sp, sp, hstack]
    have hgas := callGas_spec (c := c) (s := t) (by omega)
    simp only [hsp, hleft] at hgas
    rw [calleeGas]
    cases hmode : c.schedule.staticCallDepthLimit with
    | true =>
        simp only [hmode, if_true] at hgas ⊢
        rcases hgas with ⟨hbound, gas, u, hgas, hu⟩ | ⟨hbig, u, hgas⟩
        · rw [hgas]
          show u.ioGas + _ = _ ↔ _
          constructor
          · intro hpaid _ _ _
            omega
          · intro hask
            have := hask hle (fun _ => hbound) trivial
            omega
        · rw [hgas]
          refine ⟨fun _ _ hbound => ?_, fun _ _ => by omega⟩
          have := hbound trivial
          omega
    | false =>
        simp only [hmode, Bool.false_eq_true, if_false] at hgas ⊢
        rcases hgas with ⟨hbound, gas, u, hgas, hu⟩ | ⟨hbig, -⟩
        · rw [hgas]
          refine ⟨fun _ _ _ h => h.elim, fun _ => ?_⟩
          show u.ioGas + _ = _
          omega
        · omega
  · rw [bind_of_error hstatic]
    refine ⟨fun _ hle => absurd hle (Nat.not_le_of_lt hlt), fun _ _ => ?_⟩
    omega

end Call

/-! ## Steps -/

/-- A fetched instruction has its arguments and room for its results. -/
def Fits (s : LegacyVM σ) : Prop :=
  s.op.metric.args ≤ s.stack.length ∧
    s.stack.length - s.op.metric.args + s.op.metric.ret ≤ 1024

/-- The state with which an instruction starts. -/
def ready (s : LegacyVM σ) : LegacyVM σ :=
  { fetched c s with
    runGas := baseGas c (fetched c s)
    newMemSize := s.mem.length
    copyMemSize := 0 }

theorem adjustStack_eq (removed added : Nat) (s : LegacyVM σ) :
    adjustStack removed added s =
      if s.stack.length < removed then .error .stackUnderflow s
      else if 1024 < s.stack.length - removed + added then .error .outOfStack s
      else .ok ⟨⟩ s := by
  rw [adjustStack, get_bind]
  by_cases hargs : s.stack.length < removed
  · rw [if_pos hargs]
    exact bind_of_error (throwIf_of hargs)
  · rw [if_neg hargs, bind_of_ok (throwIf_of_not hargs)]
    by_cases hfit : 1024 < s.stack.length - removed + added
    · rw [if_pos hfit]
      exact throwIf_of hfit
    · rw [if_neg hfit]
      exact throwIf_of_not hfit

/-- An instruction that fits starts, and another one is thrown. -/
theorem fetchInstruction_eq (s : LegacyVM σ) :
    fetchInstruction c s =
      if s.stack.length < (fetched c s).op.metric.args then .error .stackUnderflow (fetched c s)
      else if 1024 < s.stack.length - (fetched c s).op.metric.args + (fetched c s).op.metric.ret
        then .error .outOfStack (fetched c s)
      else .ok ⟨⟩ (ready c s) := by
  have hadjust := adjustStack_eq (fetched c s).op.metric.args (fetched c s).op.metric.ret
    (fetched c s)
  split
  · next hargs => exact bind_of_error (s := fetched c s) (hadjust.trans (if_pos hargs))
  · next hargs =>
      have hadjust := hadjust.trans (if_neg hargs)
      split
      · next hfit => exact bind_of_error (s := fetched c s) (hadjust.trans (if_pos hfit))
      · next hfit => exact bind_of_ok (s := fetched c s) (hadjust.trans (if_neg hfit))

theorem fetchInstruction_spec (s : LegacyVM σ) :
    (Fits (fetched c s) ∧ fetchInstruction c s = .ok ⟨⟩ (ready c s)) ∨
      (¬Fits (fetched c s) ∧ ∃ e t, e ≠ .outOfGas ∧ fetchInstruction c s = .error e t) := by
  rw [fetchInstruction_eq]
  split
  · next hargs =>
      exact .inr ⟨fun h => absurd h.1 (Nat.not_le_of_lt hargs), _, _, by decide, rfl⟩
  · next hargs =>
      split
      · next hfit => exact .inr ⟨fun h => absurd h.2 (Nat.not_le_of_lt hfit), _, _, by decide, rfl⟩
      · next hfit => exact .inl ⟨⟨Nat.le_of_not_lt hargs, Nat.le_of_not_lt hfit⟩, rfl⟩

/-- The checks of the four calls. -/
def Allowed (s : LegacyVM σ) : Prop :=
  (s.op = .delegatecall → c.schedule.haveDelegateCall) ∧
    (s.op = .staticcall → c.schedule.haveStaticCall) ∧
    ¬(s.op = .call ∧ c.message.staticCall ∧ s.sp 2 ≠ 0)

theorem runIf_enabled {p : Prop} [Decidable p] {b : Bool} {s : LegacyVM σ} (h : p → b = true) :
    runIf p (enabled b) s = .ok ⟨⟩ s := by
  by_cases hp : p
  · rw [runIf, if_pos hp, enabled]
    exact throwIf_of_not (by simp [h hp])
  · rw [runIf, if_neg hp]
    rfl

theorem runIf_not_enabled {p : Prop} [Decidable p] {b : Bool} {s : LegacyVM σ}
    (h : ¬(p → b = true)) : runIf p (enabled b) s = .error .badInstruction s := by
  rw [Classical.not_imp] at h
  rw [runIf, if_pos h.1, enabled]
  exact throwIf_of (by simpa using h.2)

theorem allowCall_spec (s : LegacyVM σ) :
    (Allowed c s ∧ allowCall c s = .ok ⟨⟩ s) ∨
      (¬Allowed c s ∧ ∃ e t, e ≠ .outOfGas ∧ allowCall c s = .error e t) := by
  rw [allowCall, get_bind]
  by_cases hdelegate : s.op = .delegatecall → c.schedule.haveDelegateCall
  · rw [bind_of_ok (runIf_enabled hdelegate)]
    by_cases hstatic : s.op = .staticcall → c.schedule.haveStaticCall
    · rw [bind_of_ok (runIf_enabled hstatic)]
      by_cases hvalue : s.op = .call ∧ c.message.staticCall ∧ s.sp 2 ≠ 0
      · exact .inr ⟨fun h => h.2.2 hvalue, _, s, by decide, throwIf_of hvalue⟩
      · exact .inl ⟨⟨hdelegate, hstatic, hvalue⟩, throwIf_of_not hvalue⟩
    · exact .inr ⟨fun h => hstatic h.2.1, _, s, by decide,
        bind_of_error (runIf_not_enabled hstatic)⟩
  · exact .inr ⟨fun h => hdelegate h.1, _, s, by decide,
      bind_of_error (runIf_not_enabled hdelegate)⟩

/-- What an instruction takes is what it costs, and it only runs out of gas if it costs more
than there is. -/
structure ExactGas (s : LegacyVM σ) : Prop where
  paid : ∀ gas t, charge c s = .ok gas t → t.ioGas + cost c (fetched c s) = s.ioGas
  thrown : ∀ t, execOne c s = .error .outOfGas t → s.ioGas < cost c (fetched c s)

theorem exactGas_iff_exactly (s : LegacyVM σ) :
    ExactGas c s ↔ Exactly s.ioGas (cost c (fetched c s)) (charge c s) := by
  obtain ⟨f, hf, hexec⟩ := execOne_eq c s
  cases hcharge : charge c s with
  | ok gas t =>
      rw [bind_of_ok hcharge] at hexec
      constructor
      · intro h
        exact h.paid gas t hcharge
      · intro h
        refine ⟨fun gas' t' h' => ?_, fun t' ht' => absurd (hexec.symm.trans ht') (hf gas t t')⟩
        rw [hcharge] at h'
        cases h'
        exact h
  | error e t =>
      rw [bind_of_error hcharge] at hexec
      constructor
      · rintro h rfl
        exact h.thrown t hexec
      · intro h
        refine ⟨fun gas t' h' => ?_, fun t' ht' => h ?_⟩
        · rw [hcharge] at h'
          cases h'
        · rw [hexec] at ht'
          cases ht'
          rfl

variable {c}

/-- **Gas is exact.**  Under the declared schedules and with any stack and memory, an
instruction takes exactly its cost or runs out of gas because there is less, if and only if
it is no call that asks for more gas than is left after its static costs. -/
theorem exactGas_iff {s : LegacyVM σ} (hc : c.schedule ∈ EVMSchedule.standard)
    (hs : Affordable c s) : ExactGas c s ↔ Covered c s := by
  rw [exactGas_iff_exactly, charge]
  rcases fetchInstruction_spec c s with ⟨hfits, hfetch⟩ | ⟨hnot, e, t, he, hfetch⟩
  · rw [bind_of_ok hfetch, get_bind]
    cases hcall : isCall (fetched c s).op with
    | false =>
        have hpay := exactly_pay (s := ready c s) hc hs rfl rfl hcall (topics_ofByte _)
        rw [if_neg (by rw [show (ready c s).op = (fetched c s).op from rfl, hcall]; decide)]
        refine ⟨fun _ h => ?_, fun _ => hpay.bind_pure⟩
        rw [h.1] at hcall
        cases hcall
    | true =>
        rw [if_pos (show isCall (ready c s).op = true from hcall), payCall]
        rcases allowCall_spec c (ready c s) with ⟨hallowed, hallow⟩ | ⟨hnot, e, t, he, hallow⟩
        · rw [bind_of_ok hallow, modify_bind]
          refine (payCall_spec (s := { ready c s with returnData := [] }) hc hs rfl hcall).trans ?_
          constructor
          · intro h hcalls
            obtain ⟨-, -, -, -, -, -, -, hle, hasked⟩ := hcalls
            exact ⟨h hle hasked, stipend_le_callCost c hc _⟩
          · intro h hle hasked
            exact (h ⟨hcall, hfits.1, hfits.2, hallowed.1, hallowed.2.1, hallowed.2.2,
              memoryFits_of_le (s := fetched c s) hc hs hle, hle, hasked⟩).1
        · rw [bind_of_error hallow]
          refine ⟨fun _ h => absurd ?_ hnot, fun _ h => absurd h he⟩
          exact ⟨h.2.2.2.1, h.2.2.2.2.1, h.2.2.2.2.2.1⟩
  · rw [bind_of_error hfetch]
    exact ⟨fun _ h => absurd ⟨h.2.1, h.2.2.1⟩ hnot, fun _ h => absurd h he⟩

/-- A contract that logs its memory with two topics, under the newest schedule. -/
def logger : Context Unit where
  optimized := true
  schedule := .constantinople
  message := { code := [0xa2] }
  env := {}
  host := Execution.idleHost
  sha3 _ := 0

/-- The theorem at a log of 100 bytes, of which memory has 32. -/
theorem exactGas_log :
    ExactGas logger
      { ioGas := 5000, stack := [0, 100, 1, 2], mem := List.replicate 32 0, ext := () } :=
  (exactGas_iff (by decide) (by decide +kernel)).mpr (by decide +kernel)

/-- A contract that calls with more gas than it has. -/
def overdrawer : Context Unit := Execution.callerOf [0x7f, 0xff, 0xff, 0xff]

/-- A call that asks for more gas than is left is charged for what is left. -/
theorem call_charged_what_is_left :
    ∃ s, (Execution.system overdrawer 100000 Execution.freshVM).Reach (fun _ _ => True)
        (.running s) ∧
      overdrawer.schedule ∈ EVMSchedule.standard ∧ Affordable overdrawer s ∧
      ¬ExactGas overdrawer s := by
  have hrun : ∃ x, (Execution.system overdrawer 100000 Execution.freshVM).Reach
      (fun _ _ => True) x ∧
      decide ((x.step overdrawer).isSome = true ∧ Affordable overdrawer x.vm ∧
        ¬Exactly x.vm.ioGas (cost overdrawer (fetched overdrawer x.vm))
          (charge overdrawer x.vm)) = true :=
    System.Reach.exists_of_check (List.replicate 7 ()) (.init rfl) (by decide +kernel)
      (by decide +kernel)
  obtain ⟨x, hx, hcheck⟩ := hrun
  obtain ⟨hstep, hs, hnot⟩ := of_decide_eq_true hcheck
  cases x with
  | running s =>
      exact ⟨s, hx, by decide, hs, fun h => hnot ((exactGas_iff_exactly _ _).mp h)⟩
  | returned output s => cases hstep
  | thrown e s => cases hstep

end LegacyVM

end CppSwc.Evm
