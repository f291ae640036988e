import CppSwc.Evm.LegacyVM
import CppSwc.Lib.Run

/-!
# The instructions of LegacyVM

`interpretCases`, with one arm for every `CASE`, and the two cases that call out,
`caseCreate` and `caseCall`.  An instruction gives `none` to go on and the output to
stop, which is `m_bounce = 0` in the code.  Most arms only pay and compute a result:
they are `result`, with the expression of the `CASE`.
-/

namespace CppSwc.Evm

open Lib

/-! ## Arithmetic -/

/-- `firstBitSet` of an `h256`. -/
def firstBitSet (x : U256) : Nat := if x = 0 then 256 else 255 - Nat.log2 x.toNat

/-- `exp256`.  The exponent has 256 bits, so that many rounds are enough. -/
def exp256 (base exponent : U256) : U256 :=
  let rec loop : Nat → U256 → U256 → U256 → U256
    | 0, _, _, result => result
    | n + 1, base, exponent, result =>
        if exponent = 0 then result
        else loop n (base * base) (exponent >>> 1)
          (if exponent.getLsbD 0 then result * base else result)
  loop 256 base exponent 1

/-- A truth value on the stack. -/
def flag (b : Bool) : U256 := if b then 1 else 0

/-- `SIGNEXTEND`. -/
def signextend (size number : U256) : U256 :=
  if size.toNat < 31 then
    let testBit := size.toNat * 8 + 7
    let mask : U256 := (1 : U256) <<< testBit - 1
    if number.getLsbD testBit then number ||| ~~~mask else number &&& mask
  else number

/-- `SAR`. -/
def sar (amount shiftee : U256) : U256 :=
  if 256 ≤ amount.toNat then (if shiftee.msb then BitVec.allOnes 256 else 0)
  else
    let shifted := shiftee >>> amount.toNat
    if shiftee.msb then shifted ||| (BitVec.allOnes 256 <<< (256 - amount.toNat)) else shifted

namespace LegacyVM

variable {σ : Type} (c : Context σ)

/-! ## Pieces of a case -/

/-- `NEXT`. -/
def next : Action σ (Option Bytes) := do
  modify fun s => { s with pc := s.pc + 1 }
  pure none

/-- A case that pays and writes a result. -/
def result (f : LegacyVM σ → U256) : Action σ (Option Bytes) := do
  updateIOGas
  modify fun s => s.setSPP (f s)
  next

/-- A case with a price of its own. -/
def priced (gas : Nat) (f : LegacyVM σ → U256) : Action σ (Option Bytes) := do
  setRunGas gas
  result f

/-- A case that a schedule may not have. -/
def enabled (have' : Bool) : Action σ Unit := throwIf (have' = false) .badInstruction

/-- `verifyJumpDest`. -/
def verifyJumpDest (dest : U256) : Action σ Unit :=
  if isJumpDest c.program.jumpDests dest then modify fun s => { s.dropArgs with pc := dest.toNat }
  else throw .badJumpDestination

/-- A case that copies data to memory.  The arguments are the items with the memory
offset, the index into the data and the size. -/
def copyCase (data : LegacyVM σ → Bytes) (offset index size : Nat) :
    Action σ (Option Bytes) := do
  let s ← get
  let copyMemSize ← toInt63 (s.sp size).toNat
  modify fun s => { s with copyMemSize }
  let need ← memNeed (s.sp offset) (s.sp size)
  updateMem c need
  updateIOGas
  modify fun s => (copyDataToMemory (data s) (s.sp offset) (s.sp index) (s.sp size) s).dropArgs
  next

/-- The checks and the payment of `RETURN` and `REVERT`, with the output. -/
def outputCase : Action σ Bytes := do
  let s ← get
  modify fun s => { s with copyMemSize := 0 }
  let need ← memNeed (s.sp 0) (s.sp 1)
  updateMem c need
  updateIOGas
  let s ← get
  pure (bytesAt s.mem (s.sp 0).toNat (s.sp 1).toNat)

/-! ## Cases that call out -/

/-- `caseCreate`. -/
def caseCreate : Action σ (Option Bytes) := do
  setRunGas c.schedule.createGas.toNat
  let s ← get
  let (salt, initOff, initSize) :=
    if s.op = .create then (0, s.sp 1, s.sp 2) else (s.sp 1, s.sp 2, s.sp 3)
  let need ← memNeed initOff initSize
  updateMem c need
  updateIOGas
  modify fun s => { s with returnData := [] }
  modify fun s =>
    if s.sp 0 ≤ c.host.balance s.ext c.message.myAddress ∧ c.message.depth < 1024 then
      let createGas : U256 :=
        if c.schedule.staticCallDepthLimit then BitVec.ofNat 256 s.ioGas
        else BitVec.ofNat 256 (s.ioGas - s.ioGas / 64)
      let initCode := bytesAt s.mem initOff.toNat initSize.toNat
      let (ext, r) := c.host.create s.ext
        { endowment := s.sp 0, gas := createGas, initCode, op := s.op, salt }
      { s.setSPP (fromAddress r.address) with
        ext
        returnData := r.output
        ioGas := (BitVec.ofNat 256 s.ioGas - (createGas - r.gas)).toNat % 2 ^ 64 }
    else s.setSPP 0
  next

/-- `haveValueArg`. -/
def haveValueArg (op : Instruction) : Bool := op = .call || op = .callcode

/-- Whether the call transfers value. -/
def transfersValue (s : LegacyVM σ) : Bool := haveValueArg s.op && s.sp 2 != 0

/-- The stack index of the input offset, `sizesOffset`. -/
def sizesOffset (op : Instruction) : Nat := if haveValueArg op then 3 else 2

/-- Whether the call pays for a new account. -/
def createsAccount (s : LegacyVM σ) : Bool :=
  s.op = .call && !c.host.exists' s.ext (asAddress (s.sp 1)) &&
    (s.sp 2 != 0 || c.schedule.zeroValueTransferChargesNewAccountGas)

/-- The first part of `caseCallSetup`, up to the static costs. -/
def callStaticCosts : Action σ Unit := do
  setRunGas c.schedule.callGas.toNat
  let s ← get
  runIf (createsAccount c s) (addRunGas c.schedule.callNewAccountGas.toNat)
  runIf (transfersValue s) (addRunGas c.schedule.callValueTransferGas.toNat)
  let i := sizesOffset s.op
  let inputMemNeed ← memNeed (s.sp i) (s.sp (i + 1))
  let outputMemNeed ← memNeed (s.sp (i + 2)) (s.sp (i + 3))
  updateMem c (max inputMemNeed outputMemNeed)
  updateIOGas

/-- The second part of `caseCallSetup`: the gas for the callee, without the
stipend. -/
def callGas : Action σ U256 := do
  let s ← get
  let gas : U256 :=
    if c.schedule.staticCallDepthLimit then s.sp 0
    else BitVec.ofNat 256 (min (s.sp 0).toNat (s.ioGas - s.ioGas / 64))
  let runGas ← toInt63 gas.toNat
  setRunGas (if s.ioGas < runGas then s.ioGas else runGas)
  updateIOGas
  pure gas

/-- The stipend of a call. -/
def stipend (s : LegacyVM σ) : Nat := if transfersValue s then c.schedule.callStipend.toNat else 0

/-- The parameters that `caseCallSetup` fills in, from the gas with the stipend. -/
def callParameters (gas : U256) (s : LegacyVM σ) : CallParameters :=
  let destinationAddr := asAddress (s.sp 1)
  let i := sizesOffset s.op
  { senderAddress := if s.op = .delegatecall then c.message.caller else c.message.myAddress
    codeAddress := destinationAddr
    receiveAddress :=
      if s.op = .call ∨ s.op = .staticcall then destinationAddr else c.message.myAddress
    valueTransfer := if haveValueArg s.op then s.sp 2 else 0
    apparentValue :=
      if haveValueArg s.op then s.sp 2
      else if s.op = .delegatecall then c.message.value else 0
    gas
    data := bytesAt s.mem (s.sp i).toNat (s.sp (i + 1)).toNat
    staticCall := s.op = .staticcall || c.message.staticCall }

/-- The end of `caseCall`, after `caseCallSetup` has found the parameters.  If the
balance or the depth does not allow the call, the gas of the parameters comes back
as it is. -/
def finishCall (params : CallParameters) (s : LegacyVM σ) : LegacyVM σ :=
  if params.valueTransfer ≤ c.host.balance s.ext c.message.myAddress ∧ c.message.depth < 1024 then
    let i := sizesOffset s.op
    let (ext, r) := c.host.call s.ext params
    let output := r.output.take (s.sp (i + 3)).toNat
    { s.setSPP (flag r.success) with
      ext
      mem := writeBytes s.mem (s.sp (i + 2)).toNat output
      returnData := r.output
      ioGas := (s.ioGas + r.gas.toNat % 2 ^ 64) % 2 ^ 64
      handovers := s.handovers ++ [⟨s.runGas, stipend c s, params.gas.toNat⟩] }
  else
    { s.setSPP 0 with ioGas := (s.ioGas + params.gas.toNat % 2 ^ 64) % 2 ^ 64 }

/-- `caseCall`, with `caseCallSetup`. -/
def caseCall : Action σ (Option Bytes) := do
  modify fun s => { s with returnData := [] }
  callStaticCosts c
  let gas ← callGas c
  modify fun s => finishCall c (callParameters c (gas + BitVec.ofNat 256 (stipend c s)) s) s
  next

/-! ## The cases -/

/-- The check of the cases that change the state. -/
def allowStateChange : Action σ Unit := throwIf c.message.staticCall .disallowedStateChange

/-- The check of the four calls. -/
def allowCall : Action σ Unit := do
  let s ← get
  runIf (s.op = .delegatecall) (enabled c.schedule.haveDelegateCall)
  runIf (s.op = .staticcall) (enabled c.schedule.haveStaticCall)
  throwIf (s.op = .call ∧ c.message.staticCall ∧ s.sp 2 ≠ 0) .disallowedStateChange

/-- `SUICIDE`. -/
def caseSuicide : Action σ (Option Bytes) := do
  allowStateChange c
  setRunGas c.schedule.suicideGas.toNat
  let s ← get
  let dest := asAddress (s.sp 0)
  runIf ((c.host.balance s.ext c.message.myAddress ≠ 0 ∨
        c.schedule.zeroValueTransferChargesNewAccountGas) ∧
      c.schedule.suicideChargesNewAccountGas ∧ !c.host.exists' s.ext dest)
    (addRunGas c.schedule.callNewAccountGas.toNat)
  updateIOGas
  modify fun s => { s.dropArgs with ext := c.host.suicide s.ext dest }
  pure (some [])

/-- `LOG0` to `LOG4`. -/
def caseLog (n : Nat) : Action σ (Option Bytes) := do
  allowStateChange c
  logGasMem c n
  updateIOGas
  modify fun s =>
    { s.dropArgs with
      ext := c.host.log s.ext ((List.range n).map fun i => s.sp (i + 2))
        (bytesAt s.mem (s.sp 0).toNat (s.sp 1).toNat) }
  next

/-- `MLOAD`, `MSTORE` and `MSTORE8` pay for `size` bytes. -/
def accessMem (size : Nat) : Action σ Unit := do
  let s ← get
  let off ← toInt63 (s.sp 0).toNat
  updateMem c (off + size)
  updateIOGas

/-- The cast of a memory offset to `unsigned`. -/
def memOff (s : LegacyVM σ) : Nat := (s.sp 0).toNat % 2 ^ 32

/-- `interpretCases`. -/
def interpretCases : Instruction → Action σ (Option Bytes)
  | .create2 => do
      enabled c.schedule.haveCreate2
      caseCreate c
  | .create => do
      allowStateChange c
      caseCreate c
  | .delegatecall | .staticcall | .call | .callcode => do
      allowCall c
      caseCall c
  | .ret => do
      let output ← outputCase c
      pure (some output)
  | .revert => do
      enabled c.schedule.haveRevert
      let output ← outputCase c
      throw (.revertInstruction output)
  | .suicide => caseSuicide c
  | .stop => do
      updateIOGas
      pure (some [])
  | .mload => do
      accessMem c 32
      modify fun s => s.setSPP (wordAt s.mem s.memOff)
      next
  | .mstore => do
      accessMem c 32
      modify fun s =>
        { s.dropArgs with mem := writeBytes s.mem s.memOff (bigEndian 32 (s.sp 1).toNat) }
      next
  | .mstore8 => do
      accessMem c 1
      modify fun s =>
        { s.dropArgs with mem := writeBytes s.mem s.memOff [UInt8.ofNat (s.sp 1).toNat] }
      next
  | .sha3 => do
      let s ← get
      let gas ← toInt63 (c.schedule.sha3Gas.toNat +
        ((s.sp 1).toNat + 31) / 32 * c.schedule.sha3WordGas.toNat)
      setRunGas gas
      let need ← memNeed (s.sp 0) (s.sp 1)
      updateMem c need
      result fun s => c.sha3 (bytesAt s.mem (s.sp 0).toNat (s.sp 1).toNat)
  | .log n => caseLog c n
  | .exp => do
      let s ← get
      priced ((c.schedule.expGas.toNat +
          c.schedule.expByteGas.toNat * (32 - firstBitSet (s.sp 1) / 8)) % 2 ^ 32)
        fun s => exp256 (s.sp 0) (s.sp 1)
  | .add => result fun s => s.sp 0 + s.sp 1
  | .mul => result fun s => s.sp 0 * s.sp 1
  | .sub => result fun s => s.sp 0 - s.sp 1
  | .div => result fun s => if s.sp 1 = 0 then 0 else (s.sp 0).udiv (s.sp 1)
  | .sdiv => result fun s => if s.sp 1 = 0 then 0 else (s.sp 0).sdiv (s.sp 1)
  | .mod => result fun s => if s.sp 1 = 0 then 0 else (s.sp 0).umod (s.sp 1)
  | .smod => result fun s => if s.sp 1 = 0 then 0 else (s.sp 0).srem (s.sp 1)
  | .not => result fun s => ~~~(s.sp 0)
  | .lt => result fun s => flag ((s.sp 0).ult (s.sp 1))
  | .gt => result fun s => flag ((s.sp 1).ult (s.sp 0))
  | .slt => result fun s => flag ((s.sp 0).slt (s.sp 1))
  | .sgt => result fun s => flag ((s.sp 1).slt (s.sp 0))
  | .eq => result fun s => flag (s.sp 0 == s.sp 1)
  | .iszero => result fun s => flag (s.sp 0 == 0)
  | .and => result fun s => s.sp 0 &&& s.sp 1
  | .or => result fun s => s.sp 0 ||| s.sp 1
  | .xor => result fun s => s.sp 0 ^^^ s.sp 1
  | .byte => result fun s =>
      if (s.sp 0).toNat < 32 then (s.sp 1 >>> (8 * (31 - (s.sp 0).toNat))) &&& 0xff else 0
  | .shl => do
      enabled c.schedule.haveBitwiseShifting
      result fun s => if 256 ≤ (s.sp 0).toNat then 0 else s.sp 1 <<< (s.sp 0).toNat
  | .shr => do
      enabled c.schedule.haveBitwiseShifting
      result fun s => if 256 ≤ (s.sp 0).toNat then 0 else s.sp 1 >>> (s.sp 0).toNat
  | .sar => do
      enabled c.schedule.haveBitwiseShifting
      result fun s => Evm.sar (s.sp 0) (s.sp 1)
  | .addmod => result fun s =>
      if s.sp 2 = 0 then 0
      else BitVec.ofNat 256 (((s.sp 0).toNat + (s.sp 1).toNat) % (s.sp 2).toNat)
  | .mulmod => result fun s =>
      if s.sp 2 = 0 then 0
      else BitVec.ofNat 256 (((s.sp 0).toNat * (s.sp 1).toNat) % (s.sp 2).toNat)
  | .signextend => result fun s => Evm.signextend (s.sp 0) (s.sp 1)
  | .address => result fun _ => fromAddress c.message.myAddress
  | .origin => result fun _ => fromAddress c.message.origin
  | .balance => priced c.schedule.balanceGas.toNat fun s =>
      c.host.balance s.ext (asAddress (s.sp 0))
  | .caller => result fun _ => fromAddress c.message.caller
  | .callvalue => result fun _ => c.message.value
  | .calldataload => result fun s =>
      if c.message.data.length ≤ (s.sp 0).toNat then 0 else wordAt c.message.data (s.sp 0).toNat
  | .calldatasize => result fun _ => BitVec.ofNat 256 c.message.data.length
  | .returndatasize => do
      enabled c.schedule.haveReturnData
      result fun s => BitVec.ofNat 256 s.returnData.length
  | .codesize => result fun _ => BitVec.ofNat 256 c.message.code.length
  | .extcodesize => priced c.schedule.extcodesizeGas.toNat fun s =>
      BitVec.ofNat 256 (c.host.codeSizeAt s.ext (asAddress (s.sp 0)))
  | .calldatacopy => copyCase c (fun _ => c.message.data) 0 1 2
  | .returndatacopy => do
      enabled c.schedule.haveReturnData
      let s ← get
      throwIf (s.returnData.length < (s.sp 1).toNat + (s.sp 2).toNat) .bufferOverrun
      copyCase c (fun s => s.returnData) 0 1 2
  | .codecopy => copyCase c (fun _ => c.message.code) 0 1 2
  | .extcodecopy => do
      setRunGas c.schedule.extcodecopyGas.toNat
      copyCase c (fun s => c.host.codeAt s.ext (asAddress (s.sp 0))) 1 2 3
  | .gasprice => result fun _ => c.message.gasPrice
  | .blockhash => do
      setRunGas c.schedule.blockhashGas.toNat
      updateIOGas
      modify fun s =>
        let (ext, hash) := c.host.blockHash s.ext (s.sp 0)
        { s.setSPP hash with ext }
      next
  | .coinbase => result fun _ => fromAddress c.env.author
  | .timestamp => result fun _ => c.env.timestamp
  | .number => result fun _ => c.env.number
  | .difficulty => result fun _ => c.env.difficulty
  | .gaslimit => result fun _ => c.env.gasLimit
  | .pop => do
      updateIOGas
      modify dropArgs
      next
  | .pushc =>
      if c.optimized then do
        updateIOGas
        let code := c.program.code
        modify fun s =>
          let off := (code.getD (s.pc + 1) 0).toNat * 256 + (code.getD (s.pc + 2) 0).toNat
          { s.setSPP (c.program.pool.getD off 0) with
            pc := s.pc + 3 + (code.getD (s.pc + 3) 0).toNat }
        pure none
      else throw .badInstruction
  | .push n => do
      updateIOGas
      modify fun s => { s.setSPP (pushed c.program.code s.pc n) with pc := s.pc + n + 1 }
      pure none
  | .jump => do
      updateIOGas
      let s ← get
      verifyJumpDest c (s.sp 0)
      pure none
  | .jumpi => do
      updateIOGas
      let s ← get
      if s.sp 1 ≠ 0 then do
        verifyJumpDest c (s.sp 0)
        pure none
      else do
        modify dropArgs
        next
  | .jumpc =>
      if c.optimized then do
        updateIOGas
        modify fun s => { s.dropArgs with pc := (s.sp 0).toNat % 2 ^ 64 }
        pure none
      else throw .badInstruction
  | .jumpci =>
      if c.optimized then do
        updateIOGas
        modify fun s =>
          { s.dropArgs with pc := if s.sp 1 ≠ 0 then (s.sp 0).toNat % 2 ^ 64 else s.pc + 1 }
        pure none
      else throw .badInstruction
  | .dup n => do
      updateIOGas
      modify fun s => { s with stack := s.sp (n - 1) :: s.stack }
      next
  | .swap n => do
      updateIOGas
      modify fun s => { s with stack := (s.stack.set 0 (s.sp n)).set n (s.sp 0) }
      next
  | .sload => priced c.schedule.sloadGas.toNat fun s => c.host.store s.ext (s.sp 0)
  | .sstore => do
      allowStateChange c
      updateSSGas c
      updateIOGas
      modify fun s => { s.dropArgs with ext := c.host.setStore s.ext (s.sp 0) (s.sp 1) }
      next
  | .pc => result fun s => BitVec.ofNat 256 s.pc
  | .msize => result fun s => BitVec.ofNat 256 s.mem.length
  | .gas => result fun s => BitVec.ofNat 256 s.ioGas
  | .jumpdest => do
      setRunGas 1
      updateIOGas
      next
  | .invalid | .unsupported _ => throw .badInstruction

/-! ## Runs -/

/-- One instruction. -/
def execOne : Action σ (Option Bytes) := do
  fetchInstruction c
  let s ← get
  interpretCases c s.op

end LegacyVM

/-- `exec` after some instructions. -/
inductive Execution (σ : Type) where
  | running (vm : LegacyVM σ)
  | returned (output : Bytes) (vm : LegacyVM σ)
  | thrown (e : VMException) (vm : LegacyVM σ)

namespace Execution

variable {σ : Type}

/-- The machine, which also an ended execution leaves. -/
def vm : Execution σ → LegacyVM σ
  | .running s | .returned _ s | .thrown _ s => s

/-- One instruction, unless the execution has ended. -/
def step (c : Context σ) : Execution σ → Option (Execution σ)
  | .running s =>
      match LegacyVM.execOne c s with
      | .ok none s' => some (.running s')
      | .ok (some output) s' => some (.returned output s')
      | .error e s' => some (.thrown e s')
  | _ => none

/-- The start of `exec`, which sets the gas and the program counter of a machine.  The
stack of a new machine is empty. -/
def start (gas : U256) (vm : LegacyVM σ) : Execution σ :=
  .running { vm with ioGas := gas.toNat % 2 ^ 64, pc := 0, handovers := [] }

/-- The runs of `exec` with the given gas. -/
def system (c : Context σ) (gas : U256) (vm : LegacyVM σ) : System (Execution σ) Unit where
  init x := x = start gas vm
  step x _ := x.step c

end Execution

end CppSwc.Evm
