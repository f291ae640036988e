import CppSwc.Evm.Program
import CppSwc.Lib.Action

/-!
# LegacyVM

The interpreter of libevm, one member function at a time.  Its members are the
fields of `LegacyVM`, and an action may end with an exception and keeps what it wrote
before it.  The world behind `ExtVMFace` is a `Host` with a state of its own.

Numbers.  `uint64_t` and `unsigned` values are naturals, with the remainder taken
where the code can wrap.  `toInt63` is the check that most sums go through; of a
single `unsigned` it always succeeds and is left out.

The stack is a list with the top first.  During an instruction `stack` is what
`m_SP` points to, and `m_SPP` is what is left of it without the arguments, in front
of which `setSPP` writes the result.

Left out are `onOp`, which only observes, and running out of memory.
-/

namespace CppSwc.Evm

open Lib

/-! ## The world outside -/

/-- The exceptions of the interpreter.  The last one is that of a division by
`quadCoeffDiv = 0`. -/
inductive VMException where
  | outOfGas
  | badInstruction
  | badJumpDestination
  | outOfStack
  | stackUnderflow
  | disallowedStateChange
  | bufferOverrun
  | revertInstruction (output : Bytes)
  | overflowError
deriving DecidableEq, Repr

/-- The fields of `ExtVMFace` that describe the message. -/
structure Message where
  myAddress : Address := 0
  caller : Address := 0
  origin : Address := 0
  value : U256 := 0
  gasPrice : U256 := 0
  data : Bytes := []
  code : Bytes
  depth : Nat := 0
  staticCall : Bool := false

/-- `EnvInfo`. -/
structure EnvInfo where
  author : Address := 0
  timestamp : U256 := 0
  number : U256 := 0
  difficulty : U256 := 0
  gasLimit : U256 := 0
  gasUsed : U256 := 0
  /-- `precedingHashes` of the parent, the parent first. -/
  lastHashes : List H256 := []

/-- `CallParameters`. -/
structure CallParameters where
  senderAddress : Address
  codeAddress : Address
  receiveAddress : Address
  valueTransfer : U256
  apparentValue : U256
  gas : U256
  data : Bytes
  staticCall : Bool

/-- What `call` returns: the success flag, the output, and the gas it writes to its
parameters. -/
structure CallResult where
  success : Bool
  output : Bytes
  gas : U256

/-- The arguments of `create`. -/
structure CreateParameters where
  endowment : U256
  gas : U256
  initCode : Bytes
  op : Instruction
  salt : U256

/-- What `create` returns, with the gas it writes back. -/
structure CreateResult where
  address : Address
  output : Bytes
  gas : U256

/-- `ExtVMFace`, over a type of world states. -/
structure Host (σ : Type) where
  store : σ → U256 → U256
  setStore : σ → U256 → U256 → σ
  balance : σ → Address → U256
  codeAt : σ → Address → Bytes
  codeSizeAt : σ → Address → Nat
  exists' : σ → Address → Bool
  suicide : σ → Address → σ
  create : σ → CreateParameters → σ × CreateResult
  call : σ → CallParameters → σ × CallResult
  log : σ → List U256 → Bytes → σ
  /-- It may execute a transaction. -/
  blockHash : σ → U256 → σ × H256
  /-- `sub.refunds +=`. -/
  addRefunds : σ → Nat → σ

/-- What stays the same during `exec`. -/
structure Context (σ : Type) where
  /-- `EVM_OPTIMIZE`. -/
  optimized : Bool
  schedule : EVMSchedule
  message : Message
  env : EnvInfo
  host : Host σ
  sha3 : Bytes → H256

/-- The code that `initEntry` prepares. -/
def Context.program {σ : Type} (c : Context σ) : Program := optimize c.optimized c.message.code

/-- What a `CALL` gave its callee, beside what it took from the caller for it. -/
structure Handover where
  /-- Taken from `m_io_gas` beyond the static costs. -/
  deducted : Nat
  /-- The stipend, if value is transferred. -/
  stipend : Nat
  /-- Given to `call`. -/
  given : Nat
deriving DecidableEq, Repr

/-- The members of `LegacyVM`. -/
structure LegacyVM (σ : Type) where
  op : Instruction := .stop
  pc : Nat := 0
  stack : List U256 := []
  mem : Bytes := []
  ioGas : Nat
  runGas : Nat := 0
  newMemSize : Nat := 0
  copyMemSize : Nat := 0
  returnData : Bytes := []
  /-- The world behind `m_ext`. -/
  ext : σ
  /-- What callees were given so far.  The code keeps no such record. -/
  handovers : List Handover := []

/-- A member function. -/
abbrev Action (σ : Type) (α : Type) := EStateM VMException (LegacyVM σ) α

namespace LegacyVM

variable {σ : Type}

/-! ## Stack and memory -/

/-- `m_SP[i]`. -/
def sp (s : LegacyVM σ) (i : Nat) : U256 := s.stack.getD i 0

/-- The stack from `m_SPP` on, with a result that is written to `m_SPP[0]`. -/
def setSPP (s : LegacyVM σ) (v : U256) : LegacyVM σ :=
  { s with stack := v :: s.stack.drop s.op.metric.args }

/-- The stack from `m_SPP` on, for an instruction without a result. -/
def dropArgs (s : LegacyVM σ) : LegacyVM σ :=
  { s with stack := s.stack.drop s.op.metric.args }

/-- `size` bytes from `off` on. -/
def bytesAt (bytes : Bytes) (off size : Nat) : Bytes := (bytes.drop off).take size

/-- The 32 bytes from `off` on as a number, with zeros past the end. -/
def wordAt (bytes : Bytes) (off : Nat) : U256 :=
  BitVec.ofNat 256 (fromBigEndian ((List.range 32).map fun i => bytes.getD (off + i) 0))

/-- Writes bytes from `off` on. -/
def writeBytes (mem : Bytes) (off : Nat) (bytes : Bytes) : Bytes :=
  mem.take off ++ bytes ++ mem.drop (off + bytes.length)

/-- `copyDataToMemory`, with the three stack items it reads. -/
def copyDataToMemory (data : Bytes) (offset index size : U256) (s : LegacyVM σ) : LegacyVM σ :=
  let sizeToBeCopied :=
    if data.length < index.toNat + size.toNat then
      (if data.length < index.toNat then 0 else data.length - index.toNat)
    else size.toNat
  let copied := bytesAt data index.toNat sizeToBeCopied
  let zeros := List.replicate (size.toNat - sizeToBeCopied) 0
  { s with mem := writeBytes s.mem offset.toNat (copied ++ zeros) }

/-- `asAddress`. -/
def asAddress (x : U256) : Address := x.setWidth 160

/-- `fromAddress`. -/
def fromAddress (a : Address) : U256 := a.setWidth 256

/-! ## Metering -/

variable (c : Context σ)

/-- `toInt63`. -/
def toInt63 (v : Nat) : Action σ Nat :=
  if 0x7FFFFFFFFFFFFFFF < v then throw .outOfGas else pure v

/-- `memNeed`. -/
def memNeed (offset size : U256) : Action σ Nat :=
  toInt63 (if size ≠ 0 then offset.toNat + size.toNat else 0)

/-- `gasForMem`. -/
def gasForMem (size : Nat) : Action σ Nat :=
  if c.schedule.quadCoeffDiv = 0 then throw .overflowError
  else
    let s := size / 32
    toInt63 (c.schedule.memoryGas.toNat * s + s * s / c.schedule.quadCoeffDiv.toNat)

/-- An assignment to `m_runGas`. -/
def setRunGas (gas : Nat) : Action σ Unit := modify fun s => { s with runGas := gas }

/-- `m_runGas +=`. -/
def addRunGas (gas : Nat) : Action σ Unit :=
  modify fun s => { s with runGas := (s.runGas + gas) % 2 ^ 64 }

/-- `updateIOGas`. -/
def updateIOGas : Action σ Unit := do
  let s ← get
  throwIf (s.ioGas < s.runGas) .outOfGas
  modify fun s => { s with ioGas := s.ioGas - s.runGas }

/-- `updateGas`. -/
def updateGas : Action σ Unit := do
  let s ← get
  runIf (s.mem.length < s.newMemSize) do
    let gas ← gasForMem c s.newMemSize
    let paid ← gasForMem c s.mem.length
    let extra ← toInt63 ((gas + 2 ^ 64 - paid) % 2 ^ 64)
    addRunGas extra
  addRunGas (c.schedule.copyGas.toNat * ((s.copyMemSize + 31) / 32))
  let s ← get
  throwIf (s.ioGas < s.runGas) .outOfGas

/-- `updateMem`. -/
def updateMem (newMem : Nat) : Action σ Unit := do
  modify fun s => { s with newMemSize := (newMem + 31) / 32 * 32 }
  updateGas c
  modify fun s => { s with mem := s.mem ++ List.replicate (s.newMemSize - s.mem.length) 0 }

/-- `updateSSGas`. -/
def updateSSGas : Action σ Unit := do
  let s ← get
  if c.host.store s.ext (s.sp 0) = 0 ∧ s.sp 1 ≠ 0 then
    setRunGas c.schedule.sstoreSetGas.toNat
  else if c.host.store s.ext (s.sp 0) ≠ 0 ∧ s.sp 1 = 0 then do
    setRunGas c.schedule.sstoreResetGas.toNat
    modify fun s =>
      { s with ext := c.host.addRefunds s.ext c.schedule.sstoreRefundGas.toNat }
  else
    setRunGas c.schedule.sstoreResetGas.toNat

/-- `logGasMem`, for `n` topics. -/
def logGasMem (n : Nat) : Action σ Unit := do
  let s ← get
  let base := (c.schedule.logGas.toNat + c.schedule.logTopicGas.toNat * n) % 2 ^ 32
  let gas ← toInt63 (base + c.schedule.logDataGas.toNat * (s.sp 1).toNat)
  setRunGas gas
  let need ← memNeed (s.sp 0) (s.sp 1)
  updateMem c need

/-- `adjustStack`, the check. -/
def adjustStack (removed added : Nat) : Action σ Unit := do
  let s ← get
  throwIf (s.stack.length < removed) .stackUnderflow
  throwIf (1024 < s.stack.length - removed + added) .outOfStack

/-- `fetchInstruction`. -/
def fetchInstruction : Action σ Unit := do
  modify fun s => { s with op := .ofByte (c.program.code.getD s.pc 0) }
  let s ← get
  adjustStack s.op.metric.args s.op.metric.ret
  modify fun s =>
    { s with
      runGas := (c.schedule.tierGas s.op.metric.gasPriceTier).toNat
      newMemSize := s.mem.length
      copyMemSize := 0 }

end LegacyVM

end CppSwc.Evm
