import CppSwc.Core.Common

/-!
# Gas schedules

`EVMSchedule` of libethcore, with the schedules it declares.  An `unsigned` has 32
bits.  `jumpdestGas`, which nothing reads, and the block reward that a schedule may set are
left out.

`QposSealEngine::evmSchedule` gives `DefaultSchedule` for every block, which has
neither `eip150Mode` nor any of the later features.
-/

namespace CppSwc.Evm

/-- `Tier`. -/
inductive Tier where
  | zero
  | base
  | veryLow
  | low
  | mid
  | high
  | ext
  | special
  | invalid
deriving DecidableEq, Repr

/-- `EVMSchedule`, without `jumpdestGas` and the block reward. -/
structure EVMSchedule where
  exceptionalFailedCodeDeposit : Bool := true
  haveDelegateCall : Bool := true
  eip150Mode : Bool := false
  eip158Mode : Bool := false
  haveBitwiseShifting : Bool := false
  haveRevert : Bool := false
  haveReturnData : Bool := false
  haveStaticCall : Bool := false
  haveCreate2 : Bool := false
  tierStepGas : List UInt32 := [0, 2, 3, 5, 8, 10, 20, 0]
  expGas : UInt32 := 10
  expByteGas : UInt32 := 10
  sha3Gas : UInt32 := 30
  sha3WordGas : UInt32 := 6
  sloadGas : UInt32 := 50
  sstoreSetGas : UInt32 := 20000
  sstoreResetGas : UInt32 := 5000
  sstoreRefundGas : UInt32 := 15000
  logGas : UInt32 := 375
  logDataGas : UInt32 := 8
  logTopicGas : UInt32 := 375
  createGas : UInt32 := 32000
  callGas : UInt32 := 40
  callStipend : UInt32 := 2300
  callValueTransferGas : UInt32 := 9000
  callNewAccountGas : UInt32 := 25000
  suicideRefundGas : UInt32 := 24000
  memoryGas : UInt32 := 3
  quadCoeffDiv : UInt32 := 512
  createDataGas : UInt32 := 200
  txGas : UInt32 := 21000
  txCreateGas : UInt32 := 53000
  txDataZeroGas : UInt32 := 4
  txDataNonZeroGas : UInt32 := 68
  copyGas : UInt32 := 3
  extcodesizeGas : UInt32 := 20
  extcodecopyGas : UInt32 := 20
  balanceGas : UInt32 := 20
  suicideGas : UInt32 := 0
  blockhashGas : UInt32 := 20
  maxCodeSize : UInt32 := 0xffffffff
deriving DecidableEq, Repr

namespace EVMSchedule

/-- `staticCallDepthLimit`. -/
def staticCallDepthLimit (s : EVMSchedule) : Bool := !s.eip150Mode

/-- `suicideChargesNewAccountGas`. -/
def suicideChargesNewAccountGas (s : EVMSchedule) : Bool := s.eip150Mode

/-- `emptinessIsNonexistence`. -/
def emptinessIsNonexistence (s : EVMSchedule) : Bool := s.eip158Mode

/-- `zeroValueTransferChargesNewAccountGas`. -/
def zeroValueTransferChargesNewAccountGas (s : EVMSchedule) : Bool := !s.eip158Mode

/-- `tierStepGas` at a tier.  The array has no entry for `Tier::Invalid`, whose
instructions throw before the value is used. -/
def tierGas (s : EVMSchedule) (tier : Tier) : UInt32 := s.tierStepGas.getD tier.ctorIdx 0

/-- `DefaultSchedule`. -/
def default : EVMSchedule := {}

/-- `FrontierSchedule`. -/
def frontier : EVMSchedule :=
  { exceptionalFailedCodeDeposit := false, haveDelegateCall := false, txCreateGas := 21000 }

/-- `HomesteadSchedule`. -/
def homestead : EVMSchedule := {}

/-- `EIP150Schedule`. -/
def eip150 : EVMSchedule :=
  { homestead with
    eip150Mode := true
    extcodesizeGas := 700
    extcodecopyGas := 700
    balanceGas := 400
    sloadGas := 200
    callGas := 700
    suicideGas := 5000 }

/-- `EIP158Schedule`. -/
def eip158 : EVMSchedule :=
  { eip150 with expByteGas := 50, eip158Mode := true, maxCodeSize := 0x6000 }

/-- `ByzantiumSchedule`. -/
def byzantium : EVMSchedule :=
  { eip158 with haveRevert := true, haveReturnData := true, haveStaticCall := true }

/-- `EWASMSchedule`. -/
def ewasm : EVMSchedule :=
  { byzantium with maxCodeSize := 0xffffffff, txDataZeroGas := byzantium.txDataNonZeroGas }

/-- `ConstantinopleSchedule`. -/
def constantinople : EVMSchedule :=
  { byzantium with blockhashGas := 800, haveCreate2 := true, haveBitwiseShifting := true }

/-- `QposSealEngine::evmSchedule`. -/
def qpos (_blockNumber : U256) : EVMSchedule := default

/-- The schedules that are declared. -/
def standard : List EVMSchedule :=
  [default, frontier, homestead, eip150, eip158, byzantium, ewasm, constantinople]

end EVMSchedule

end CppSwc.Evm
