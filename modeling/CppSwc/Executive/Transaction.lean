import CppSwc.Evm.Schedule

/-!
# Transactions

`TransactionBase` of libethcore, and the checks that a seal engine makes of a transaction
before it is executed.

The sender is kept with the transaction once it is known.  What `recover` gives for the
signature is a field.
-/

namespace CppSwc

open Evm

/-- `SignatureStruct`, without `v`, which only `recover` reads. -/
structure SignatureStruct where
  r : U256
  s : U256
deriving DecidableEq, Repr

/-- `TransactionBase`, of a contract creation or a message call. -/
structure TransactionBase where
  isCreation : Bool := false
  nonce : U256 := 0
  value : U256 := 0
  receiveAddress : Address := 0
  gasPrice : U256 := 0
  gas : U256 := 0
  data : Bytes := []
  vrs : Option SignatureStruct := none
  chainId : Int := -4
  /-- `m_sender`, which is zero if it is not known yet. -/
  cachedSender : Address := 0
  /-- The address of the public key that `recover` gives, if any. -/
  recovered : Option Address := none
deriving DecidableEq, Repr

/-- The exceptions of a transaction, of `State`, and the end of the process. -/
inductive Failure where
  | invalidSignature
  | invalidZeroSignatureTransaction
  | transactionIsUnsigned
  | outOfGasIntrinsic
  | blockGasLimitReached
  | invalidNonce
  | notEnoughCash
  | invalidAccountStartNonce
  | assertion
  /-- `exit(1)`. -/
  | exit
deriving DecidableEq, Repr

/-- `MaxAddress`, the sender of transactions with a zero signature. -/
def maxAddress : Address := BitVec.allOnes 160

namespace TransactionBase

/-- `hasSignature`. -/
def hasSignature (t : TransactionBase) : Bool := t.vrs.isSome

/-- `hasZeroSignature`. -/
def hasZeroSignature (t : TransactionBase) : Bool := t.vrs.any fun sig => sig.r = 0 ∧ sig.s = 0

/-- `isReplayProtected`. -/
def isReplayProtected (t : TransactionBase) : Bool := t.chainId ≠ -4

/-- `sender`. -/
def sender (t : TransactionBase) : Except Failure Address :=
  if t.cachedSender ≠ 0 then .ok t.cachedSender
  else if t.hasZeroSignature then .ok maxAddress
  else if t.hasSignature then
    match t.recovered with
    | some a => .ok a
    | none => .error .invalidSignature
  else .error .transactionIsUnsigned

/-- `safeSender`. -/
def safeSender (t : TransactionBase) : Address :=
  match t.sender with
  | .ok a => a
  | .error _ => 0

/-- `c_secp256k1n`. -/
def secp256k1n : U256 :=
  115792089237316195423570985008687907852837564279074904382605163141518161494337

/-- `checkLowS`. -/
def checkLowS (t : TransactionBase) : Except Failure Unit :=
  match t.vrs with
  | none => .error .transactionIsUnsigned
  | some sig => if secp256k1n.udiv 2 < sig.s then .error .invalidSignature else .ok ()

/-- `baseGasRequired`.  It has 63 bits, which data would have to be too long for. -/
def baseGasRequired (t : TransactionBase) (schedule : EVMSchedule) : Nat :=
  t.data.foldl
    (fun g b => g + if b ≠ 0 then schedule.txDataNonZeroGas.toNat else schedule.txDataZeroGas.toNat)
    (if t.isCreation then schedule.txCreateGas.toNat else schedule.txGas.toNat)

end TransactionBase

/-- A seal engine, with the fork blocks of its chain. -/
structure SealEngine where
  evmSchedule : U256 → EVMSchedule
  homesteadForkBlock : U256 := 0x7fffffffffffffff
  eip158ForkBlock : U256 := 0x7fffffffffffffff
  byzantiumForkBlock : U256 := 0x7fffffffffffffff
  constantinopleForkBlock : U256 := 0x7fffffffffffffff
  isPrecompiled : Address → U256 → Bool := fun _ _ => false
  costOfPrecompiled : Address → Bytes → U256 → Nat := fun _ _ _ => 0
  executePrecompiled : Address → Bytes → U256 → Bool × Bytes := fun _ _ _ => (false, [])
  nodeAddress : Address := 0
  /-- What an engine that overrides `verifyTransaction` checks after the common part, as
  `Ethash` does with the chain id. -/
  verifyFurther : TransactionBase → U256 → Except Failure Unit := fun _ _ => .ok ()

/-- A check that fails with an exception. -/
def failIf (p : Prop) [Decidable p] (e : Failure) : Except Failure Unit :=
  if p then .error e else .ok ()

/-- The check of the signature since Homestead. -/
def SealEngine.checkSignature (engine : SealEngine) (t : TransactionBase) (number : U256) :
    Except Failure Unit :=
  if engine.homesteadForkBlock ≤ number ∧ t.hasSignature then t.checkLowS else .ok ()

/-- `SealEngineFace::verifyTransaction` with `ImportRequirements::Everything`, for a block
with the given number and gas limit. -/
def SealEngine.verifyTransaction (engine : SealEngine) (t : TransactionBase)
    (number gasLimit gasUsed : U256) : Except Failure Unit := do
  failIf (number < engine.eip158ForkBlock ∧ t.isReplayProtected) .invalidSignature
  failIf (number < engine.constantinopleForkBlock ∧ t.hasZeroSignature) .invalidSignature
  failIf (engine.constantinopleForkBlock ≤ number ∧ t.hasZeroSignature ∧
    (t.value ≠ 0 ∨ t.gasPrice ≠ 0 ∨ t.nonce ≠ 0)) .invalidZeroSignatureTransaction
  engine.checkSignature t number
  failIf (t.gas.toNat < t.baseGasRequired (engine.evmSchedule number)) .outOfGasIntrinsic
  failIf (gasLimit.toNat < gasUsed.toNat + t.gas.toNat ∧ engine.nodeAddress ≠ t.safeSender)
    .blockGasLimitReached
  engine.verifyFurther t number

end CppSwc
