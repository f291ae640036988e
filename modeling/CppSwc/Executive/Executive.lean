import CppSwc.Core.LogBloom
import CppSwc.Core.RlpBytes
import CppSwc.Evm.VMFace
import CppSwc.Executive.Transaction
import CppSwc.State.View

/-!
# Executing transactions

`Executive` of libethereum runs a transaction or a nested call on a `State`, and `ExtVM` is
the host that it gives to the virtual machine.  The two call each other: a call of the
machine is run by an `Executive` of its own.  What the machine can reach that way is
`Nested`, and `nested n` goes `n` levels deep.

The operations of a host cannot throw.  An exception of the state inside a frame ends the
process, since `go` catches it and calls `exit(1)`; that is `exited`, and so are levels
beyond `n`.

A host reads the state without loading accounts: loading is not visible
(`State/View`).  The random choices of the cache are taken from a sequence.
-/

namespace CppSwc

open Std Lib Evm CodeHash

/-! ## The world of a frame -/

/-- `SubState`. -/
structure SubState where
  suicides : ExtTreeSet Address := ∅
  logs : List LogEntry := []
  refunds : U256 := 0

/-- `SubState::operator+=`. -/
def SubState.add (sub other : SubState) : SubState where
  suicides := sub.suicides ∪ other.suicides
  refunds := sub.refunds + other.refunds
  logs := sub.logs ++ other.logs

/-- What is done to the state. -/
inductive Event where
  | setStore (address : Address)
  | log (address : Address)
  | suicide (address : Address)
  /-- A contract creation by the given instruction. -/
  | create (op : Instruction)
  | transfer (source target : Address) (value : U256)
  /-- The balance grows from `before` by `amount`. -/
  | credit (address : Address) (before amount : U256)
  /-- The balance shrinks from `before` by `amount`. -/
  | debit (address : Address) (before amount : U256)
  /-- A transaction that is executed to find a block hash. -/
  | lookup
deriving DecidableEq, Repr

/-- What a frame changes: the state, its own `SubState`, and records that the code does
not keep. -/
structure World (H : Type) where
  state : State H
  sub : SubState := {}
  /-- How many random choices have been made. -/
  draws : Nat := 0
  /-- The process has ended. -/
  exited : Bool := false
  /-- What was done, the newest first. -/
  trace : List Event := []
  /-- Every call was covered by the gas of its caller. -/
  covered : Bool := true

/-- What stays the same during a transaction. -/
structure Setting where
  engine : SealEngine
  info : EnvInfo
  /-- What `VMFactory::create` gives. -/
  vm : VMFace
  optimized : Bool := false
  sha3 : Bytes → H256
  /-- The random choices. -/
  pick : Nat → State.Pick := fun _ _ => 0

/-- `evmSchedule` of the block. -/
def Setting.schedule (M : Setting) : EVMSchedule := M.engine.evmSchedule M.info.number

namespace World

variable {H : Type} (M : Setting)

/-- Records an event. -/
def note (event : Event) (w : World H) : World H := { w with trace := event :: w.trace }

/-- An operation of the state, with the next random choice. -/
def act {α : Type} (m : State.Pick → State.Action H α) (w : World H) :
    Except StateException α × World H :=
  (outcome (m (M.pick w.draws)) w.state,
    { w with state := after (m (M.pick w.draws)) w.state, draws := w.draws + 1 })

/-- An operation of the state in a frame, where an exception ends the process. -/
def perform (m : State.Pick → State.Action H Unit) (w : World H) : World H :=
  match w.act M m with
  | (.ok _, w) => w
  | (.error _, w) => { w with exited := true }

end World

/-! ## Executive -/

/-- `TransactionException`. -/
inductive TransactionException where
  | none
  | unknown
  | badRLP
  | invalidFormat
  | outOfGasIntrinsic
  | invalidSignature
  | invalidNonce
  | notEnoughCash
  | outOfGasBase
  | blockGasLimitReached
  | badInstruction
  | badJumpDestination
  | outOfGas
  | outOfStack
  | stackUnderflow
  | revertInstruction
  | invalidZeroSignatureFormat
  | addressAlreadyUsed
deriving DecidableEq, Repr

/-- `toTransactionException`, of an exception of the machine. -/
def toTransactionException : VMException → TransactionException
  | .badInstruction => .badInstruction
  | .badJumpDestination => .badJumpDestination
  | .outOfGas => .outOfGas
  | .outOfStack => .outOfStack
  | .stackUnderflow => .stackUnderflow
  | _ => .unknown

/-- `ExecutionResult`. -/
structure ExecutionResult where
  gasUsed : U256 := 0
  excepted : TransactionException := .unknown
  newAddress : Address := 0
  output : Bytes := []
deriving DecidableEq, Repr

/-- The members of `Executive`. -/
structure Executive (H : Type) where
  world : World H
  /-- `m_t`, unless it is null. -/
  t : Option TransactionBase := none
  depth : Nat := 0
  baseGasRequired : Nat := 0
  gasCost : U256 := 0
  gas : U256 := 0
  refunded : U256 := 0
  excepted : TransactionException := .none
  /-- `m_ext`, whose `sub` is that of the world. -/
  ext : Option Message := none
  isCreation : Bool := false
  newAddress : Address := 0
  savepoint : Nat := 0
  output : Bytes := []
  logs : List LogEntry := []
  /-- `m_res`, if there is one. -/
  res : Option ExecutionResult := none

namespace Executive

variable {H : Type} [DecidableEq H] [CodeHash H] (M : Setting)

/-- A member function. -/
abbrev Action (H : Type) (α : Type) := EStateM Failure (Executive H) α

/-- An exception of the state. -/
def ofStateException : StateException → Failure
  | .notEnoughCash => .notEnoughCash
  | .invalidAccountStartNonce => .invalidAccountStartNonce
  | .assertion => .assertion

omit [DecidableEq H] [CodeHash H] in
/-- An operation of `m_s`. -/
def onState {α : Type} (m : State.Pick → State.Action H α) : Action H α := fun e =>
  match e.world.act M m with
  | (.ok a, world) => .ok a { e with world }
  | (.error x, world) => .error (ofStateException x) { e with world }

/-- A result that may be an exception. -/
def liftExcept {α : Type} : Except Failure α → Action H α
  | .ok a => pure a
  | .error e => throw e

/-- Records an event. -/
def note (event : Event) : Action H Unit := modify fun e => { e with world := e.world.note event }

/-- `m_s.addBalance`. -/
def addBalance (a : Address) (amount : U256) : Action H Unit := do
  let e ← get
  note (.credit a (e.world.state.balanceAt a) amount)
  onState M fun pick => State.addBalance pick a amount

/-- `m_s.subBalance`. -/
def subBalance (a : Address) (value : U256) : Action H Unit := do
  let e ← get
  note (.debit a (e.world.state.balanceAt a) value)
  onState M fun pick => State.subBalance pick a value

/-- `m_s.transferBalance`. -/
def transferBalance (source target : Address) (value : U256) : Action H Unit := do
  note (.transfer source target value)
  subBalance M source value
  addBalance M target value

/-- `gasUsed`. -/
def gasUsed : Action H U256 := do
  let e ← get
  let limit := e.t.elim 0 TransactionBase.gas
  throwIf (limit < e.gas) .outOfGasIntrinsic
  pure (limit - e.gas)

/-- `revert`. -/
def revert : Action H Unit :=
  modify fun e =>
    { e with
      world := { e.world with
        sub := if e.ext.isSome then {} else e.world.sub
        state := e.world.state.rollback e.savepoint }
      newAddress := 0 }

/-- `initialize`. -/
def initializeWith (t : TransactionBase) : Action H Unit := do
  modify fun e => { e with t := some t, baseGasRequired := t.baseGasRequired M.schedule }
  liftExcept (M.engine.verifyTransaction t M.info.number M.info.gasLimit M.info.gasUsed)
  runIf (t.hasZeroSignature = false) do
    let sender ← liftExcept t.sender
    let nonceReq ← onState M fun pick => State.getNonce pick sender
    throwIf (t.nonce ≠ nonceReq) .invalidNonce
    let gasCost := t.gas.toNat * t.gasPrice.toNat
    let totalCost := t.value.toNat + gasCost
    let balance ← onState M fun pick => State.balance pick sender
    throwIf (t.gas.toNat < t.baseGasRequired M.schedule ∨ balance.toNat < totalCost) .notEnoughCash
    modify fun e => { e with gasCost := BitVec.ofNat 256 gasCost }

/-- The nonce of the sender grows, unless it is the sender of EIP 86. -/
def incSenderNonce (sender : Address) : Action H Unit :=
  runIf (sender ≠ maxAddress ∨ M.info.number < M.engine.constantinopleForkBlock)
    (onState M fun pick => State.incNonce pick sender)

/-- The part of `call` for a precompiled contract, which gives whether `call` is done. -/
def callPrecompiled (p : CallParameters) : Action H Bool := do
  let cost := M.engine.costOfPrecompiled p.codeAddress p.data M.info.number
  if p.gas.toNat < cost then do
    modify fun e => { e with excepted := .outOfGasBase }
    runIf (M.engine.eip158ForkBlock ≤ M.info.number) (addBalance M p.codeAddress 0)
    pure true
  else do
    let (success, output) := M.engine.executePrecompiled p.codeAddress p.data M.info.number
    modify fun e => { e with gas := BitVec.ofNat 256 (p.gas.toNat - cost), output }
    runIf (success = false) (modify fun e => { e with gas := 0, excepted := .outOfGas })
    pure (!success)

/-- The part of `call` for a contract. -/
def callContract (p : CallParameters) (gasPrice : U256) (origin : Address) : Action H Unit := do
  modify fun e => { e with gas := p.gas }
  let hasCode ← onState M fun pick => State.addressHasCode pick p.codeAddress
  runIf (hasCode = true) do
    let code ← onState M fun pick => State.code pick p.codeAddress
    modify fun e =>
      { e with
        ext := some
          { myAddress := p.receiveAddress
            caller := p.senderAddress
            origin
            value := p.apparentValue
            gasPrice
            data := p.data
            code
            depth := e.depth
            staticCall := p.staticCall } }

/-- The two parts. -/
def prepareCall (p : CallParameters) (gasPrice : U256) (origin : Address) : Action H Bool :=
  if M.engine.isPrecompiled p.codeAddress M.info.number then callPrecompiled M p
  else do
    callContract M p gasPrice origin
    pure false

/-- `call`, which gives whether all is done. -/
def call (p : CallParameters) (gasPrice : U256) (origin : Address) : Action H Bool := do
  let e ← get
  runIf (e.t.isSome = true) (incSenderNonce M p.senderAddress)
  modify fun e => { e with savepoint := e.world.state.savepoint }
  let failed ← prepareCall M p gasPrice origin
  if failed then pure true
  else do
    transferBalance M p.senderAddress p.receiveAddress p.valueTransfer
    let e ← get
    pure e.ext.isNone

/-- `executeCreate`. -/
def executeCreate (sender : Address) (endowment gasPrice gas : U256) (init : Bytes)
    (origin : Address) : Action H Bool := do
  incSenderNonce M sender
  modify fun e => { e with savepoint := e.world.state.savepoint, isCreation := true, gas }
  let e ← get
  let hasCode ← onState M fun pick => State.addressHasCode pick e.newAddress
  let nonce ← onState M fun pick => State.getNonce pick e.newAddress
  if hasCode ∨ nonce ≠ 0 then do
    modify fun e => { e with gas := 0, excepted := .addressAlreadyUsed }
    revert
    modify fun e => { e with ext := none }
    pure true
  else do
    transferBalance M sender e.newAddress endowment
    let start ← onState M fun _ => State.requireAccountStartNonce
    let newNonce := if M.engine.eip158ForkBlock ≤ M.info.number then start + 1 else start
    onState M fun pick => State.setNonce pick e.newAddress newNonce
    runIf (init ≠ []) (modify fun e =>
      { e with
        ext := some
          { myAddress := e.newAddress
            caller := sender
            origin
            value := endowment
            gasPrice
            code := init
            depth := e.depth } })
    pure init.isEmpty

/-- `createOpcode`. -/
def createOpcode (sender : Address) (endowment gasPrice gas : U256) (init : Bytes)
    (origin : Address) : Action H Bool := do
  let nonce ← onState M fun pick => State.getNonce pick sender
  modify fun e =>
    { e with
      newAddress := (M.sha3 (RLP.appendList
        (RLP.appendHash 20 sender ++ RLP.appendInt nonce.toNat))).setWidth 160 }
  note (.create .create)
  executeCreate M sender endowment gasPrice gas init origin

/-- `create2Opcode`. -/
def create2Opcode (sender : Address) (endowment gasPrice gas : U256) (init : Bytes)
    (origin : Address) (salt : U256) : Action H Bool := do
  modify fun e =>
    { e with
      newAddress := (M.sha3 (bigEndian 20 sender.toNat ++ bigEndian 32 salt.toNat ++
        bigEndian 32 (M.sha3 init).toNat)).setWidth 160 }
  note (.create .create2)
  executeCreate M sender endowment gasPrice gas init origin

/-- The first part of `execute`: the gas is paid for. -/
def buyGas (sender : Address) : Action H Unit := do
  let e ← get
  subBalance M sender e.gasCost

/-- The second part of `execute`: the frame of the transaction is entered. -/
def enter (t : TransactionBase) (sender : Address) : Action H Bool := do
  let e ← get
  let gas := t.gas - BitVec.ofNat 256 e.baseGasRequired
  if t.isCreation then createOpcode M sender t.value t.gasPrice gas t.data sender
  else
    call M ⟨sender, t.receiveAddress, t.receiveAddress, t.value, t.value, gas, t.data, false⟩
      t.gasPrice sender

/-- `execute`. -/
def execute (t : TransactionBase) : Action H Bool := do
  let sender ← liftExcept t.sender
  buyGas M sender
  enter M t sender

end Executive

/-! ## The host -/

/-- What a frame can have run by another `Executive`. -/
structure Nested (H : Type) where
  call : Message → CallParameters → World H → World H × CallResult
  create : Message → CreateParameters → World H → World H × CreateResult
  /-- The part of `blockHash` that executes a transaction. -/
  lookup : Message → U256 → World H → World H × H256

section

variable {H : Type} [DecidableEq H] [CodeHash H] (M : Setting)

/-- `codeSize`, of the account that is shown. -/
def State.codeSizeAt (s : State H) (a : Address) : Nat :=
  (s.view a).elim 0 fun x => if x.hasNewCode then x.codeCache.length else (x.code s.codes).length

/-- Whether `blockHash` knows the block. -/
def Setting.knownBlock (number : U256) : Prop :=
  number < M.info.number ∧ max 256 M.info.number.toNat - 256 ≤ number.toNat

instance (number : U256) : Decidable (M.knownBlock number) := inferInstanceAs (Decidable (_ ∧ _))

/-- Whether `blockHash` executes a transaction. -/
def Setting.looksUp : Prop := M.engine.constantinopleForkBlock + 256 ≤ M.info.number

instance : Decidable M.looksUp := inferInstanceAs (Decidable (_ ≤ _))

/-- `ExtVM::suicide`. -/
def suicide (myAddress dest : Address) (w : World H) : World H :=
  let w := w.note (.suicide myAddress)
  let w := w.perform M fun pick => State.addBalance pick dest (w.state.balanceAt myAddress)
  let w := w.perform M fun pick => State.setBalance pick myAddress 0
  { w with sub := { w.sub with suicides := w.sub.suicides.insert myAddress } }

/-- `ExtVM::blockHash`. -/
def blockHash (N : Nested H) (m : Message) (w : World H) (number : U256) : World H × H256 :=
  if ¬M.knownBlock number then (w, 0)
  else if M.looksUp then N.lookup m number w
  else (w, M.info.lastHashes.getD (M.info.number - 1 - number).toNat 0)

/-- `ExtVM`. -/
def extVM (N : Nested H) (m : Message) : Host (World H) where
  store w key := w.state.storageAt m.myAddress key
  setStore w key value :=
    (w.note (.setStore m.myAddress)).perform M fun pick =>
      State.setStorage pick m.myAddress key value
  balance w a := w.state.balanceAt a
  codeAt w a := w.state.codeAt a
  codeSizeAt w a := w.state.codeSizeAt a
  exists' w a :=
    if M.schedule.emptinessIsNonexistence then (w.state.view a).any fun x => !x.isEmpty
    else (w.state.view a).isSome
  suicide w dest := suicide M m.myAddress dest w
  create w p := N.create m p w
  call w p := N.call m p w
  log w topics data :=
    let w := w.note (.log m.myAddress)
    { w with sub := { w.sub with logs := w.sub.logs ++ [⟨m.myAddress, topics, data⟩] } }
  blockHash := blockHash M N m
  addRefunds w gas := { w with sub := { w.sub with refunds := w.sub.refunds + BitVec.ofNat 256 gas } }

/-- What the machine sees of a frame. -/
def Setting.context (N : Nested H) (m : Message) : Context (World H) where
  optimized := M.optimized
  schedule := M.schedule
  message := m
  env := M.info
  host := extVM M N m
  sha3 := M.sha3

/-! ## Running code -/

namespace Executive

variable (N : Nested H)

/-- `vm->exec`. -/
def exec (m : Message) : Action H (Except VMException Bytes) := do
  let e ← get
  let (r, world) := M.vm.exec (M.context N m) e.gas e.world
  modify fun e =>
    { e with world := { world with covered := world.covered && r.covered }, gas := r.gas }
  throwIf (world.exited = true) .exit
  pure r.outcome

/-- What `go` catches. -/
def caught : VMException → Action H Unit
  | .revertInstruction output => do
      revert
      modify fun e => { e with output, excepted := .revertInstruction }
  | .overflowError => throw .exit
  | x => do
      modify fun e => { e with gas := 0, excepted := toTransactionException x }
      revert

/-- An operation of the state inside `go`, where an exception ends the process. -/
def orExit {α : Type} (m : Action H α) : Action H α := fun e =>
  match m e with
  | .ok a e => .ok a e
  | .error _ e => .error .exit e

/-- `setCode` at the end of a creation. -/
def deposit (a : Address) (code : Bytes) : Action H Unit := do
  modify fun e => { e with res := e.res.map fun r => { r with output := code } }
  orExit (onState M fun pick => State.setCode pick a code)

/-- The end of a creation, from the output of the code. -/
def finishCreation (a : Address) (out : Bytes) : Action H Unit := do
  let e ← get
  let cost := out.length * M.schedule.createDataGas.toNat % 2 ^ 64
  if M.schedule.maxCodeSize.toNat < out.length then caught .outOfGas
  else if cost ≤ e.gas.toNat then do
    modify fun e => { e with gas := BitVec.ofNat 256 (e.gas.toNat - cost) }
    deposit M a out
  else if M.schedule.exceptionalFailedCodeDeposit then caught .outOfGas
  else deposit M a []

/-- `go`, for the code of a frame. -/
def runCode (m : Message) : Action H Unit := do
  let e ← get
  runIf (e.isCreation = true) (orExit (onState M fun _ => State.clearStorage m.myAddress))
  let outcome ← exec M N m
  match outcome with
  | .error x => caught x
  | .ok out =>
      if e.isCreation then finishCreation M m.myAddress out
      else modify fun e => { e with output := out }

/-- `go`. -/
def go : Action H Unit := do
  let e ← get
  match e.ext with
  | none => pure ()
  | some m => do
      runCode M N m
      modify fun e =>
        { e with
          res := e.res.map fun r => { r with output := if e.output = [] then r.output else e.output } }

/-- The first part of `finalize`: the refunds. -/
def refund : Action H Unit := do
  modify fun e =>
    if e.ext.isNone then e
    else
      let sub := e.world.sub
      let extra := M.schedule.suicideRefundGas.toNat * sub.suicides.size % 2 ^ 64
      { e with world := { e.world with
          sub := { sub with refunds := sub.refunds + BitVec.ofNat 256 extra } } }
  modify fun e =>
    { e with refunded :=
        let half := (e.t.elim 0 TransactionBase.gas - e.gas).udiv 2
        if e.ext.isNone then 0
        else if e.world.sub.refunds < half then e.world.sub.refunds else half }
  modify fun e => { e with gas := e.gas + e.refunded }

/-- The second part of `finalize`: the sender gets the value of the gas that is left. -/
def payBack (t : TransactionBase) : Action H Unit := do
  let sender ← liftExcept t.sender
  let e ← get
  addBalance M sender (e.gas * t.gasPrice)

/-- The third part of `finalize`: the author gets the fees. -/
def payFees (t : TransactionBase) : Action H Unit := do
  let e ← get
  addBalance M M.info.author ((t.gas - e.gas) * t.gasPrice)

/-- The two payments, for a transaction. -/
def pay : Action H Unit := do
  let e ← get
  match e.t with
  | none => pure ()
  | some t => do
      payBack M t
      payFees M t

/-- The fourth part of `finalize`: accounts that have killed themselves are removed. -/
def killSuicides : Action H Unit := do
  let e ← get
  runIf (e.ext.isSome = true)
    ((e.world.sub.suicides.toList).forM fun a => onState M fun pick => State.kill pick a)
  modify fun e => { e with logs := if e.ext.isSome then e.world.sub.logs else e.logs }

/-- The last part of `finalize`: the results are collected. -/
def collect : Action H Unit := do
  let e ← get
  runIf (e.res.isSome = true) do
    let used ← gasUsed
    modify fun e =>
      { e with
        res := e.res.map fun r =>
          { r with gasUsed := used, excepted := e.excepted, newAddress := e.newAddress } }

/-- `finalize`, which gives whether the execution has ended normally. -/
def finalize : Action H Bool := do
  refund M
  pay M
  killSuicides M
  collect
  let e ← get
  pure (e.excepted = .none)

/-- `execute` and `go`. -/
def executeAndGo (t : TransactionBase) : Action H Unit := do
  let done ← execute M t
  runIf (done = false) (go M N)

/-- `executeTransaction`. -/
def executeTransaction (t : TransactionBase) : Action H Bool := do
  initializeWith M t
  executeAndGo M N t
  finalize M

/-- A new executive for a transaction on the state `s`. -/
def fresh (s : State H) : Executive H := { world := { state := s }, res := some {} }

end Executive

/-! ## Transactions on a state -/

/-- `Permanence`. -/
inductive Permanence where
  | reverted
  | committed
  | uncommitted
deriving DecidableEq, Repr

/-- `TransactionReceipt`, with the status code or the root, which is the content of the
trie. -/
structure TransactionReceipt (H : Type) where
  statusOrRoot : Bool ⊕ ExtTreeMap Address (Leaf H)
  cumulativeGasUsed : U256
  logs : List LogEntry

/-- What `State::execute` does with the state at the end. -/
def Setting.settle (p : Permanence) (s : State H) : State H :=
  match p with
  | .reverted => { s with cache := ∅ }
  | .committed =>
      s.commit (if M.engine.eip158ForkBlock ≤ M.info.number then .removeEmptyAccounts
        else .keepEmptyAccounts)
  | .uncommitted => s

/-- The body of `State::execute`. -/
def Executive.transact (N : Nested H) (t : TransactionBase) (p : Permanence) :
    Executive.Action H (ExecutionResult × TransactionReceipt H) := do
  let status ← Executive.executeTransaction M N t
  modify fun e => { e with world := { e.world with state := M.settle p e.world.state } }
  let used ← Executive.gasUsed
  let e ← get
  let receipt : TransactionReceipt H :=
    { statusOrRoot :=
        if M.engine.byzantiumForkBlock ≤ M.info.number then .inl status
        else .inr e.world.state.trie
      cumulativeGasUsed := M.info.gasUsed + used
      logs := e.logs }
  pure (e.res.getD {}, receipt)

/-- `State::execute`. -/
def executeOn (N : Nested H) (t : TransactionBase) (p : Permanence) :
    EStateM Failure (World H) (ExecutionResult × TransactionReceipt H) := fun w =>
  match Executive.transact M N t p { world := { w with sub := {} }, res := some {} } with
  | .ok r e => .ok r { e.world with sub := w.sub }
  | .error x e => .error x { e.world with sub := w.sub }

/-! ## Frames inside frames -/

namespace Nested

/-- The world after a frame.  An exception ends the process. -/
def leave {α : Type} (w : World H) : EStateM.Result Failure (Executive H) α → World H
  | .ok _ e => { e.world with sub := if e.ext.isSome then w.sub.add e.world.sub else w.sub }
  | .error _ e => { e.world with sub := w.sub, exited := true }

/-- The members that are read after a frame. -/
def left {α : Type} : EStateM.Result Failure (Executive H) α → Executive H
  | .ok _ e => e
  | .error _ e => e

/-- `ExtVM::call`. -/
def callFrame (N : Nested H) (m : Message) (p : CallParameters) (w : World H) :
    World H × CallResult :=
  let start : Executive H := { world := { w with sub := {} }, depth := m.depth + 1 }
  let r := (do
    let done ← Executive.call M p m.gasPrice m.origin
    runIf (done = false) (Executive.go M N) : Executive.Action H Unit) start
  (leave w r, ⟨(left r).excepted = .none, (left r).output, (left r).gas⟩)

/-- The start of `ExtVM::create`. -/
def createBy (m : Message) (p : CreateParameters) : Executive.Action H Bool :=
  if p.op = .create then
    Executive.createOpcode M m.myAddress p.endowment m.gasPrice p.gas p.initCode m.origin
  else
    Executive.create2Opcode M m.myAddress p.endowment m.gasPrice p.gas p.initCode m.origin p.salt

/-- `ExtVM::create`. -/
def createFrame (N : Nested H) (m : Message) (p : CreateParameters) (w : World H) :
    World H × CreateResult :=
  let start : Executive H := { world := { w with sub := {} }, depth := m.depth + 1 }
  let r := (do
    let done ← createBy M m p
    runIf (done = false) (Executive.go M N) : Executive.Action H Unit) start
  (leave w r, ⟨(left r).newAddress, (left r).output, (left r).gas⟩)

/-- The address of the contract that knows old block hashes, `c_blockhashContractAddress`. -/
def blockhashContractAddress : Address := 0xf0

/-- The transaction that asks for a block hash. -/
def lookupTransaction (m : Message) (number : U256) (w : World H) : TransactionBase where
  nonce := w.state.nonceAt m.caller
  gas := 1000000
  receiveAddress := blockhashContractAddress
  data := bigEndian 32 number.toNat
  cachedSender := m.caller

/-- What `blockHash` makes of the result.  An exception ends the process. -/
def answer : EStateM.Result Failure (World H) (ExecutionResult × TransactionReceipt H) →
    World H × H256
  | .ok (res, _) w =>
      (w, if res.output.length = 32 then BitVec.ofNat 256 (fromBigEndian res.output) else 0)
  | .error _ w => ({ w with exited := true }, 0)

/-- The end of `ExtVM::blockHash`. -/
def lookupFrame (N : Nested H) (m : Message) (number : U256) (w : World H) : World H × H256 :=
  answer (executeOn M N (lookupTransaction m number w) .reverted (w.note .lookup))

/-- Frames up to `n` levels deep. -/
def upTo : Nat → Nested H
  | 0 =>
      { call := fun _ p w => ({ w with exited := true }, ⟨false, [], p.gas⟩)
        create := fun _ p w => ({ w with exited := true }, ⟨0, [], p.gas⟩)
        lookup := fun _ _ w => ({ w with exited := true }, 0) }
  | n + 1 =>
      { call := callFrame M (upTo n)
        create := createFrame M (upTo n)
        lookup := lookupFrame M (upTo n) }

end Nested

end

end CppSwc
