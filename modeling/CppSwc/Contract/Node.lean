import CppSwc.Core.Common
import CppSwc.Lib.Run

/-!
# The node contract

The contract at the address 9 keeps the tokens of the miners and the list of registered
nodes.  A call that fails a `require`, an `assert` or a transfer of ether changes nothing.

The ether of the contract is a natural number, as no account can hold `2 ^ 256`.  Events are
left out, and so is gas.
-/

namespace CppSwc

/-- Why a call fails. -/
inductive CallFailure where
  | require
  | assert
  | transfer
deriving DecidableEq, Repr

/-- `msg`, and whether the sender takes ether that is sent to it. -/
structure Msg where
  sender : Address
  value : U256 := 0
  accepts : Bool := true

/-- `NodeInfo`. -/
structure NodeInfo where
  property : Bytes := []
  addr : Address := 0
  value : U256 := 0
  created : Bool := false

/-- The storage of the contract, and its ether. -/
structure NodeContract where
  owner : Address := 0
  balances : Address → U256 := fun _ => 0
  locked : Address → U256 := fun _ => 0
  totalSupply_ : U256 := 0
  m_nodedata : Bytes → NodeInfo := fun _ => {}
  m_nodeids : List Bytes := []
  ether : Nat := 0

namespace SafeMath

/-- `sub`. -/
def sub (a b : U256) : Except CallFailure U256 := if b ≤ a then .ok (a - b) else .error .assert

/-- `add`. -/
def add (a b : U256) : Except CallFailure U256 := if a ≤ a + b then .ok (a + b) else .error .assert

end SafeMath

namespace NodeContract

/-- `require`. -/
def require (p : Prop) [Decidable p] : Except CallFailure Unit :=
  if p then .ok () else .error .require

/-- `onlyOwner`. -/
def onlyOwner (s : NodeContract) (addr : Address) : Except CallFailure Unit :=
  require (addr = s.owner ∨ 0 = s.owner)

/-- What a call with ether does first. -/
def receive (msg : Msg) (s : NodeContract) : NodeContract :=
  { s with ether := s.ether + msg.value.toNat }

/-! ## Ownable and BasicToken -/

/-- `transferOwnership`. -/
def transferOwnership (msg : Msg) (newOwner : Address) (s : NodeContract) :
    Except CallFailure NodeContract := do
  s.onlyOwner msg.sender
  pure { s with owner := newOwner }

/-- `transfer`, which is not payable. -/
def transfer (msg : Msg) (target : Address) (value : U256) (s : NodeContract) :
    Except CallFailure NodeContract := do
  require (msg.value = 0)
  require (target ≠ 0)
  let needed ← SafeMath.add (s.locked msg.sender) value
  require (needed ≤ s.balances msg.sender)
  let left ← SafeMath.sub (s.balances msg.sender) value
  let balances := Function.update s.balances msg.sender left
  let got ← SafeMath.add (balances target) value
  pure { s with balances := Function.update balances target got }

/-- `lock`. -/
def lock (msg : Msg) (target : Address) (value : U256) (s : NodeContract) :
    Except CallFailure NodeContract := do
  s.onlyOwner msg.sender
  let needed ← SafeMath.add (s.locked target) value
  require (needed ≤ s.balances target)
  pure { s with locked := Function.update s.locked target needed }

/-- `unlock`. -/
def unlock (msg : Msg) (target : Address) (value : U256) (s : NodeContract) :
    Except CallFailure NodeContract := do
  s.onlyOwner msg.sender
  require (value ≤ s.locked target)
  let left ← SafeMath.sub (s.locked target) value
  pure { s with locked := Function.update s.locked target left }

/-- `msg.sender.transfer`. -/
def sendEther (msg : Msg) (value : U256) (s : NodeContract) : Except CallFailure NodeContract :=
  if msg.accepts ∧ value.toNat ≤ s.ether then .ok { s with ether := s.ether - value.toNat }
  else .error .transfer

/-- `withdraw`.  It takes the attached ether from `totalSupply_`, not what is withdrawn. -/
def withdraw (msg : Msg) (value : U256) (s : NodeContract) : Except CallFailure NodeContract := do
  let left ← SafeMath.sub (s.balances msg.sender) value
  require (s.locked msg.sender ≤ left)
  let supply ← SafeMath.sub s.totalSupply_ msg.value
  sendEther msg value
    { s with totalSupply_ := supply, balances := Function.update s.balances msg.sender left }

/-- The fallback function. -/
def recharge (msg : Msg) (s : NodeContract) : Except CallFailure NodeContract := do
  let supply ← SafeMath.add s.totalSupply_ msg.value
  let got ← SafeMath.add (s.balances msg.sender) msg.value
  pure { s with totalSupply_ := supply, balances := Function.update s.balances msg.sender got }

/-! ## Node -/

/-- `strEqual`. -/
def strEqual (a b : Bytes) : Bool := a.length == b.length && (a.zip b).all fun x => x.1 == x.2

/-- `registerNode`. -/
def registerNode (msg : Msg) (addr : Address) (value : U256) (id property : Bytes)
    (s : NodeContract) : Except CallFailure NodeContract := do
  s.onlyOwner msg.sender
  require (id.length = 128)
  require ((s.m_nodedata id).created = false)
  let s ← lock msg addr value s
  pure { s with
    m_nodeids := s.m_nodeids ++ [id]
    m_nodedata := Function.update s.m_nodedata id ⟨property, addr, value, true⟩ }

/-- The first loop of `unregisterNode`, which stops at the id or at the end. -/
def findId (id : Bytes) : List Bytes → Nat
  | [] => 0
  | x :: xs => if strEqual id x then 0 else findId id xs + 1

/-- The second loop of `unregisterNode`, for a number of rounds from the index `i`. -/
def shiftIds (ids : List Bytes) (i : Nat) : Nat → List Bytes
  | 0 => ids
  | n + 1 => shiftIds (ids.set i (ids.getD (i + 1) [])) (i + 1) n

/-- The two loops, and the end of the array that is cut off.  In an empty array the second
loop reads past the end. -/
def removeId (id : Bytes) (ids : List Bytes) : Except CallFailure (List Bytes) :=
  if ids = [] then .error .assert
  else
    let i := findId id ids
    .ok (shiftIds ids i (ids.length - 1 - i)).dropLast

/-- `unregisterNode`. -/
def unregisterNode (msg : Msg) (id : Bytes) (s : NodeContract) :
    Except CallFailure NodeContract := do
  s.onlyOwner msg.sender
  require ((s.m_nodedata id).created = true)
  let s ← unlock msg (s.m_nodedata id).addr (s.m_nodedata id).value s
  let ids ← removeId id s.m_nodeids
  pure { s with
    m_nodeids := ids
    m_nodedata := Function.update s.m_nodedata id { s.m_nodedata id with created := false } }

/-! ## Calls -/

/-- A call of a public function that changes the state. -/
inductive Call where
  | transferOwnership (newOwner : Address)
  | transfer (target : Address) (value : U256)
  | lock (target : Address) (value : U256)
  | unlock (target : Address) (value : U256)
  | withdraw (value : U256)
  | recharge
  | registerNode (addr : Address) (value : U256) (id property : Bytes)
  | unregisterNode (id : Bytes)

/-- What a call does, after the attached ether has been received. -/
def body (msg : Msg) : Call → NodeContract → Except CallFailure NodeContract
  | .transferOwnership newOwner => transferOwnership msg newOwner
  | .transfer target value => transfer msg target value
  | .lock target value => lock msg target value
  | .unlock target value => unlock msg target value
  | .withdraw value => withdraw msg value
  | .recharge => recharge msg
  | .registerNode addr value id property => registerNode msg addr value id property
  | .unregisterNode id => unregisterNode msg id

/-- A call. -/
def run (msg : Msg) (call : Call) (s : NodeContract) : Except CallFailure NodeContract :=
  body msg call (s.receive msg)

/-- The state after a call, which is the same if it fails. -/
def apply (s : NodeContract) (x : Msg × Call) : NodeContract :=
  match run x.1 x.2 s with
  | .ok s' => s'
  | .error _ => s

/-- The contract from its deployment on. -/
def system : Lib.System NodeContract (Msg × Call) where
  init s := s = {}
  step s x := some (s.apply x)

end NodeContract

end CppSwc
