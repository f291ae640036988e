import Std.Data.ExtTreeMap
import Std.Data.ExtTreeSet
import CppSwc.Core.BlockHeader

/-!
# The state of a QPOS node

The fields of class `Qpos`, the six packets nodes exchange, and what a handler
does to the outside.  Times are the microseconds of `utcTime`, and every handler
is given the clock reading it sees.

A packet is modelled after its fields are read.  `RLPStream::append(unsigned)` is
what an `int64_t` view or block number goes through, so a packet carries them
modulo `2 ^ 32`, and `toInt()` of the receiver reads an `unsigned` back.
-/

namespace CppSwc

/-- Public keys are ordered. -/
instance : Std.TransOrd NodeID := inferInstance

instance : Std.LawfulEqOrd NodeID := inferInstance

/-- `std::set<NodeID>`. -/
abbrev NodeSet := Std.ExtTreeSet NodeID

/-- `std::map<NodeID, Signature>`. -/
abbrev SignMap := Std.ExtTreeMap NodeID Signature

/-- `TIME_PER_SECOND`. -/
def timePerSecond : Int := 1000000

/-- `QPOS_VOTE_TIMEOUT`. -/
def qposVoteTimeout : Int := 10 * timePerSecond

/-- `QPOS_HEART_TIMEOUT`. -/
def qposHeartTimeout : Int := 2 * timePerSecond

/-- `m_consensusTimeInterval`, which is never changed. -/
def consensusTimeInterval : Int := 20 * timePerSecond

/-- `enum qposState`. -/
inductive QposState where
  | initial
  | waitingVote
  | finished
deriving DecidableEq, Repr

/-- The packets of `enum QposPacketType`, with their fields. -/
inductive QposPacket where
  | blockVote (currentView : UInt32) (sign : Signature) (block : Rlp)
  | blockVoteAck (vote : Bool) (currentView : UInt32) (sign : Signature) (idrecv : NodeID)
  | vote (currentView : UInt32) (blockNumber : UInt32)
  | voteAck (vote : Bool)
  | heart (currentView : UInt32)
  | broadBlock (block : Rlp)

/-- What a handler does outside the node's own fields. -/
inductive Effect where
  /-- `sign` on the header's `hash(WithoutSeal)`. -/
  | sign (header : BlockHeader)
  /-- `multicast` to the connected peers in a set. -/
  | multicast (ids : NodeSet) (packet : QposPacket)
  /-- `broadcast` to every connected peer. -/
  | broadcast (packet : QposPacket)
  /-- `m_onSealGenerated`. -/
  | sealGenerated (block : Rlp) (isOurs : Bool)

/-- The fields of `Qpos`, and those of `QposSealEngine` that `getNodes` reads. -/
structure Qpos where
  blockReport : Nat := 0
  blockNumber : Nat := 0
  blockNumberRecv : Nat := 0
  miners : NodeSet := ∅
  blockBytes : Rlp := .null
  currentView : Nat := 0
  consensusTimeOut : Int := -1
  idUnVoted : NodeSet := ∅
  idVoted : SignMap := ∅
  consensusState : QposState := .finished
  lastConsensusTime : Int := 0
  blocks : List Rlp := []
  voteTimeOut : Int := 0
  voted : NodeSet := ∅
  isLeader : Bool := false
  nodes : NodeSet := ∅
  nodesChanged : Bool := true
  /-- The process has ended on a failed assertion. -/
  aborted : Bool := false

/-- What makes a node act. -/
inductive Input where
  /-- The timer, or `QPOS_SIGNAL`. -/
  | tick (now : Int)
  /-- A packet from a peer.  `rand` is the value `rand()` gives. -/
  | interpret (src : NodeID) (packet : QposPacket) (now : Int) (rand : Nat)
  /-- `reportBlock`, called when the chain has changed. -/
  | reportBlock (blockNumber : UInt32) (force : Bool)
  /-- `QPOS_SIGNAL_REPORT`. -/
  | reportBlockSelf (now : Int)
  /-- A block from the client to be sealed. -/
  | generateSeal (block : Rlp)
  /-- `getMinerList()` finds that the registered nodes have changed. -/
  | getMinerList (nodes : NodeSet)

/-- A node that has loaded its miner list and done nothing yet. -/
def Qpos.start (miners : NodeSet) : Qpos :=
  { miners := miners, nodes := miners, nodesChanged := false }

end CppSwc
