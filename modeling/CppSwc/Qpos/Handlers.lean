import CppSwc.Qpos.State

/-!
# The QPOS handlers

Each function below is the member function of `Qpos` of the same name, from the
state before it to the state after it and the effects in their order.  `self` is
`id()`.

Exceptions.  `interpret` and `voteBlockEnd` catch everything, and so does the
network thread around `tick`.  In every handler the only call that throws is the
decoding of a block, and it comes before the first write, so a throw leaves the
state alone.  Assertions.  `broadBlock` asserts that the node leads.  A failure
ends the process, which is the field `aborted`.
-/

namespace CppSwc

namespace Qpos

/-! ## Certificates -/

/-- One entry of the signature list of a block. -/
def signItem (entry : NodeID × Signature) : Rlp :=
  .list [.ofHash 64 entry.1, .ofHash 65 entry.2]

/-- `toPair` with the flags `LaissezFaire`.  It throws unless given a list, and a
list of another length than two gives the default pair. -/
def toSign : Rlp → Option (NodeID × Signature)
  | .list [id, sig] => some (id.toHashLax 64, sig.toHashLax 65)
  | .list _ => some (0, 0)
  | _ => none

/-- `toVector` of such pairs.  Anything but a list gives no pairs. -/
def toSigns (r : Rlp) : Option (List (NodeID × Signature)) := r.items.mapM toSign

/-- The signature list of a block, `b[3][1]`. -/
def signList (P : Prims) (block : Rlp) : Option (List (NodeID × Signature)) :=
  toSigns ((block.item P.payload 3).item P.payload 1)

/-- The loop of `checkBlockSign` over the signature list.  `signs` are the
miners whose signature has been counted. -/
def countSigns (P : Prims) (minerList : NodeSet) (hash : H256) :
    List (NodeID × Signature) → NodeSet → Bool
  | [], _ => false
  | item :: rest, signs =>
      if !minerList.contains item.1 || !P.verify item.1 item.2 hash then
        countSigns P minerList hash rest signs
      else if (minerList.size + 1) / 2 ≤ (signs.insert item.1).size then
        true
      else
        countSigns P minerList hash rest (signs.insert item.1)

/-- `checkBlockSign`, where `minerList` is what `getMinerList` reads for the
parent of the block.  A throw while the list is converted is a rejection. -/
def checkBlockSign (P : Prims) (minerList : NodeSet) (header : BlockHeader) (block : Rlp) :
    Bool :=
  if minerList.size = 0 then true
  else if !block.isList || block.itemCount < 4 then false
  else
    match signList P block with
    | none => false
    | some signs => countSigns P minerList (header.hashWithoutSeal P) signs ∅

/-- The block `voteBlockEnd` assembles from `m_blockBytes` and `m_idVoted`. -/
def sealBlock (P : Prims) (self : NodeID) (s : Qpos) : Rlp :=
  .list [s.blockBytes.item P.payload 0, s.blockBytes.item P.payload 1,
    s.blockBytes.item P.payload 2,
    .list [.ofHash 64 self, .list (s.idVoted.toList.map signItem)]]

/-! ## Voting on a block -/

/-- `nodeCount`. -/
def nodeCount (s : Qpos) : Nat := s.miners.size

/-- A view or a block number as `RLPStream` writes it. -/
def wire (n : Nat) : UInt32 := UInt32.ofNat n

/-- `QposSealEngine::send`. -/
def send (id : NodeID) (packet : QposPacket) : Effect :=
  .multicast ((∅ : NodeSet).insert id) packet

/-- `resetConfig`. -/
def resetConfig (now : Int) (s : Qpos) : Qpos :=
  { s with
    blockBytes := .null
    consensusTimeOut := 0
    idVoted := ∅
    idUnVoted := ∅
    lastConsensusTime := now
    consensusState := .initial }

/-- `broadBlock`. -/
def broadBlock (block : Rlp) (s : Qpos) : Qpos × List Effect :=
  if s.isLeader then
    ({ s with consensusState := .finished },
      (if block.isNull then [] else [.broadcast (.broadBlock block)]) ++
        [.sealGenerated block true])
  else
    ({ s with aborted := true }, [])

/-- `voteBlockEnd`. -/
def voteBlockEnd (P : Prims) (self : NodeID) (now : Int) (s : Qpos) : Qpos × List Effect :=
  if s.nodeCount ≠ 0 ∧ (s.nodeCount + 1) / 2 ≤ s.idUnVoted.size then
    (s.resetConfig now, [])
  else if s.nodeCount = 0 ∨ s.nodeCount / 2 < s.idVoted.size then
    match BlockHeader.ofBlock P s.blockBytes with
    | none => (s, [])
    | some _ => s.broadBlock (sealBlock P self s)
  else
    (s, [])

/-- `voteBlockBegin`. -/
def voteBlockBegin (P : Prims) (self : NodeID) (now : Int) (s : Qpos) : Qpos × List Effect :=
  match BlockHeader.ofBlock P s.blockBytes with
  | none => (s, [])
  | some header =>
      let mySign := P.sign self (header.hashWithoutSeal P)
      let s := { s with
        idVoted := s.idVoted.insert self mySign
        consensusTimeOut := now + consensusTimeInterval
        consensusState := .waitingVote }
      if s.miners.size ≤ 1 then
        let (s, out) := s.voteBlockEnd P self now
        (s, .sign header :: out)
      else
        ({ s with voteTimeOut := now + qposHeartTimeout },
          [.sign header,
            .multicast s.miners (.blockVote (wire s.currentView) mySign s.blockBytes)])

/-- `generateSealBegin`. -/
def generateSealBegin (P : Prims) (self : NodeID) (now : Int) (block : Rlp) (s : Qpos) :
    Qpos × List Effect :=
  match BlockHeader.ofBlock P block with
  | none => (s, [])
  | some header =>
      if s.blockNumber + 1 ≠ header.number then (s, [])
      else { s with blockBytes := block }.voteBlockBegin P self now

/-- The condition under which `onBlockVote` votes yes. -/
def accepts (P : Prims) (s : Qpos) (src : NodeID) (currentView : UInt32) (mySign : Signature)
    (header : BlockHeader) : Bool :=
  P.verify src mySign (header.hashWithoutSeal P) && s.blockNumber + 1 == header.number &&
    currentView.toNat == s.currentView

/-- `onBlockVote`. -/
def onBlockVote (P : Prims) (self : NodeID) (now : Int) (src : NodeID) (currentView : UInt32)
    (mySign : Signature) (block : Rlp) (s : Qpos) : Qpos × List Effect :=
  match BlockHeader.ofBlock P block with
  | none => (s, [])
  | some header =>
      let vote := s.accepts P src currentView mySign header
      let ackSign := P.sign self (header.hashWithoutSeal P)
      let s :=
        if vote then
          { s with
            idVoted := ((∅ : SignMap).insert src mySign).insert self ackSign
            idUnVoted := ∅
            consensusTimeOut := now + consensusTimeInterval
            blockBytes := block }
        else s
      ({ s with voteTimeOut := now + qposVoteTimeout },
        [.sign header, send src (.blockVoteAck vote (wire s.currentView) ackSign src)])

/-- `onBlockVoteAck`. -/
def onBlockVoteAck (P : Prims) (self : NodeID) (now : Int) (src : NodeID) (vote : Bool)
    (currentView : UInt32) (mySign : Signature) (s : Qpos) : Qpos × List Effect :=
  if s.consensusState ≠ .waitingVote then (s, [])
  else
    match BlockHeader.ofBlock P s.blockBytes with
    | none => (s, [])
    | some header =>
        if !P.verify src mySign (header.hashWithoutSeal P) ∨
            currentView.toNat ≠ s.currentView then (s, [])
        else
          let s :=
            if vote then { s with idVoted := s.idVoted.insert src mySign }
            else { s with idUnVoted := s.idUnVoted.insert src }
          s.voteBlockEnd P self now

/-- `onBroadBlock`. -/
def onBroadBlock (P : Prims) (block : Rlp) (s : Qpos) : Qpos × List Effect :=
  match BlockHeader.ofBlock P block with
  | none => (s, [])
  | some header =>
      (if s.blockNumber < header.number then { s with blockNumber := header.number } else s,
        [.sealGenerated block false])

/-! ## Electing a leader -/

/-- `voteTick`. -/
def voteTick (now : Int) (s : Qpos) : Qpos × List Effect :=
  if now < s.voteTimeOut then (s, [])
  else if s.isLeader then
    ({ s with voteTimeOut := now + qposHeartTimeout },
      [.multicast s.miners (.heart (wire s.currentView))])
  else
    ({ s with
        voteTimeOut := now + qposVoteTimeout
        currentView := s.currentView + 1
        voted := ∅ },
      [.multicast s.miners (.vote (wire (s.currentView + 1)) (wire s.blockNumber))])

/-- `onHeart`. -/
def onHeart (self : NodeID) (now : Int) (src : NodeID) (currentView : UInt32) (s : Qpos) :
    Qpos × List Effect :=
  ({ s with
      isLeader := s.isLeader &&
        !(decide (s.currentView < currentView.toNat) ||
          decide (currentView.toNat = s.currentView) && decide (self < src))
      currentView := currentView.toNat
      voteTimeOut := now + qposVoteTimeout },
    [])

/-- `onVote`. -/
def onVote (now : Int) (rand : Nat) (src : NodeID) (currentView blockNumberRecv : UInt32)
    (s : Qpos) : Qpos × List Effect :=
  let vote := decide (s.currentView < currentView.toNat)
  let s := { s with blockNumberRecv := max s.blockNumberRecv blockNumberRecv.toNat }
  let s :=
    if s.currentView < currentView.toNat ∧ s.blockNumber ≤ s.blockNumberRecv then
      { s with
        currentView := currentView.toNat
        voteTimeOut := now + qposVoteTimeout + (rand : Int) % qposHeartTimeout }
    else s
  (s, [send src (.voteAck vote)])

/-- `onVoteAck`. -/
def onVoteAck (src : NodeID) (vote : Bool) (s : Qpos) : Qpos × List Effect :=
  if !vote then (s, [])
  else
    let s := { s with voted := s.voted.insert src }
    (if s.nodeCount / 2 < 1 + s.voted.size then { s with isLeader := true } else s, [])

/-! ## The timer, the chain and the network -/

/-- `tick`. -/
def tick (P : Prims) (self : NodeID) (now : Int) (s : Qpos) : Qpos × List Effect :=
  let (s, heart) := s.voteTick now
  if !s.isLeader then (s, heart)
  else if s.consensusState = .initial then
    match s.blocks with
    | [] => (s, heart)
    | block :: blocks =>
        let s := { s with blocks := blocks }
        if block.isNull then (s, heart)
        else
          let (s, out) := s.generateSealBegin P self now block
          (s, heart ++ out)
  else if s.consensusTimeOut < now then (s.resetConfig now, heart)
  else (s, heart)

/-- `reportBlock`. -/
def reportBlock (blockNumber : UInt32) (force : Bool) (s : Qpos) : Qpos :=
  if s.blockReport < blockNumber.toNat ∨ force then
    { s with blockReport := blockNumber.toNat }
  else s

/-- `reportBlockSelf`. -/
def reportBlockSelf (self : NodeID) (now : Int) (s : Qpos) : Qpos :=
  let s := { s with blockNumber := s.blockReport, blockNumberRecv := s.blockReport }
  let s := if s.nodesChanged then { s with miners := s.nodes, nodesChanged := false } else s
  let s :=
    if s.miners.isEmpty ∨ (s.miners.size = 1 ∧ self ∈ s.miners) then { s with isLeader := true }
    else if self ∉ s.miners ∧ s.isLeader then { s with isLeader := false }
    else s
  s.resetConfig now

/-- `interpret`.  Only packets of miners are handled. -/
def interpret (P : Prims) (self : NodeID) (src : NodeID) (packet : QposPacket) (now : Int)
    (rand : Nat) (s : Qpos) : Qpos × List Effect :=
  if src ∉ s.miners then (s, [])
  else
    match packet with
    | .blockVote view sig block => s.onBlockVote P self now src view sig block
    | .blockVoteAck vote view sig _ => s.onBlockVoteAck P self now src vote view sig
    | .vote view number => s.onVote now rand src view number
    | .voteAck vote => s.onVoteAck src vote
    | .heart view => s.onHeart self now src view
    | .broadBlock block => s.onBroadBlock P block

/-- One input to a node. -/
def handle (P : Prims) (self : NodeID) (s : Qpos) (input : Input) : Qpos × List Effect :=
  if s.aborted then (s, [])
  else
    match input with
    | .tick now => s.tick P self now
    | .interpret src packet now rand => s.interpret P self src packet now rand
    | .reportBlock number force => (s.reportBlock number force, [])
    | .reportBlockSelf now => (s.reportBlockSelf self now, [])
    | .generateSeal block => ({ s with blocks := s.blocks ++ [block] }, [])
    | .getMinerList nodes => ({ s with nodes := nodes, nodesChanged := true }, [])

end Qpos

end CppSwc
