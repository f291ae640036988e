import Mathlib
import CppSwc.Core.RlpStream
import CppSwc.Lib.Run
import CppSwc.Qpos.State
import CppSwc.Sync.Chunks
import CppSwc.Sync.Request

/-!
# Downloading blocks

`BlockChainSync` asks its peers for headers and bodies, keeps them in chunks, and passes the
blocks that it puts together to the block queue.  A body finds its header by the roots in it,
and a header whose roots are those of an empty body gets that body at once.

Each function is the member function of the same name, and a round is the body of a loop over
the items of a packet.  A number is an `unsigned`.  A call ends in a `Fault` where an assertion
fails.  An exception leaves the call with what it has done so far.  The ratings of the peers,
`m_startingBlock`, which only `status` reads, and the logs are left out.
-/

namespace CppSwc

open Lib Lib.Segments

/-- `SyncState`. -/
inductive SyncState where
  | notSynced
  | idle
  | waiting
  | blocks
  | state
deriving DecidableEq

namespace BlockChainSync

/-- `BlockChainSync::Header`, a downloaded header. -/
structure Header where
  data : Rlp
  hash : H256
  parent : H256
deriving DecidableEq

/-- `HeaderId`. -/
abbrev HeaderId := CppSwc.Header

/-- `EthereumPeer`. -/
structure Peer where
  id : NodeID
  /-- `m_asking` is not `Asking::Nothing`. -/
  asking : Bool
  totalDifficulty : ℕ
  latestHash : H256
  unknownNewBlocks : ℕ

/-- What a call reads of the host. -/
structure Host where
  /-- `bq().blockStatus`. -/
  blockStatus : H256 → QueueStatus
  /-- `chain().isKnown`. -/
  isKnown : H256 → Bool
  /-- `chain().number()`. -/
  number : ℕ
  /-- `chain().currentHash()`. -/
  currentHash : H256
  /-- `chain().numberHash`. -/
  numberHash : ℕ → H256
  /-- The total difficulty of the chain and of what the queue has. -/
  difficulty : ℕ
  /-- `bq().import` of the block with a number. -/
  importBlock : ℕ → ImportResult
  /-- `bq().unknownFull()`. -/
  unknownFull : Bool
  /-- `bq().knownFull()`. -/
  knownFull : Bool
  /-- The peers in the order of `foreachPeer`. -/
  peers : List Peer
  daoHardforkBlock : ℕ

/-- What a peer is asked for. -/
inductive Ask where
  /-- The header with a hash. -/
  | header (hash : H256)
  | headers (start count : ℕ)
  | bodies (hashes : List H256)

end BlockChainSync

open BlockChainSync in
/-- `BlockChainSync`. -/
structure BlockChainSync where
  daoChallengedPeers : Finset NodeID := ∅
  state : SyncState := .idle
  chainStartBlock : ℕ
  highestBlock : ℕ := 0
  downloadingHeaders : Finset ℕ := ∅
  downloadingBodies : Finset ℕ := ∅
  headers : Chunks BlockChainSync.Header := []
  bodies : Chunks Rlp := []
  headerSyncPeers : Std.ExtTreeMap NodeID (List ℕ) := ∅
  bodySyncPeers : Std.ExtTreeMap NodeID (List ℕ) := ∅
  headerIdToNumber : Std.ExtTreeMap HeaderId ℕ := ∅
  haveCommonHeader : Bool := false
  lastImportedBlock : ℕ
  lastImportedBlockHash : H256
  syncingTotalDifficulty : ℕ := 0

namespace BlockChainSync

/-! ## Resetting -/

def resetSync (s : BlockChainSync) : BlockChainSync :=
  { s with
    downloadingHeaders := ∅
    downloadingBodies := ∅
    headers := []
    bodies := []
    headerSyncPeers := ∅
    bodySyncPeers := ∅
    headerIdToNumber := ∅
    syncingTotalDifficulty := 0
    state := .notSynced }

def restartSync (host : Host) (s : BlockChainSync) : BlockChainSync :=
  { s.resetSync with
    highestBlock := 0
    haveCommonHeader := false
    lastImportedBlock := host.number
    lastImportedBlockHash := host.currentHash }

def completeSync (s : BlockChainSync) : BlockChainSync := { s.resetSync with state := .idle }

def pauseSync (s : BlockChainSync) : BlockChainSync := { s with state := .waiting }

/-- `clearPeerDownload`. -/
def clearPeerDownload (peer : NodeID) (s : BlockChainSync) : BlockChainSync :=
  { s with
    downloadingHeaders := s.downloadingHeaders \ (s.headerSyncPeers[peer]?.getD []).toFinset
    headerSyncPeers := s.headerSyncPeers.erase peer
    downloadingBodies := s.downloadingBodies \ (s.bodySyncPeers[peer]?.getD []).toFinset
    bodySyncPeers := s.bodySyncPeers.erase peer
    daoChallengedPeers := s.daoChallengedPeers.erase peer }

/-- `onBlockImported`. -/
def onBlockImported (info : BlockHeader) (s : BlockChainSync) : BlockChainSync :=
  if s.lastImportedBlock < info.number then
    { s with
      lastImportedBlock := info.number % 2 ^ 32
      lastImportedBlockHash := info.hash
      highestBlock := max (info.number % 2 ^ 32) s.highestBlock }
  else s

/-! ## Headers -/

/-- How a round of a loop ends. -/
inductive Round where
  | goOn (s : BlockChainSync)
  /-- The call returns, or an exception leaves it. -/
  | leave (s : BlockChainSync)

/-- The state after a round. -/
def Round.state : Round → BlockChainSync
  | .goOn s => s
  | .leave s => s

/-- The block is on its way into the chain, or in it. -/
def Host.known (host : Host) (hash : H256) : Bool :=
  host.blockStatus hash == .importing || host.blockStatus hash == .ready || host.isKnown hash

/-- `blockNumber - 1` of an `unsigned`. -/
def previousNumber (n : ℕ) : ℕ := (n + (2 ^ 32 - 1)) % 2 ^ 32

/-- A header that the chain or the queue has. -/
def commonHeader (host : Host) (info : BlockHeader) (n : ℕ) (s : BlockChainSync) : Round :=
  let s := { s with
    haveCommonHeader := true, lastImportedBlock := n, lastImportedBlockHash := info.hash }
  match s.headers with
  | (first, header :: _) :: _ =>
      if first = nextNumber n ∧ header.parent ≠ info.hash then .leave (s.restartSync host) else .goOn s
  | _ => .goOn s

/-- The header below is not the parent of this one. -/
def mismatchesPrevious (info : BlockHeader) (n : ℕ) (s : BlockChainSync) : Bool :=
  (findItem s.headers (previousNumber n)).any (·.hash != info.parentHash) ||
    (n == nextNumber s.lastImportedBlock && info.parentHash != s.lastImportedBlockHash)

/-- This header is not the parent of the one above. -/
def mismatchesNext (info : BlockHeader) (n : ℕ) (s : BlockChainSync) : Bool :=
  (findItem s.headers (nextNumber n)).any (·.parent != info.hash)

/-- The following headers are cleared.  The index entry that is erased is that of the new header:
the one that is decoded from a deleted header is not used.  `none` is the exception of `at`. -/
def clearFollowing (headerId : HeaderId) (n : ℕ) (s : BlockChainSync) : Option BlockChainSync :=
  (s.headers.find? (·.1 = n)).map fun chunk =>
    let deleted := (List.range' n chunk.2.length).toFinset
    { s with
      headerIdToNumber := s.headerIdToNumber.erase headerId
      downloadingBodies := s.downloadingBodies \ deleted
      downloadingHeaders := s.downloadingHeaders \ deleted
      headers := removeAllStartingWith s.headers n
      bodies := removeAllStartingWith s.bodies n }

/-- An empty body, which `RLPStream` writes as a list of two empty lists. -/
def emptyBody : Rlp := .list [.list [], .list []]

/-- The header is merged.  A header of an empty body is marked as downloaded. -/
def storeHeader (P : Prims) (header : Header) (headerId : HeaderId) (n : ℕ) (s : BlockChainSync) :
    Except Fault BlockChainSync :=
  match mergeInto s.headers n header with
  | none => .error .assertion
  | some headers =>
      if headerId = P.emptyRoots then
        match mergeInto s.bodies n emptyBody with
        | none => .error .assertion
        | some bodies => .ok { s with headers, bodies }
      else .ok { s with headers, headerIdToNumber := s.headerIdToNumber.insert headerId n }

/-- A header that the node does not know. -/
def newHeader (P : Prims) (host : Host) (item : Rlp) (info : BlockHeader) (n : ℕ)
    (s : BlockChainSync) : Except Fault Round :=
  if s.haveCommonHeader && s.mismatchesPrevious info n then .ok (.leave (s.restartSync host))
  else
    match if s.haveCommonHeader && s.mismatchesNext info n then
        s.clearFollowing info.roots (nextNumber n) else some s with
    | none => .ok (.leave s)
    | some s => (s.storeHeader P ⟨item, info.hash, info.parentHash⟩ info.roots n).map .goOn

/-- A round of `onPeerBlockHeaders`. -/
def headerRound (P : Prims) (host : Host) (item : Rlp) (s : BlockChainSync) : Except Fault Round :=
  match BlockHeader.ofHeader P item with
  | none => .ok (.leave s)
  | some info =>
      let n := info.number % 2 ^ 32
      if n < s.chainStartBlock then .ok (.goOn s)
      else if haveItem s.headers n then .ok (.goOn s)
      else if n ≤ s.lastImportedBlock ∧ s.haveCommonHeader then .ok (.goOn s)
      else
        let s := { s with highestBlock := max s.highestBlock n }
        if host.known info.hash then .ok (s.commonHeader host info n)
        else s.newHeader P host item info n

/-! ## Bodies -/

/-- A round of `onPeerBlockBodies`. -/
def bodyRound (P : Prims) (body : Rlp) (s : BlockChainSync) : Except Fault BlockChainSync :=
  match s.headerIdToNumber[bodyRoots P body]? with
  | none => .ok s
  | some n =>
      if !haveItem s.headers n then .ok s
      else if haveItem s.bodies n then .ok s
      else
        match mergeInto s.bodies n body with
        | none => .error .assertion
        | some bodies =>
            .ok { s with bodies, headerIdToNumber := s.headerIdToNumber.erase (bodyRoots P body) }

/-! ## Handing blocks to the queue -/

/-- `RLPStream(count)`, the items with `appendRaw`, and `swapOut`. -/
def listOfRaw (count : ℕ) (items : List Rlp) : Option Bytes :=
  (RLPStream.run (.appendList count :: items.map fun item => .appendRaw item.encode 1) {}).bind
    RLPStream.out

/-- The block of a header and a body. -/
def assemble (P : Prims) (header body : Rlp) : Option Bytes :=
  listOfRaw (1 + body.itemCount) (header :: (List.range body.itemCount).map (body.item P.payload))

/-- The first chunks, if their blocks are the next ones to import. -/
def firstChunks (s : BlockChainSync) : Option (ℕ × List Header × List Rlp) :=
  match s.haveCommonHeader, s.headers, s.bodies with
  | true, (first, headers) :: _, (firstBody, bodies) :: _ =>
      if first ≠ firstBody ∨ first ≠ nextNumber s.lastImportedBlock then none
      else some (first, headers, bodies)
  | _, _, _ => none

/-- The blocks that `collectBlocks` passes to `import`, with their numbers and headers. -/
def pending (P : Prims) (s : BlockChainSync) : List (ℕ × Header × Option Bytes) :=
  match s.firstChunks with
  | none => []
  | some (first, headers, bodies) =>
      (headers.zip bodies).zipIdx.map fun ((header, body), i) =>
        (first + i, header, assemble P header.data body)

/-- The loop of `collectBlocks`. -/
def collectLoop (host : Host) :
    List (ℕ × Header × Option Bytes) → BlockChainSync → Round
  | [], s => .goOn s
  -- `swapOut` throws
  | (_, _, none) :: _, s => .leave s
  | (n, header, some _) :: blocks, s =>
      match host.importBlock n with
      | .success =>
          collectLoop host blocks <|
            if s.lastImportedBlock < n then
              { s with lastImportedBlock := n % 2 ^ 32, lastImportedBlockHash := header.hash }
            else s
      | .malformed | .badChain => .leave (s.restartSync host)
      | .futureTimeKnown | .alreadyInChain => collectLoop host blocks s
      | .alreadyKnown | .futureTimeUnknown | .unknownParent =>
          .leave (if s.lastImportedBlock < n then { s.resetSync with haveCommonHeader := false } else s)
      | .overbidGasPrice | .zeroSignature => collectLoop host blocks s

/-- A container whose first chunk loses its first numbers. -/
def dropFirst {T : Type} (i : ℕ) : Chunks T → Chunks T
  | [] => []
  | (first, chunk) :: c => if chunk.drop i = [] then c else ((first + i) % 2 ^ 32, chunk.drop i) :: c

/-- The collected blocks are removed, which completes the download if no header is left. -/
def removeCollected (i : ℕ) (s : BlockChainSync) : Except Fault BlockChainSync :=
  let s := { s with headers := dropFirst i s.headers, bodies := dropFirst i s.bodies }
  if s.headers ≠ [] then .ok s
  else if s.bodies ≠ [] then .error .assertion
  else .ok s.completeSync

/-- `collectBlocks`. -/
def collectBlocks (P : Prims) (host : Host) (s : BlockChainSync) : Except Fault BlockChainSync :=
  match s.firstChunks with
  | none => .ok s
  | some (_, headers, bodies) =>
      match collectLoop host (s.pending P) s with
      | .leave s => .ok s
      | .goOn s =>
          if host.unknownFull then .ok (s.restartSync host)
          else s.removeCollected (min headers.length bodies.length)

/-! ## Asking peers -/

/-- `c_maxRequestBodies`. -/
def c_maxRequestBodies : ℕ := 1024

/-- `c_maxRequestHeaders`. -/
def c_maxRequestHeaders : ℕ := 1024

/-- The headers of the first chunk whose bodies are neither there nor asked for. -/
def needed (s : BlockChainSync) : List (ℕ × Header) :=
  match s.haveCommonHeader, s.headers with
  | true, (first, headers) :: _ =>
      if first ≠ nextNumber s.lastImportedBlock then []
      else
        ((headers.zipIdx first).map Prod.swap |>.filter fun (block, _) =>
          block ∉ s.downloadingBodies && !haveItem s.bodies block).take c_maxRequestBodies
  | _, _ => []

/-- The inner loop over `start` and `count`. -/
def skipDownloading (downloading : Finset ℕ) : ℕ → ℕ → ℕ × ℕ
  | start, 0 => (start, 0)
  | start, count + 1 =>
      if start ∈ downloading then skipDownloading downloading (start + 1) count
      else (start, count + 1)

theorem skipDownloading_spec (downloading : Finset ℕ) (start count : ℕ) :
    (skipDownloading downloading start count).1 + (skipDownloading downloading start count).2 =
        start + count ∧
      start ≤ (skipDownloading downloading start count).1 ∧
      ((skipDownloading downloading start count).2 ≠ 0 →
        (skipDownloading downloading start count).1 ∉ downloading) := by
  induction count generalizing start with
  | zero => exact ⟨rfl, le_rfl, fun h => absurd rfl h⟩
  | succ count ih =>
      rw [skipDownloading]
      split
      · obtain ⟨hsum, hle, hnot⟩ := ih (start + 1)
        exact ⟨by omega, by omega, hnot⟩
      · rename_i hnot
        exact ⟨rfl, le_rfl, fun _ => hnot⟩

/-- The numbers in a range that are not asked for. -/
def missing (downloading : Finset ℕ) (start count : ℕ) : List ℕ :=
  (List.range' start count).filter (· ∉ downloading)

theorem missing_eq_nil_iff (downloading : Finset ℕ) (start count : ℕ) :
    missing downloading (skipDownloading downloading start count).1
        (skipDownloading downloading start count).2 = [] ↔
      (skipDownloading downloading start count).2 = 0 := by
  obtain ⟨-, -, hnot⟩ := skipDownloading_spec downloading start count
  generalize skipDownloading downloading start count = r at hnot
  rw [missing]
  constructor
  · intro hnil
    by_contra hne
    have hmem : r.1 ∈ (List.range' r.1 r.2).filter (· ∉ downloading) :=
      List.mem_filter.mpr ⟨List.mem_range'_1.mpr ⟨le_rfl, by omega⟩, decide_eq_true (hnot hne)⟩
    rw [hnil] at hmem
    cases hmem
  · intro hzero
    rw [hzero]
    rfl

/-- `start` and `count` after the inner loop, for a gap that ends at a chunk. -/
def gapStart (downloading : Finset ℕ) (start first : ℕ) : ℕ × ℕ :=
  skipDownloading downloading start (min c_maxRequestHeaders (first - start))

/-- The numbers that are asked for in a gap. -/
def gapNumbers (downloading : Finset ℕ) (start first : ℕ) : List ℕ :=
  missing downloading (gapStart downloading start first).1 (gapStart downloading start first).2

theorem gapStart_spec (downloading : Finset ℕ) (start first : ℕ) :
    (gapStart downloading start first).1 + (gapStart downloading start first).2 =
        start + min c_maxRequestHeaders (first - start) ∧
      start ≤ (gapStart downloading start first).1 ∧
      (gapNumbers downloading start first = [] ↔ (gapStart downloading start first).2 = 0) := by
  obtain ⟨hsum, hle, -⟩ := skipDownloading_spec downloading start
    (min c_maxRequestHeaders (first - start))
  exact ⟨hsum, hle, missing_eq_nil_iff ..⟩

/-- The loop that looks for a gap below one of the chunks: where it begins, and the numbers that
are asked for. -/
def askHeaders (downloading : Finset ℕ) : ℕ → Chunks Header → Option (ℕ × List ℕ)
  | _, [] => none
  | start, (first, chunk) :: next =>
      if _hnone : gapNumbers downloading start first ≠ [] then
        some ((gapStart downloading start first).1, gapNumbers downloading start first)
      else if first ≤ (gapStart downloading start first).1 then
        askHeaders downloading (first + chunk.length) next
      else askHeaders downloading (gapStart downloading start first).1 ((first, chunk) :: next)
termination_by start next => (next.length, (next.head?.map (·.1)).getD 0 - start)
decreasing_by
  · exact Prod.Lex.left _ _ (Nat.lt_succ_self _)
  · obtain ⟨hsum, -, hnil⟩ := gapStart_spec downloading start first
    have hzero := hnil.mp (not_not.mp _hnone)
    refine Prod.Lex.right _ ?_
    simp only [List.head?_cons, Option.map_some, Option.getD_some]
    rw [c_maxRequestHeaders] at hsum
    omega

/-- Where headers are asked for before a common one is known. -/
def searchStart (host : Host) (s : BlockChainSync) : BlockChainSync :=
  let start := match s.headers with
    | [] => s.lastImportedBlock
    | (first, _) :: _ => min s.lastImportedBlock (previousNumber first)
  { s with
    lastImportedBlock := start
    lastImportedBlockHash := host.numberHash start
    haveCommonHeader := decide (start ≤ nextNumber s.chainStartBlock) }

/-- The headers that `requestBlocks` asks for. -/
def requestHeaders (host : Host) (peer : NodeID) (s : BlockChainSync) :
    Except Fault (BlockChainSync × Option Ask) :=
  let s := if s.haveCommonHeader then s else s.searchStart host
  if s.haveCommonHeader then
    let start := nextNumber s.lastImportedBlock
    let r := match s.headers with
      | (first, chunk) :: next =>
          if first ≤ start then askHeaders s.downloadingHeaders (first + chunk.length) next
          else askHeaders s.downloadingHeaders start s.headers
      | [] => none
    match r with
    | none => .ok (s, none)
    | some (start, headers) =>
        if haveItem s.headers start then .error .assertion
        else
          .ok ({ s with
            downloadingHeaders := s.downloadingHeaders ∪ headers.toFinset
            headerSyncPeers := s.headerSyncPeers.insert peer headers },
            some (.headers start headers.length))
  else .ok (s, some (.headers s.lastImportedBlock 1))

/-- `requestBlocks`. -/
def requestBlocks (host : Host) (peer : NodeID) (s : BlockChainSync) :
    Except Fault (BlockChainSync × Option Ask) :=
  let s := s.clearPeerDownload peer
  if host.knownFull then .ok (s.pauseSync, none)
  else if s.needed ≠ [] then
    .ok ({ s with
      downloadingBodies := s.downloadingBodies ∪ (s.needed.map (·.1)).toFinset
      bodySyncPeers := s.bodySyncPeers.insert peer (s.needed.map (·.1)) },
      some (.bodies (s.needed.map (·.2.hash))))
  else s.requestHeaders host peer

/-- `syncPeer`. -/
def syncPeer (host : Host) (force : Bool) (s : BlockChainSync) (peer : Peer) :
    Except Fault (BlockChainSync × Option Ask) :=
  if peer.asking ∨ s.state = .waiting then .ok (s, none)
  else if force ∨ max s.syncingTotalDifficulty host.difficulty < peer.totalDifficulty then
    .ok ({ s with
      syncingTotalDifficulty := peer.totalDifficulty
      state := if s.state = .idle ∨ s.state = .notSynced then .blocks else s.state },
      some (.header peer.latestHash))
  else if s.state = .blocks then s.requestBlocks host peer.id
  else .ok (s, none)

/-- `continueSync`. -/
def continueSync (host : Host) (s : BlockChainSync) : Except Fault BlockChainSync :=
  host.peers.foldlM (fun s peer => (s.syncPeer host false peer).map Prod.fst) s

/-! ## Packets -/

/-- The extra data of the block after the fork. -/
def daoForkBlockExtra : Bytes :=
  [0x64, 0x61, 0x6f, 0x2d, 0x68, 0x61, 0x72, 0x64, 0x2d, 0x66, 0x6f, 0x72, 0x6b]

/-- `verifyDaoChallengeResponse`.  `none` is the exception for a malformed header. -/
def verifyDaoChallengeResponse (P : Prims) (host : Host) : List Rlp → Option Bool
  | [item] => (BlockHeader.ofHeader P item).map fun info =>
      info.number == host.daoHardforkBlock && info.extraData == daoForkBlockExtra
  | _ => some false

/-- The loop of `onPeerBlockHeaders`, where the host may change between the rounds. -/
def headersLoop (P : Prims) (host : ℕ → Host) :
    ℕ → List Rlp → BlockChainSync → Except Fault Round
  | _, [], s => .ok (.goOn s)
  | i, item :: items, s => do
      match ← s.headerRound P (host i) item with
      | .leave s => pure (.leave s)
      | .goOn s => headersLoop P host (i + 1) items s

/-- `onPeerBlockHeaders`. -/
def onPeerBlockHeaders (P : Prims) (host : ℕ → Host) (peer : Peer) (items : List Rlp)
    (s : BlockChainSync) : Except Fault BlockChainSync :=
  if peer.id ∈ s.daoChallengedPeers then
    match verifyDaoChallengeResponse P (host 0) items with
    | none => .ok s
    | some true => do
        let s ← (s.syncPeer (host 0) false peer).map Prod.fst
        pure { s with daoChallengedPeers := s.daoChallengedPeers.erase peer.id }
    | some false => .ok { s with daoChallengedPeers := s.daoChallengedPeers.erase peer.id }
  else
    let s := s.clearPeerDownload peer.id
    if s.state ≠ .blocks then .ok s
    else do
      match ← headersLoop P host 0 items s with
      | .leave s => pure s
      | .goOn s =>
          let s ← s.collectBlocks P (host items.length)
          s.continueSync (host (items.length + 1))

/-- `onPeerBlockBodies`. -/
def onPeerBlockBodies (P : Prims) (host : ℕ → Host) (peer : Peer) (items : List Rlp)
    (s : BlockChainSync) : Except Fault BlockChainSync :=
  let s := s.clearPeerDownload peer.id
  if s.state ≠ .blocks then .ok s
  else do
    let s ← items.foldlM (fun s body => s.bodyRound P body) s
    let s ← s.collectBlocks P (host 0)
    s.continueSync (host 1)

/-- The imported number is removed.  If no header is left the bodies are cleared. -/
def removeImported (n : ℕ) (s : BlockChainSync) : BlockChainSync :=
  let s := { s with headers := removeItem s.headers n, bodies := removeItem s.bodies n }
  if s.headers = [] then completeSync { s with bodies := [] } else s

/-- What `onPeerNewBlock` does after an import. -/
def blockImported (info : BlockHeader) (s : BlockChainSync) : BlockChainSync :=
  let n := info.number % 2 ^ 32
  let s := if s.lastImportedBlock < n then
      { s with lastImportedBlock := n, lastImportedBlockHash := info.hash } else s
  removeImported n { s with
    highestBlock := max s.lastImportedBlock s.highestBlock
    downloadingBodies := s.downloadingBodies.erase n
    downloadingHeaders := s.downloadingHeaders.erase n }

/-- `c_maxPeerUknownNewBlocks`. -/
def c_maxPeerUknownNewBlocks : ℕ := 1024

/-- What `onPeerNewBlock` does with a block that the queue cannot link. -/
def unlinkedNewBlock (P : Prims) (host : Host) (peer : Peer) (packet : Rlp) (s : BlockChainSync) :
    Except Fault BlockChainSync :=
  let s := if c_maxPeerUknownNewBlocks < peer.unknownNewBlocks + 1 then s.restartSync host else s
  match (packet.item P.payload 1).toInt 32 with
  | none => .ok s
  | some totalDifficulty =>
      if peer.totalDifficulty < totalDifficulty then (s.syncPeer host true peer).map Prod.fst
      else .ok s

/-- `onPeerNewBlock`. -/
def onPeerNewBlock (P : Prims) (host : Host) (peer : Peer) (packet : Rlp) (s : BlockChainSync) :
    Except Fault BlockChainSync :=
  if packet.itemCount ≠ 2 then .ok s
  else
    match BlockHeader.ofHeader P ((packet.item P.payload 0).item P.payload 0) with
    | none => .ok s
    | some info =>
        let n := info.number % 2 ^ 32
        if nextNumber s.lastImportedBlock < n then (s.syncPeer host true peer).map Prod.fst
        else
          match host.importBlock n with
          | .success => .ok (s.blockImported info)
          | .futureTimeUnknown | .unknownParent => s.unlinkedNewBlock P host peer packet
          | _ => .ok s

/-- `onPeerStatus`, for a peer that is not disabled.  It may be asked for the header after the fork
before it is synced. -/
def onPeerStatus (host : Host) (peer : Peer) (s : BlockChainSync) : Except Fault BlockChainSync :=
  if host.daoHardforkBlock ≠ 0 then
    .ok { s with daoChallengedPeers := insert peer.id s.daoChallengedPeers }
  else (s.syncPeer host true peer).map Prod.fst

/-- A call from outside. -/
inductive Call where
  | onPeerStatus (host : Host) (peer : Peer)
  | onPeerBlockHeaders (host : ℕ → Host) (peer : Peer) (items : List Rlp)
  | onPeerBlockBodies (host : ℕ → Host) (peer : Peer) (items : List Rlp)
  | onPeerNewBlock (host : Host) (peer : Peer) (packet : Rlp)
  | onBlockImported (info : BlockHeader)
  | requestBlocks (host : Host) (peer : NodeID)
  | collectBlocks (host : Host)
  | completeSync
  | restartSync (host : Host)

/-- One call. -/
def perform (P : Prims) (s : BlockChainSync) : Call → Except Fault BlockChainSync
  | .onPeerStatus host peer => s.onPeerStatus host peer
  | .onPeerBlockHeaders host peer items => s.onPeerBlockHeaders P host peer items
  | .onPeerBlockBodies host peer items => s.onPeerBlockBodies P host peer items
  | .onPeerNewBlock host peer packet => s.onPeerNewBlock P host peer packet
  | .onBlockImported info => .ok (s.onBlockImported info)
  | .requestBlocks host peer => (s.requestBlocks host peer).map Prod.fst
  | .collectBlocks host => s.collectBlocks P host
  | .completeSync => .ok s.completeSync
  | .restartSync host => .ok (s.restartSync host)

/-! ## Steps -/

/-- What a call does to the state, in steps: a round of a loop, or a call that has no such loop. -/
inductive Op where
  | headerRound (host : Host) (item : Rlp)
  | bodyRound (body : Rlp)
  | collectBlocks (host : Host)
  | requestBlocks (host : Host) (peer : NodeID)
  | syncPeer (host : Host) (force : Bool) (peer : Peer)
  | blockImported (info : BlockHeader)
  | clearPeerDownload (peer : NodeID)
  | onBlockImported (info : BlockHeader)
  | resetSync
  | restartSync (host : Host)
  | completeSync
  /-- `onRoomAvailable`. -/
  | roomAvailable
  /-- A peer is asked for the header after the fork. -/
  | challenge (peer : NodeID)
  | answer (peer : NodeID)

/-- One step. -/
def step (P : Prims) (s : BlockChainSync) : Op → Except Fault BlockChainSync
  | .headerRound host item => (s.headerRound P host item).map Round.state
  | .bodyRound body => s.bodyRound P body
  | .collectBlocks host => s.collectBlocks P host
  | .requestBlocks host peer => (s.requestBlocks host peer).map Prod.fst
  | .syncPeer host force peer => (s.syncPeer host force peer).map Prod.fst
  | .blockImported info => .ok (s.blockImported info)
  | .clearPeerDownload peer => .ok (s.clearPeerDownload peer)
  | .onBlockImported info => .ok (s.onBlockImported info)
  | .resetSync => .ok s.resetSync
  | .restartSync host => .ok (s.restartSync host)
  | .completeSync => .ok s.completeSync
  | .roomAvailable => .ok { s with state := .blocks }
  | .challenge peer => .ok { s with daoChallengedPeers := insert peer s.daoChallengedPeers }
  | .answer peer => .ok { s with daoChallengedPeers := s.daoChallengedPeers.erase peer }

/-- `BlockChainSync(_host)`, for a chain with a number and a hash at its head. -/
def start (chainStartBlock number : ℕ) (hash : H256) : BlockChainSync :=
  { chainStartBlock := chainStartBlock, lastImportedBlock := number, lastImportedBlockHash := hash }

/-- All runs, with any packets and any answers of the host. -/
def system (P : Prims) : System BlockChainSync Op where
  init s := ∃ chainStartBlock number hash, s = start chainStartBlock number hash
  step s op := (step P s op).toOption

end BlockChainSync

end CppSwc
