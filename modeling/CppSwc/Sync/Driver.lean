import CppSwc.Sync.Buffer

/-!
# The synchroniser

`BlockChainRequest` turns the packets of peers and the imports of the chain into
operations on the buffer.  Every handler is a sequence of these operations
(`Driven`), so what holds along all sequences of operations holds in every run of
the synchroniser.

What the handlers ask of the chain, the queue and the clock is in `Env`.  An
exception that leaves a handler is caught by the session and leaves the buffer as
it was at that point.
-/

namespace CppSwc

open Lib

namespace Request

/-- `MAX_REQUEST_COUNT`. -/
def maxRequestCount : Nat := 8

/-- What a handler reads around the buffer. -/
structure Env where
  /-- Whether the peer has a higher total difficulty than the chain. -/
  diffculty : Bool
  /-- `chain().number()`. -/
  myNumber : Nat
  /-- `utcTime` when the item with an index is handled. -/
  clock : Nat → Nat
  /-- `utcTime` when bodies are asked for. -/
  askTime : Nat
  /-- The answers up to and during `collectBlocks`. -/
  answers : Answers
  /-- The answers after it. -/
  later : Answers

/-- What the node asks a peer for. -/
inductive SyncRequest where
  | blockBodies (hashes : List H256)
  | blockHeaders (start count : Nat)

/-- The header request of `continueSync` where the lowest entry is known. -/
def requestKnown (myNumber : Nat) (r : Request) : Except Fault (Option SyncRequest) := do
  let (start, count) ← r.requestHeads
  let (start, count) :=
    if start + count < myNumber ∧ maxRequestCount * 4 < count then
      (start + count / 2, start + count - (start + count / 2))
    else (start, count)
  if 0 < start ∧ 0 < count then
    return some (.blockHeaders start (min count maxRequestCount))
  else
    return none

/-- The header request of `continueSync` where it is not. -/
def requestUnknown (myNumber : Nat) (r : Request) : Except Fault (Option SyncRequest) :=
  let start := r.underNumber
  if start = 0 then .error .assertion
  else
    let (start, count) :=
      if myNumber < start ∧ maxRequestCount < myNumber then
        (myNumber - maxRequestCount / 2, start - (myNumber - maxRequestCount / 2))
      else if 1 < start then (start / 2, start - start / 2)
      else (start, 0)
    if count = 0 then .error .assertion
    else .ok (some (.blockHeaders start (min count maxRequestCount)))

/-- `continueSync`. -/
def continueSync (P : Prims) (env : Env) (peer : NodeID) (r : Request) :
    Except Fault (Request × Option SyncRequest) := do
  let r ← r.collectBlocks P env.answers
  if r.blocks.isEmpty ∨ peer ≠ r.id 0 then return (r, none)
  else if env.later.knowHash r.underHash then
    let (r, bodys) := r.requestBodys maxRequestCount env.askTime
    if bodys ≠ [] then return (r, some (.blockBodies bodys))
    else
      let ask ← r.requestKnown env.myNumber
      return (r, ask)
  else
    let ask ← r.requestUnknown env.myNumber
    return (r, ask)

/-- The loop of `onPeerBlockHeaders` over the items from an index on.  It gives
the highest known number with its item, or `none` if a header does not decode. -/
def headersLoop (P : Prims) (env : Env) (peer : NodeID) :
    Nat → List Rlp → Nat × Rlp → Request → Except Fault (Request × Option (Nat × Rlp))
  | _, [], found, r => .ok (r, some found)
  | i, item :: items, found, r =>
      match BlockHeader.ofHeader P item with
      | none => .ok (r, none)
      | some info =>
          let blockNumber := info.number % 2 ^ 32
          if r.haveItem blockNumber ∧ r.id blockNumber = r.id 0 then
            headersLoop P env peer (i + 1) items found r
          else do
            let r ←
              if !r.blocks.isEmpty ∨ env.diffculty ∨ env.myNumber < blockNumber then
                r.insertHead P (env.clock i) peer item
              else pure r
            let found :=
              if env.answers.knowHash info.hash ∧ found.1 < blockNumber then (blockNumber, item)
              else found
            headersLoop P env peer (i + 1) items found r

/-- What `onPeerBlockHeaders` does with the highest known header of the packet. -/
def insertKnown (P : Prims) (env : Env) (now : Nat) (peer : NodeID) (found : Nat × Rlp)
    (r : Request) : Except Fault Request :=
  if r.underNumber < found.1 ∨ (!env.answers.knowHash r.underHash ∧ 0 < found.1) then
    (if r.underNumber < found.1 then r.removeUnder P found.1 else r).insertHead P now peer found.2
  else .ok r

/-- `onPeerBlockHeaders`. -/
def onPeerBlockHeaders (P : Prims) (env : Env) (peer : NodeID) (items : List Rlp) (r : Request) :
    Except Fault (Request × Option SyncRequest) := do
  match ← headersLoop P env peer 0 items (0, .null) r with
  | (r, none) => return (r, none)
  | (r, some found) =>
      let r ← r.insertKnown P env (env.clock items.length) peer found
      r.continueSync P env peer

/-- `onPeerNewBlock`, where `result` is what `bq().import` gives and `none` its
exception. -/
def onPeerNewBlock (P : Prims) (env : Env) (peer : NodeID) (result : Option ImportResult)
    (packet : Rlp) (r : Request) : Except Fault (Request × Option SyncRequest) :=
  let block := packet.item P.payload 0
  if packet.itemCount ≠ 2 then .ok (r, none)
  else
    match BlockHeader.ofHeader P (block.item P.payload 0) with
    | none => .ok (r, none)
    | some info =>
        if result = some .futureTimeUnknown ∨ result = some .unknownParent then
          if !r.blocks.isEmpty then (r.insertBlock P (env.clock 0) peer block).map (·, none)
          else if env.diffculty ∨ env.myNumber < info.number % 2 ^ 32 then do
            let r ← r.insertBlock P (env.clock 0) peer block
            r.continueSync P env peer
          else .ok (r, none)
        else .ok (r, none)

/-- `onPeerBlockBodies`. -/
def onPeerBlockBodies (P : Prims) (env : Env) (peer : NodeID) (items : List Rlp) (r : Request) :
    Except Fault (Request × Option SyncRequest) := do
  let r ← items.foldlM (fun r body => r.insertBody P body) r
  r.continueSync P env peer

/-- `onBlockImported`. -/
def onBlockImported (P : Prims) (info : BlockHeader) (r : Request) : Request :=
  let number := info.number % 2 ^ 32
  if (r.upNumber + 20) % 2 ^ 32 < number then r.clear
  else if info.hash ≠ r.hash number then r
  else r.removeUnder P number

/-- What makes the synchroniser act. -/
inductive Event where
  | peerBlockHeaders (env : Env) (peer : NodeID) (items : List Rlp)
  | peerNewBlock (env : Env) (peer : NodeID) (result : Option ImportResult) (packet : Rlp)
  | peerBlockBodies (env : Env) (peer : NodeID) (items : List Rlp)
  | blockImported (info : BlockHeader)

/-- The buffer after an event. -/
def onEvent (P : Prims) (r : Request) : Event → Except Fault Request
  | .peerBlockHeaders env peer items => (r.onPeerBlockHeaders P env peer items).map Prod.fst
  | .peerNewBlock env peer result packet => (r.onPeerNewBlock P env peer result packet).map Prod.fst
  | .peerBlockBodies env peer items => (r.onPeerBlockBodies P env peer items).map Prod.fst
  | .blockImported info => .ok (r.onBlockImported P info)

/-! ## Handlers are sequences of operations -/

/-- A sequence of operations leads from one buffer to the other. -/
def Driven (P : Prims) (r r' : Request) : Prop := ∃ ops : List Op, ops.foldlM (step P) r = .ok r'

section Driven

variable {P : Prims} {env : Env} {peer : NodeID} {r r' r'' : Request} {ask : Option SyncRequest}

/-- A computation that succeeds in two parts. -/
theorem bind_eq_ok {α β : Type} {x : Except Fault α} {f : α → Except Fault β} {b : β}
    (h : x >>= f = .ok b) : ∃ a, x = .ok a ∧ f a = .ok b := by
  cases x with
  | error fault => cases h
  | ok a => exact ⟨a, rfl, h⟩

theorem map_fst_eq_ok {α β : Type} {x : Except Fault (α × β)} {a : α}
    (h : x.map Prod.fst = .ok a) : ∃ b, x = .ok (a, b) := by
  cases x with
  | error fault => cases h
  | ok p =>
      cases h
      exact ⟨p.2, rfl⟩

/-- A computation that evaluates to something with a property. -/
theorem exists_ok {α : Type} {x : Except Fault α} {p : α → Bool} (h : x.toOption.any p = true) :
    ∃ a, x = .ok a ∧ p a = true := by
  cases x with
  | error fault => cases h
  | ok a => exact ⟨a, rfl, h⟩

theorem Driven.refl : Driven P r r := ⟨[], rfl⟩

theorem Driven.op (op : Op) (h : step P r op = .ok r') : Driven P r r' := by
  refine ⟨[op], ?_⟩
  rw [List.foldlM_cons, h]
  rfl

theorem Driven.trans (h : Driven P r r') (h' : Driven P r' r'') : Driven P r r'' := by
  obtain ⟨ops, hops⟩ := h
  obtain ⟨ops', hops'⟩ := h'
  refine ⟨ops ++ ops', ?_⟩
  rw [List.foldlM_append, hops]
  exact hops'

/-- What a handler leads to is reached by operations. -/
theorem Driven.reach (h : Driven P r r') (hr : (system P).Reach (fun _ _ => True) r) :
    (system P).Reach (fun _ _ => True) r' := by
  obtain ⟨ops, hops⟩ := h
  induction ops generalizing r with
  | nil =>
      cases hops
      exact hr
  | cons op ops ih =>
      obtain ⟨r₁, hop, hops⟩ := bind_eq_ok hops
      have hstep : (system P).step r op = some r₁ := by
        simp [system, hop, Except.toOption]
      exact ih (hr.step trivial hstep) hops

theorem driven_continueSync (h : r.continueSync P env peer = .ok (r', ask)) : Driven P r r' := by
  obtain ⟨r₁, hcollect, h⟩ := bind_eq_ok h
  have h₁ : Driven P r r₁ := .op (.collectBlocks env.answers) hcollect
  split at h
  · cases h
    exact h₁
  · split at h
    · have h₂ : Driven P r₁ (r₁.requestBodys maxRequestCount env.askTime).1 :=
        .op (.requestBodys maxRequestCount env.askTime) rfl
      dsimp only at h
      split at h
      · cases h
        exact h₁.trans h₂
      · obtain ⟨ask', -, h⟩ := bind_eq_ok h
        cases h
        exact h₁.trans h₂
    · obtain ⟨ask', -, h⟩ := bind_eq_ok h
      cases h
      exact h₁

theorem driven_headersLoop {items : List Rlp} {i : Nat} {found : Nat × Rlp}
    {found' : Option (Nat × Rlp)}
    (h : headersLoop P env peer i items found r = .ok (r', found')) : Driven P r r' := by
  induction items generalizing i found r with
  | nil =>
      cases h
      exact .refl
  | cons item items ih =>
      unfold headersLoop at h
      split at h
      · cases h
        exact .refl
      · dsimp only at h
        split at h
        · exact ih h
        · split at h
          · obtain ⟨r₁, hinsert, h⟩ := bind_eq_ok h
            exact (Driven.op (.insertHead (env.clock i) peer item) hinsert).trans
              (ih h)
          · obtain ⟨r₁, hsame, h⟩ := bind_eq_ok h
            cases hsame
            exact ih h

theorem driven_insertKnown {now : Nat} {found : Nat × Rlp}
    (h : r.insertKnown P env now peer found = .ok r') : Driven P r r' := by
  simp only [insertKnown] at h
  split at h
  · refine Driven.trans ?_ (.op (.insertHead now peer found.2) h)
    split
    · exact .op (.removeUnder found.1) rfl
    · exact .refl
  · cases h
    exact .refl

/-- A packet of headers is handled by operations on the buffer. -/
theorem driven_onPeerBlockHeaders {items : List Rlp}
    (h : r.onPeerBlockHeaders P env peer items = .ok (r', ask)) : Driven P r r' := by
  obtain ⟨⟨r₁, found⟩, hloop, h⟩ := bind_eq_ok h
  have h₁ := driven_headersLoop hloop
  cases found with
  | none =>
      cases h
      exact h₁
  | some found =>
      obtain ⟨r₂, hknown, h⟩ := bind_eq_ok h
      exact (h₁.trans (driven_insertKnown hknown)).trans (driven_continueSync h)

/-- So is a new block. -/
theorem driven_onPeerNewBlock {result : Option ImportResult} {packet : Rlp}
    (h : r.onPeerNewBlock P env peer result packet = .ok (r', ask)) : Driven P r r' := by
  have hinsert : ∀ {r₁}, r.insertBlock P (env.clock 0) peer (packet.item P.payload 0) = .ok r₁ →
      Driven P r r₁ := fun h =>
    .op (.insertBlock (env.clock 0) peer (packet.item P.payload 0)) h
  simp only [onPeerNewBlock] at h
  split at h
  · cases h
    exact .refl
  · split at h
    · cases h
      exact .refl
    · split at h
      · split at h
        · cases hblock : r.insertBlock P (env.clock 0) peer (packet.item P.payload 0) with
          | error fault =>
              rw [hblock] at h
              cases h
          | ok r₁ =>
              rw [hblock] at h
              cases h
              exact hinsert hblock
        · split at h
          · obtain ⟨r₁, hblock, h⟩ := bind_eq_ok h
            exact (hinsert hblock).trans (driven_continueSync h)
          · cases h
            exact .refl
      · cases h
        exact .refl

theorem driven_foldlM_insertBody {items : List Rlp}
    (h : items.foldlM (fun r body => r.insertBody P body) r = .ok r') : Driven P r r' := by
  refine ⟨items.map .insertBody, ?_⟩
  rw [List.foldlM_map]
  exact h

/-- So is a packet of bodies. -/
theorem driven_onPeerBlockBodies {items : List Rlp}
    (h : r.onPeerBlockBodies P env peer items = .ok (r', ask)) : Driven P r r' := by
  obtain ⟨r₁, hbodies, h⟩ := bind_eq_ok h
  exact (driven_foldlM_insertBody hbodies).trans (driven_continueSync h)

/-- So is an import. -/
theorem driven_onBlockImported {info : BlockHeader} : Driven P r (r.onBlockImported P info) := by
  simp only [onBlockImported]
  split
  · exact .op .clear rfl
  · split
    · exact .refl
    · exact .op (.removeUnder (info.number % 2 ^ 32)) rfl

theorem driven_onEvent {event : Event} (h : r.onEvent P event = .ok r') : Driven P r r' := by
  cases event with
  | peerBlockHeaders env peer items =>
      obtain ⟨ask, h⟩ := map_fst_eq_ok h
      exact driven_onPeerBlockHeaders h
  | peerNewBlock env peer result packet =>
      obtain ⟨ask, h⟩ := map_fst_eq_ok h
      exact driven_onPeerNewBlock h
  | peerBlockBodies env peer items =>
      obtain ⟨ask, h⟩ := map_fst_eq_ok h
      exact driven_onPeerBlockBodies h
  | blockImported info =>
      cases h
      exact driven_onBlockImported

/-- Every run of the synchroniser is a run of the buffer. -/
theorem reach_of_events {events : List Event} (h : events.foldlM (onEvent P) r = .ok r')
    (hr : (system P).Reach (fun _ _ => True) r) : (system P).Reach (fun _ _ => True) r' := by
  induction events generalizing r with
  | nil =>
      cases h
      exact hr
  | cons event events ih =>
      obtain ⟨r₁, hevent, h⟩ := bind_eq_ok h
      exact ih h ((driven_onEvent hevent).reach hr)

end Driven

/-! ## Packets to evaluate on -/

/-- A header with its parent and the number of its transactions. -/
def sampleHead (number timestamp : Nat) (parent : H256) (txs : Nat) : Rlp :=
  { BlockHeader.sample number timestamp with
    parentHash := parent
    transactionsRoot := Prims.sample.trieRootOver (List.replicate txs .null) }.rlpWithoutSeal

/-- A body with a number of transactions. -/
def sampleBody (txs : Nat) : Rlp := .list [.list (List.replicate txs (.data [7])), .list []]

/-- The packet with a new block, and a total difficulty nobody reads. -/
def sampleNewBlock (number timestamp txs : Nat) : Rlp :=
  .list [.list [sampleHead number timestamp 0 txs, .list (List.replicate txs (.data [7])), .list []],
    .ofInt 1]

/-- A node that knows nothing above its genesis block, at a time. -/
def sampleEnv (now : Nat) : Env :=
  let answers : Answers := {
    isKnown := fun _ => false
    blockStatus := fun _ => .unknown
    importBlock := fun _ => some .unknownParent
    statusAfter := fun _ => .unknownParent }
  { diffculty := true, myNumber := 0, clock := (now + ·), askTime := now, answers, later := answers }

end Request

end CppSwc
