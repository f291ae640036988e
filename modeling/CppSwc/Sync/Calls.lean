import CppSwc.Sync.Driver

/-!
# Calls of the synchroniser

The handlers of `BlockChainRequest` act on the buffer through a few calls.
`Performs` lists those that can fail, with the buffer each of them finds.  A handler
crashes exactly if one of its calls does.

`collectBlocks` moves its iterator past the genesis entry and past a first entry
without body, and reads through it before it looks for the end.  The model goes on
with an empty list there, and `readsEnd` records the access.
-/

namespace CppSwc

open Lib

namespace Request

/-! ## Calls -/

/-- What `continueSync` asks for once the blocks are collected. -/
def askPeer (env : Env) (r : Request) : Except Fault (Request × Option SyncRequest) :=
  if env.later.knowHash r.underHash then do
    let (r, bodys) := r.requestBodys maxRequestCount env.askTime
    if bodys ≠ [] then return (r, some (.blockBodies bodys))
    else
      let ask ← r.requestKnown env.myNumber
      return (r, ask)
  else do
    let ask ← r.requestUnknown env.myNumber
    return (r, ask)

/-- A call that can fail: an operation on the buffer, or the end of
`continueSync`. -/
inductive Call where
  | op (action : Op)
  | ask (env : Env)

/-- `collectBlocks` reads the body or the number of an entry at the end of the map. -/
def readsEnd (P : Prims) (a : Answers) (r : Request) : Bool :=
  let r := r.clearNeedless P a
  !r.blocks.isEmpty && (collectStart r.blocks.toList).all (·.isEmpty)

/-- The call fails an assertion or reads through an iterator at the end. -/
def Call.Crashes (P : Prims) (r : Request) : Call → Prop
  | .op action => (∃ fault, step P r action = .error fault) ∨
      ∃ a, action = .collectBlocks a ∧ readsEnd P a r = true
  | .ask env => ∃ fault, r.askPeer env = .error fault

/-- `onPeerBlockHeaders` wants the header. -/
def takesHead (env : Env) (r : Request) (info : BlockHeader) : Prop :=
  let blockNumber := info.number % 2 ^ 32
  ¬ (r.haveItem blockNumber ∧ r.id blockNumber = r.id 0) ∧
    (!r.blocks.isEmpty ∨ env.diffculty ∨ env.myNumber < blockNumber)

/-- `onPeerBlockHeaders` inserts the highest known header of the packet. -/
def takesKnown (env : Env) (r : Request) (found : Nat × Rlp) : Prop :=
  r.underNumber < found.1 ∨ (!env.answers.knowHash r.underHash ∧ 0 < found.1)

/-- `onPeerNewBlock` keeps the block for later. -/
def takesBlock (P : Prims) (env : Env) (result : Option ImportResult) (packet : Rlp)
    (r : Request) : Prop :=
  packet.itemCount = 2 ∧
    (result = some .futureTimeUnknown ∨ result = some .unknownParent) ∧
    ∃ info, BlockHeader.ofHeader P ((packet.item P.payload 0).item P.payload 0) = some info ∧
      (!r.blocks.isEmpty ∨ env.diffculty ∨ env.myNumber < info.number % 2 ^ 32)

/-- The handler of the event gets to `continueSync`, with the buffer it has then. -/
inductive Continues (P : Prims) (r : Request) : Event → Env → NodeID → Request → Prop where
  | headers {env : Env} {peer : NodeID} {items : List Rlp} {found : Nat × Rlp} {r₁ r₂ : Request} :
      headersLoop P env peer 0 items (0, .null) r = .ok (r₁, some found) →
      r₁.insertKnown P env (env.clock items.length) peer found = .ok r₂ →
      Continues P r (.peerBlockHeaders env peer items) env peer r₂
  | newBlock {env : Env} {peer : NodeID} {result : Option ImportResult} {packet : Rlp}
      {r₁ : Request} : takesBlock P env result packet r → r.blocks.isEmpty = true →
      r.insertBlock P (env.clock 0) peer (packet.item P.payload 0) = .ok r₁ →
      Continues P r (.peerNewBlock env peer result packet) env peer r₁
  | bodies {env : Env} {peer : NodeID} {items : List Rlp} {r₁ : Request} :
      items.foldlM (fun r body => r.insertBody P body) r = .ok r₁ →
      Continues P r (.peerBlockBodies env peer items) env peer r₁

/-- The handler of the event makes a call, with the buffer the call finds. -/
inductive Performs (P : Prims) (r : Request) : Event → Request → Call → Prop where
  | head {env : Env} {peer : NodeID} {items items' : List Rlp} {item : Rlp} {found : Nat × Rlp}
      {info : BlockHeader} {r₁ : Request} :
      headersLoop P env peer 0 items (0, .null) r = .ok (r₁, some found) →
      BlockHeader.ofHeader P item = some info → takesHead env r₁ info →
      Performs P r (.peerBlockHeaders env peer (items ++ item :: items')) r₁
        (.op (.insertHead (env.clock items.length) peer item))
  | known {env : Env} {peer : NodeID} {items : List Rlp} {found : Nat × Rlp} {r₁ : Request} :
      headersLoop P env peer 0 items (0, .null) r = .ok (r₁, some found) →
      takesKnown env r₁ found →
      Performs P r (.peerBlockHeaders env peer items)
        (if r₁.underNumber < found.1 then r₁.removeUnder P found.1 else r₁)
        (.op (.insertHead (env.clock items.length) peer found.2))
  | block {env : Env} {peer : NodeID} {result : Option ImportResult} {packet : Rlp} :
      takesBlock P env result packet r →
      Performs P r (.peerNewBlock env peer result packet) r
        (.op (.insertBlock (env.clock 0) peer (packet.item P.payload 0)))
  | body {env : Env} {peer : NodeID} {items items' : List Rlp} {body : Rlp} {r₁ : Request} :
      items.foldlM (fun r body => r.insertBody P body) r = .ok r₁ →
      Performs P r (.peerBlockBodies env peer (items ++ body :: items')) r₁ (.op (.insertBody body))
  | collect {event : Event} {env : Env} {peer : NodeID} {r₁ : Request} :
      Continues P r event env peer r₁ → Performs P r event r₁ (.op (.collectBlocks env.answers))
  | ask {event : Event} {env : Env} {peer : NodeID} {r₁ r₂ : Request} :
      Continues P r event env peer r₁ → r₁.collectBlocks P env.answers = .ok r₂ →
      r₂.blocks.isEmpty = false → peer = r₂.id 0 → Performs P r event r₂ (.ask env)

/-- The handler of the event fails an assertion or reads through an iterator at the
end. -/
def Crashes (P : Prims) (r : Request) (event : Event) : Prop :=
  (∃ fault, r.onEvent P event = .error fault) ∨
    ∃ env peer r₁, Continues P r event env peer r₁ ∧ readsEnd P env.answers r₁ = true

/-! ## Handlers crash where their calls do -/

section Calls

variable {P : Prims} {env : Env} {peer : NodeID} {r r' : Request}

/-- A computation in two parts fails in the first or in the second. -/
theorem bind_eq_error {α β : Type} {x : Except Fault α} {f : α → Except Fault β} {fault : Fault} :
    x >>= f = .error fault ↔ x = .error fault ∨ ∃ a, x = .ok a ∧ f a = .error fault := by
  cases x with
  | error fault' => simp [Bind.bind, Except.bind]
  | ok a => simp [Bind.bind, Except.bind]

theorem map_eq_error {α β : Type} {x : Except Fault α} {f : α → β} {fault : Fault} :
    x.map f = .error fault ↔ x = .error fault := by
  cases x with
  | error fault' => simp [Except.map]
  | ok a => simp [Except.map]

theorem toOption_eq_some {α : Type} {x : Except Fault α} {a : α} (h : x.toOption = some a) :
    x = .ok a := by
  cases x with
  | error fault => cases h
  | ok b =>
      cases h
      rfl

theorem exists_error {α : Type} {x : Except Fault α} (h : x.toOption.isNone = true) :
    ∃ fault, x = .error fault := by
  cases x with
  | error fault => exact ⟨fault, rfl⟩
  | ok a => cases h

/-- `continueSync` collects the blocks and then asks the peer the buffer belongs to. -/
theorem continueSync_eq : r.continueSync P env peer =
    r.collectBlocks P env.answers >>= fun r =>
      if r.blocks.isEmpty ∨ peer ≠ r.id 0 then .ok (r, none) else r.askPeer env := by
  rfl

theorem continueSync_error_iff {fault : Fault} : r.continueSync P env peer = .error fault ↔
    r.collectBlocks P env.answers = .error fault ∨
      ∃ r', r.collectBlocks P env.answers = .ok r' ∧ r'.blocks.isEmpty = false ∧ peer = r'.id 0 ∧
        r'.askPeer env = .error fault := by
  rw [continueSync_eq, bind_eq_error]
  refine or_congr_right (exists_congr fun r' => and_congr_right fun _ => ?_)
  split
  · rename_i hskip
    constructor
    · intro h
      cases h
    · rintro ⟨hfull, hpeer, -⟩
      rcases hskip with hempty | hne
      · rw [hfull] at hempty
        cases hempty
      · exact absurd hpeer hne
  · rename_i hgo
    rw [not_or, Bool.not_eq_true, not_not] at hgo
    simp [hgo.1, ← hgo.2]

/-- A packet that is handled in two parts. -/
theorem headersLoop_append {items items' : List Rlp} {i : Nat} {found found₁ : Nat × Rlp}
    (h : headersLoop P env peer i items found r = .ok (r', some found₁)) :
    headersLoop P env peer i (items ++ items') found r =
      headersLoop P env peer (i + items.length) items' found₁ r' := by
  induction items generalizing i found r with
  | nil =>
      cases h
      rfl
  | cons item items ih =>
      have hlength : i + (item :: items).length = i + 1 + items.length := by
        rw [List.length_cons]
        omega
      rw [hlength, List.cons_append]
      simp only [headersLoop] at h ⊢
      split at h
      · cases h
      · split at h
        · rename_i hhave
          rw [if_pos hhave]
          exact ih h
        · rename_i hhave
          rw [if_neg hhave]
          split at h
          · rename_i htake
            obtain ⟨r₁, hinsert, h⟩ := bind_eq_ok h
            rw [if_pos htake, hinsert]
            exact ih h
          · rename_i htake
            rw [if_neg htake]
            exact ih h

/-- The loop over a packet fails where a header it inserts does. -/
theorem headersLoop_error {items : List Rlp} {i : Nat} {found : Nat × Rlp} {fault : Fault}
    (h : headersLoop P env peer i items found r = .error fault) :
    ∃ before item after found₁ info r₁, items = before ++ item :: after ∧
      headersLoop P env peer i before found r = .ok (r₁, some found₁) ∧
      BlockHeader.ofHeader P item = some info ∧ takesHead env r₁ info ∧
      r₁.insertHead P (env.clock (i + before.length)) peer item = .error fault := by
  induction items generalizing i found r with
  | nil => cases h
  | cons item items ih =>
      simp only [headersLoop] at h
      split at h
      · cases h
      · rename_i info hinfo
        -- The round of the first item either goes on, with some buffer, or fails.
        have later : ∀ (found₂ : Nat × Rlp) (r₂ : Request),
            (∀ l, headersLoop P env peer i (item :: l) found r =
              headersLoop P env peer (i + 1) l found₂ r₂) →
            headersLoop P env peer (i + 1) items found₂ r₂ = .error fault →
            ∃ before item' after found₁ info r₁, item :: items = before ++ item' :: after ∧
              headersLoop P env peer i before found r = .ok (r₁, some found₁) ∧
              BlockHeader.ofHeader P item' = some info ∧ takesHead env r₁ info ∧
              r₁.insertHead P (env.clock (i + before.length)) peer item' = .error fault := by
          intro found₂ r₂ hround h
          obtain ⟨before, item', after, found₁, info', r₁, rfl, hok, hinfo', htakes, hfail⟩ := ih h
          refine ⟨item :: before, item', after, found₁, info', r₁, rfl, ?_, hinfo', htakes, ?_⟩
          · rw [hround]
            exact hok
          · rw [List.length_cons, Nat.add_comm before.length, ← Nat.add_assoc]
            exact hfail
        split at h
        · rename_i hhave
          refine later found r ?_ h
          intro l
          simp only [headersLoop, hinfo]
          rw [if_pos hhave]
        · rename_i hhave
          split at h
          · rename_i htake
            rcases bind_eq_error.mp h with hfail | ⟨r₂, hinsert, h⟩
            · exact ⟨[], item, items, found, info, r, rfl, rfl, hinfo, ⟨hhave, htake⟩, hfail⟩
            · refine later _ r₂ ?_ h
              intro l
              simp only [headersLoop, hinfo]
              rw [if_neg hhave, if_pos htake, hinsert]
              rfl
          · rename_i htake
            rcases bind_eq_error.mp h with hfail | ⟨r₂, hsame, h⟩
            · cases hfail
            · cases hsame
              refine later _ r ?_ h
              intro l
              simp only [headersLoop, hinfo]
              rw [if_neg hhave, if_neg htake]
              rfl

/-- A header the loop fails at makes it fail. -/
theorem headersLoop_error_of_head {before after : List Rlp} {item : Rlp} {i : Nat}
    {found found₁ : Nat × Rlp} {info : BlockHeader} {fault : Fault}
    (hok : headersLoop P env peer i before found r = .ok (r', some found₁))
    (hinfo : BlockHeader.ofHeader P item = some info) (htakes : takesHead env r' info)
    (hfail : r'.insertHead P (env.clock (i + before.length)) peer item = .error fault) :
    headersLoop P env peer i (before ++ item :: after) found r = .error fault := by
  rw [headersLoop_append hok]
  simp only [headersLoop, hinfo]
  rw [if_neg htakes.1, if_pos htakes.2, hfail]
  rfl

theorem foldlM_insertBody_error {items : List Rlp} {fault : Fault}
    (h : items.foldlM (fun r body => r.insertBody P body) r = .error fault) :
    ∃ before body after r₁, items = before ++ body :: after ∧
      before.foldlM (fun r body => r.insertBody P body) r = .ok r₁ ∧
      r₁.insertBody P body = .error fault := by
  induction items generalizing r with
  | nil => cases h
  | cons body items ih =>
      rw [List.foldlM_cons] at h
      rcases bind_eq_error.mp h with hfail | ⟨r₁, hbody, h⟩
      · exact ⟨[], body, items, r, rfl, rfl, hfail⟩
      · obtain ⟨before, body', after, r₂, rfl, hok, hfail⟩ := ih h
        refine ⟨body :: before, body', after, r₂, rfl, ?_, hfail⟩
        rw [List.foldlM_cons, hbody]
        exact hok

theorem insertKnown_error_iff {now : Nat} {found : Nat × Rlp} {fault : Fault} :
    r.insertKnown P env now peer found = .error fault ↔ takesKnown env r found ∧
      (if r.underNumber < found.1 then r.removeUnder P found.1 else r).insertHead P now peer
        found.2 = .error fault := by
  simp only [insertKnown, takesKnown]
  split
  · rename_i htakes
    exact (and_iff_right htakes).symm
  · rename_i htakes
    constructor
    · intro h
      cases h
    · rintro ⟨h, -⟩
      exact absurd h htakes

/-- A new block is dropped, kept for later, or kept and followed by `continueSync`. -/
theorem onPeerNewBlock_eq {result : Option ImportResult} {packet : Rlp} :
    (¬ takesBlock P env result packet r ∧
      r.onPeerNewBlock P env peer result packet = .ok (r, none)) ∨
    (takesBlock P env result packet r ∧ r.blocks.isEmpty = false ∧
      r.onPeerNewBlock P env peer result packet =
        (r.insertBlock P (env.clock 0) peer (packet.item P.payload 0)).map (·, none)) ∨
    (takesBlock P env result packet r ∧ r.blocks.isEmpty = true ∧
      r.onPeerNewBlock P env peer result packet =
        r.insertBlock P (env.clock 0) peer (packet.item P.payload 0) >>=
          (·.continueSync P env peer)) := by
  simp only [onPeerNewBlock]
  split
  · rename_i hcount
    exact .inl ⟨fun h => hcount h.1, rfl⟩
  · rename_i hcount
    rw [not_not] at hcount
    split
    · rename_i hnone
      refine .inl ⟨?_, rfl⟩
      rintro ⟨-, -, info, hinfo, -⟩
      rw [hnone] at hinfo
      cases hinfo
    · rename_i info hinfo
      split
      · rename_i hresult
        split
        · rename_i hfull
          have hfull' : r.blocks.isEmpty = false := by simpa using hfull
          exact .inr (.inl ⟨⟨hcount, hresult, info, hinfo, .inl hfull⟩, hfull', rfl⟩)
        · rename_i hempty
          split
          · rename_i hahead
            have hempty' : r.blocks.isEmpty = true := by simpa using hempty
            exact .inr (.inr ⟨⟨hcount, hresult, info, hinfo, .inr hahead⟩, hempty', rfl⟩)
          · rename_i hahead
            refine .inl ⟨?_, rfl⟩
            rintro ⟨-, -, info', hinfo', htake⟩
            cases hinfo.symm.trans hinfo'
            exact htake.elim hempty hahead
      · rename_i hresult
        exact .inl ⟨fun h => hresult h.2.1, rfl⟩

/-- What fails in `continueSync` is a call of the handler. -/
theorem performs_of_continueSync {event : Event} {fault : Fault}
    (hgo : Continues P r event env peer r') (h : r'.continueSync P env peer = .error fault) :
    ∃ r₁ call, Performs P r event r₁ call ∧ call.Crashes P r₁ := by
  rcases continueSync_error_iff.mp h with hcollect | ⟨r₂, hcollect, hfull, hpeer, hask⟩
  · exact ⟨r', _, .collect hgo, .inl ⟨fault, hcollect⟩⟩
  · exact ⟨r₂, _, .ask hgo hcollect hfull hpeer, fault, hask⟩

/-- What fails in a handler is one of its calls. -/
theorem performs_of_onEvent {event : Event} {fault : Fault}
    (h : r.onEvent P event = .error fault) :
    ∃ r₁ call, Performs P r event r₁ call ∧ call.Crashes P r₁ := by
  cases event with
  | peerBlockHeaders env peer items =>
      simp only [onEvent] at h
      rw [map_eq_error, onPeerBlockHeaders, bind_eq_error] at h
      rcases h with hloop | ⟨⟨r₁, found⟩, hloop, h⟩
      · obtain ⟨before, item, after, found₁, info, r₁, rfl, hok, hinfo, htakes, hfail⟩ :=
          headersLoop_error hloop
        rw [Nat.zero_add] at hfail
        exact ⟨r₁, _, .head hok hinfo htakes, .inl ⟨fault, hfail⟩⟩
      · cases found with
        | none => cases h
        | some found =>
            rcases bind_eq_error.mp h with hknown | ⟨r₂, hknown, h⟩
            · obtain ⟨htakes, hfail⟩ := insertKnown_error_iff.mp hknown
              exact ⟨_, _, .known hloop htakes, .inl ⟨fault, hfail⟩⟩
            · exact performs_of_continueSync (.headers hloop hknown) h
  | peerNewBlock env peer result packet =>
      simp only [onEvent] at h
      rw [map_eq_error] at h
      rcases onPeerNewBlock_eq (P := P) (r := r) with
        ⟨-, heq⟩ | ⟨htakes, -, heq⟩ | ⟨htakes, hempty, heq⟩
      · rw [heq] at h
        cases h
      · rw [heq, map_eq_error] at h
        exact ⟨r, _, .block htakes, .inl ⟨fault, h⟩⟩
      · rw [heq] at h
        rcases bind_eq_error.mp h with hblock | ⟨r₁, hblock, h⟩
        · exact ⟨r, _, .block htakes, .inl ⟨fault, hblock⟩⟩
        · exact performs_of_continueSync (.newBlock htakes hempty hblock) h
  | peerBlockBodies env peer items =>
      simp only [onEvent] at h
      rw [map_eq_error, onPeerBlockBodies, bind_eq_error] at h
      rcases h with hbodies | ⟨r₁, hbodies, h⟩
      · obtain ⟨before, body, after, r₁, rfl, hok, hfail⟩ := foldlM_insertBody_error hbodies
        exact ⟨r₁, _, .body hok, .inl ⟨fault, hfail⟩⟩
      · exact performs_of_continueSync (.bodies hbodies) h
  | blockImported info => cases h

/-- If `continueSync` fails, so does the handler. -/
theorem onEvent_error_of_continueSync {event : Event} {fault : Fault}
    (hgo : Continues P r event env peer r') (h : r'.continueSync P env peer = .error fault) :
    r.onEvent P event = .error fault := by
  cases hgo with
  | headers hloop hknown =>
      simp only [onEvent, onPeerBlockHeaders, hloop]
      rw [map_eq_error]
      exact bind_eq_error.mpr (.inr ⟨_, rfl, bind_eq_error.mpr (.inr ⟨_, hknown, h⟩)⟩)
  | newBlock htakes hempty hblock =>
      simp only [onEvent]
      rw [map_eq_error]
      rcases onPeerNewBlock_eq (P := P) (r := r) with
        ⟨hnot, -⟩ | ⟨-, hfull, -⟩ | ⟨-, -, heq⟩
      · exact absurd htakes hnot
      · rw [hfull] at hempty
        cases hempty
      · rw [heq]
        exact bind_eq_error.mpr (.inr ⟨_, hblock, h⟩)
  | bodies hbodies =>
      simp only [onEvent, onPeerBlockBodies, hbodies]
      rw [map_eq_error]
      exact bind_eq_error.mpr (.inr ⟨_, rfl, h⟩)

/-- A handler crashes exactly if one of its calls does. -/
theorem crashes_iff_performs {event : Event} : Crashes P r event ↔
    ∃ r₁ call, Performs P r event r₁ call ∧ call.Crashes P r₁ := by
  constructor
  · rintro (⟨fault, h⟩ | ⟨env, peer, r₁, hgo, hend⟩)
    · exact performs_of_onEvent h
    · exact ⟨r₁, _, .collect hgo, .inr ⟨_, rfl, hend⟩⟩
  · rintro ⟨r₁, call, hcall, hcrash⟩
    cases hcall with
    | head hok hinfo htakes =>
        obtain ⟨fault, hfail⟩ | ⟨a, ha, -⟩ := hcrash
        · refine .inl ⟨fault, ?_⟩
          simp only [onEvent, onPeerBlockHeaders]
          rw [map_eq_error]
          refine bind_eq_error.mpr (.inl (headersLoop_error_of_head hok hinfo htakes ?_))
          rw [Nat.zero_add]
          exact hfail
        · cases ha
    | known hloop htakes =>
        obtain ⟨fault, hfail⟩ | ⟨a, ha, -⟩ := hcrash
        · refine .inl ⟨fault, ?_⟩
          simp only [onEvent, onPeerBlockHeaders, hloop]
          rw [map_eq_error]
          exact bind_eq_error.mpr
            (.inr ⟨_, rfl, bind_eq_error.mpr (.inl (insertKnown_error_iff.mpr ⟨htakes, hfail⟩))⟩)
        · cases ha
    | block htakes =>
        obtain ⟨fault, hfail⟩ | ⟨a, ha, -⟩ := hcrash
        · refine .inl ⟨fault, ?_⟩
          simp only [onEvent]
          rw [map_eq_error]
          rcases onPeerNewBlock_eq (P := P) (r := r) with
            ⟨hnot, -⟩ | ⟨-, -, heq⟩ | ⟨-, -, heq⟩
          · exact absurd htakes hnot
          · rw [heq, map_eq_error]
            exact hfail
          · rw [heq]
            exact bind_eq_error.mpr (.inl hfail)
        · cases ha
    | body hok =>
        obtain ⟨fault, hfail⟩ | ⟨a, ha, -⟩ := hcrash
        · refine .inl ⟨fault, ?_⟩
          simp only [onEvent, onPeerBlockBodies]
          rw [map_eq_error]
          refine bind_eq_error.mpr (.inl ?_)
          rw [List.foldlM_append, hok]
          exact bind_eq_error.mpr (.inr ⟨_, rfl, bind_eq_error.mpr (.inl hfail)⟩)
        · cases ha
    | collect hgo =>
        obtain ⟨fault, hfail⟩ | ⟨a, ha, hend⟩ := hcrash
        · exact .inl ⟨fault, onEvent_error_of_continueSync hgo
            (continueSync_error_iff.mpr (.inl hfail))⟩
        · cases ha
          exact .inr ⟨_, _, _, hgo, hend⟩
    | ask hgo hcollect hfull hpeer =>
        obtain ⟨fault, hfail⟩ := hcrash
        exact .inl ⟨fault, onEvent_error_of_continueSync hgo
          (continueSync_error_iff.mpr (.inr ⟨_, hcollect, hfull, hpeer, hfail⟩))⟩

end Calls

end Request

end CppSwc
