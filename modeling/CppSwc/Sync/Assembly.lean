import CppSwc.Chain.HeaderRequest
import CppSwc.Core.RlpTree
import CppSwc.Sync.Index
import CppSwc.Sync.Steps

/-!
# The blocks that are put together

`EthereumHostData::blockBodies` serves all items of a block but its header.  The two clients put
a block together from the header and the body that they got.  They differ from the served block
where a header has the roots of an empty body: the clients then make up a body of two items, and
a block with a signature list has three.
-/

namespace CppSwc

open Lib Lib.Segments

/-! ## Lists of raw items -/

namespace RLPStream

theorem writes_raw : ∀ {items : List Rlp}, items ≠ [] →
    Writes items (items.map fun item => .appendRaw item.encode 1)
  | [t], _ => .raw [] t.encode (List.cons_ne_nil _ _) (encodeItems_singleton t).symm
  | t :: u :: ts, _ =>
      .append (.raw [] t.encode (List.cons_ne_nil t []) (encodeItems_singleton t).symm)
        (writes_raw (List.cons_ne_nil u ts))

end RLPStream

namespace BlockChainSync

variable {P : Prims}

theorem listOfRaw_eq {items : List Rlp} (hne : items ≠ [])
    (hlt : (Rlp.list items).encode.length < 2 ^ 64) :
    listOfRaw items.length items = some (Rlp.list items).encode :=
  RLPStream.out_of_writes (.list (RLPStream.writes_raw hne)) hlt

theorem map_item_range (item : Rlp) :
    (List.range item.itemCount).map (item.item P.payload) = item.items := by
  cases item with
  | null => rfl
  | data bytes => rfl
  | list items =>
      refine List.ext_getElem (by simp [Rlp.itemCount, Rlp.items]) fun i _ hi => ?_
      rw [List.getElem_map, List.getElem_range, Rlp.item_list]
      exact List.getD_eq_getElem _ _ hi

/-- A client writes the header and the items of the body in one list. -/
theorem assemble_eq {header body : Rlp}
    (hlt : (Rlp.list (header :: body.items)).encode.length < 2 ^ 64) :
    assemble P header body = some (Rlp.list (header :: body.items)).encode := by
  rw [assemble, map_item_range, Nat.add_comm 1]
  exact listOfRaw_eq (List.cons_ne_nil _ _) hlt

/-! ## The server -/

/-- The body of a block.  Its list has as many items as the block, since the last one is past the
end and has no bytes. -/
def bodyOf (P : Prims) (block : Rlp) : Option Bytes :=
  listOfRaw block.itemCount
    ((List.range block.itemCount).map fun i => block.item P.payload (i + 1))

/-- `c_maxBlocks`. -/
def c_maxBlocks : ℕ := 128

/-- The loop of `blockBodies`, which stops when the payload is large enough. -/
def bodiesLoop (P : Prims) (isKnown : H256 → Bool) (blockOf : H256 → Rlp) :
    List H256 → Bytes → ℕ → Option (Bytes × ℕ)
  | [], rlp, n => some (rlp, n)
  | h :: hashes, rlp, n =>
      if BlockChain.c_maxPayload ≤ rlp.length then some (rlp, n)
      else if isKnown h then
        (bodyOf P (blockOf h)).bind fun body => bodiesLoop P isKnown blockOf hashes (rlp ++ body) (n + 1)
      else bodiesLoop P isKnown blockOf hashes rlp n

/-- `blockBodies`: the bodies, one after the other, and how many they are. -/
def blockBodies (P : Prims) (isKnown : H256 → Bool) (blockOf : H256 → Rlp) (hashes : List H256) :
    Option (Bytes × ℕ) :=
  bodiesLoop P isKnown blockOf (hashes.take c_maxBlocks) [] 0

/-- A block that the chain has stored.  Its body has passed the check against the roots. -/
structure StoredBlock (P : Prims) (block : Rlp) (info : BlockHeader) : Prop where
  tree : block.IsTree
  room : block.encode.length < RLP.maxLength
  itemCount : block.itemCount = 3 ∨ block.itemCount = 4
  header : BlockHeader.ofHeader P (block.item P.payload 0) = some info
  roots : bodyRoots P (.list (block.items.drop 1)) = info.roots

theorem encodeItems_concat_null (items : List Rlp) :
    Rlp.encodeItems (items ++ [.null]) = Rlp.encodeItems items := by
  rw [RLPStream.encodeItems_append, RLPStream.encodeItems_singleton]
  exact List.append_nil _

theorem map_item_succ_range (items : List Rlp) (hne : items ≠ []) :
    (List.range items.length).map (fun i => (Rlp.list items).item P.payload (i + 1)) =
      items.drop 1 ++ [.null] := by
  obtain ⟨item, items, rfl⟩ := List.exists_cons_of_ne_nil hne
  refine List.ext_getElem (by simp) fun i hi _ => ?_
  rw [List.length_map, List.length_range, List.length_cons] at hi
  rw [List.getElem_map, List.getElem_range, Rlp.item_list, List.getD_cons_succ, List.getD_eq_getElem?_getD]
  simp only [List.drop_succ_cons, List.drop_zero]
  rcases Nat.lt_succ_iff_lt_or_eq.mp hi with hlt | rfl
  · rw [List.getElem_append_left hlt, List.getElem?_eq_getElem hlt]
    rfl
  · simp

theorem length_le_encodeItems {items : List Rlp} (h : Rlp.AreTrees items) :
    items.length ≤ (Rlp.encodeItems items).length := by
  induction items with
  | nil => exact Nat.zero_le _
  | cons item items ih =>
      have hne : item.encode ≠ [] := by
        cases item with
        | null => exact absurd h.1 id
        | data bytes => exact RLP.appendData_ne_nil bytes
        | list items => exact RLP.appendList_ne_nil _
      have hpos := List.length_pos_of_ne_nil hne
      have hle := ih h.2
      rw [Rlp.encodeItems, List.length_append, List.length_cons]
      omega

namespace StoredBlock

variable {block : Rlp} {info : BlockHeader}

/-- A stored block is a header and the items of its body. -/
theorem eq_list (h : StoredBlock P block info) :
    block = .list (block.item P.payload 0 :: block.items.drop 1) := by
  have hcount := h.itemCount
  cases block with
  | null => simp [Rlp.itemCount, Rlp.items] at hcount
  | data bytes => simp [Rlp.itemCount, Rlp.items] at hcount
  | list items =>
      cases items with
      | nil => simp [Rlp.itemCount, Rlp.items] at hcount
      | cons item items => rfl

theorem body_ne_nil (h : StoredBlock P block info) : block.items.drop 1 ≠ [] := by
  rw [Ne, List.drop_eq_nil_iff]
  have hcount : block.items.length = 3 ∨ block.items.length = 4 := h.itemCount
  omega

/-- The bytes of the items of the body have room in the block. -/
theorem length_body_lt (h : StoredBlock P block info) :
    (Rlp.encodeItems (block.items.drop 1)).length < RLP.maxLength := by
  have hroom := h.room
  rw [h.eq_list, Rlp.encode] at hroom
  have hitems := (Rlp.length_le_appendList _).trans_lt hroom
  rw [Rlp.encodeItems, List.length_append] at hitems
  omega

theorem areTrees (h : StoredBlock P block info) :
    (block.item P.payload 0).IsTree ∧ Rlp.AreTrees (block.items.drop 1) := by
  have htree := h.tree
  rw [h.eq_list] at htree
  exact htree

theorem length_encode_body_lt (h : StoredBlock P block info) :
    (Rlp.list (block.items.drop 1)).encode.length < RLP.maxLength := by
  have hroom := h.room
  rw [h.eq_list, Rlp.encode, RLP.appendList, List.length_append, Rlp.encodeItems, List.length_append]
    at hroom
  have hprefix : (RLP.lengthPrefix 0xc0 (Rlp.encodeItems (block.items.drop 1)).length).length ≤ _ :=
    RLP.lengthPrefix_length_mono (Nat.le_add_left _ (block.item P.payload 0).encode.length)
  rw [Rlp.encode, RLP.appendList, List.length_append]
  omega

/-- The server writes the body. -/
theorem bodyOf_eq (h : StoredBlock P block info) :
    bodyOf P block = some (Rlp.list (block.items.drop 1)).encode := by
  have hne : block.items ≠ [] := fun hnil => h.body_ne_nil (by rw [hnil]; rfl)
  have hitems : (List.range block.itemCount).map (fun i => block.item P.payload (i + 1)) =
      block.items.drop 1 ++ [.null] := by
    have hmap := map_item_succ_range (P := P) block.items hne
    rwa [show Rlp.list block.items = block from by rw [h.eq_list]; rfl] at hmap
  have hlength : block.itemCount = (block.items.drop 1 ++ [Rlp.null]).length := by
    rw [← hitems, List.length_map, List.length_range]
  have hencode : (Rlp.list (block.items.drop 1 ++ [.null])).encode =
      (Rlp.list (block.items.drop 1)).encode := by
    rw [Rlp.encode, Rlp.encode, encodeItems_concat_null]
  rw [bodyOf, hitems, hlength, listOfRaw_eq (List.append_ne_nil_of_right_ne_nil _ (List.cons_ne_nil _ _)),
    hencode]
  rw [hencode, Rlp.encode]
  exact RLP.length_appendList_lt h.length_body_lt

/-- The answer to a request for the body of the block. -/
theorem blockBodies_eq (h : StoredBlock P block info) {isKnown : H256 → Bool} {blockOf : H256 → Rlp}
    (hknown : isKnown info.hash = true) (hblock : blockOf info.hash = block) :
    blockBodies P isKnown blockOf [info.hash] = some ((Rlp.list (block.items.drop 1)).encode, 1) := by
  have htake : [info.hash].take c_maxBlocks = [info.hash] := rfl
  rw [blockBodies, htake, bodiesLoop, if_neg (by decide), if_pos hknown, hblock, h.bodyOf_eq]
  rfl

/-- The body that is read from the answer. -/
theorem served_eq (h : StoredBlock P block info) {isKnown : H256 → Bool} {blockOf : H256 → Rlp}
    (hknown : isKnown info.hash = true) (hblock : blockOf info.hash = block) {body : Rlp}
    (htree : body.IsTree)
    (hserved : blockBodies P isKnown blockOf [info.hash] = some (body.encode, 1)) :
    body = .list (block.items.drop 1) := by
  rw [h.blockBodies_eq hknown hblock, Option.some.injEq, Prod.mk.injEq] at hserved
  have htrees : (Rlp.list (block.items.drop 1)).IsTree := h.areTrees.2
  exact (RLP.encode_injective htrees htree h.length_encode_body_lt hserved.1).symm

/-- Two empty lists have room beside the header. -/
theorem length_made_lt (h : StoredBlock P block info) :
    (Rlp.encodeItems [block.item P.payload 0, .list [], .list []]).length < RLP.maxLength := by
  have hroom := h.room
  rw [h.eq_list, Rlp.encode] at hroom
  have hitems := (Rlp.length_le_appendList _).trans_lt hroom
  have hlong : (block.items.drop 1).length ≤ (Rlp.encodeItems (block.items.drop 1)).length :=
    length_le_encodeItems h.areTrees.2
  have hcount : block.items.length = 3 ∨ block.items.length = 4 := h.itemCount
  rw [List.length_drop] at hlong
  rw [Rlp.encodeItems, List.length_append] at hitems ⊢
  have htwo : (Rlp.encodeItems [.list [], .list []]).length = 2 := by decide
  omega

/-- What a client puts together from the header and a body is the block exactly if the items of
the body have the bytes that they have in the block. -/
theorem assemble_eq_iff (h : StoredBlock P block info) {body : Rlp} {x : Bytes}
    (hlt : (Rlp.list (block.item P.payload 0 :: body.items)).encode.length < 2 ^ 64)
    (hrun : assemble P (block.item P.payload 0) body = some x) :
    x = block.encode ↔ Rlp.encodeItems body.items = Rlp.encodeItems (block.items.drop 1) := by
  rw [assemble_eq hlt, Option.some.injEq] at hrun
  have hblock : block.encode = RLP.appendList
      ((block.item P.payload 0).encode ++ Rlp.encodeItems (block.items.drop 1)) := by
    conv_lhs => rw [h.eq_list, Rlp.encode, Rlp.encodeItems]
  rw [← hrun, hblock, Rlp.encode, Rlp.encodeItems]
  exact ⟨fun heq => List.append_cancel_left (RLP.appendList_injective heq), fun heq => by rw [heq]⟩

end StoredBlock

/-! ## `BlockChainSync` -/

/-- The block that the client has for a number. -/
def assembled (P : Prims) (s : BlockChainSync) (n : ℕ) : Option Bytes := do
  let header ← value s.headers n
  let body ← value s.bodies n
  assemble P header.data body

/-- What `collectBlocks` passes to the queue is what the client has. -/
theorem assembled_of_mem_pending {s : BlockChainSync} {n : ℕ} {header : Header}
    {x : Option Bytes} (hmem : (n, header, x) ∈ s.pending P) : s.assembled P n = x := by
  rw [pending] at hmem
  split at hmem
  · cases hmem
  · rename_i first headers bodies hfirst
    obtain ⟨⟨rest, hheaders⟩, rest', hbodies⟩ := firstChunks_eq_some hfirst
    obtain ⟨⟨⟨header', body⟩, i⟩, hin, heq⟩ := List.mem_map.mp hmem
    cases heq
    rw [List.mk_mem_zipIdx_iff_getElem?, List.getElem?_zip_eq_some] at hin
    obtain ⟨hheader, hbody⟩ := hin
    have hlt : i < headers.length := (List.getElem?_eq_some_iff.mp hheader).1
    have hlt' : i < bodies.length := (List.getElem?_eq_some_iff.mp hbody).1
    have hvalue : value s.headers (first + i) = some header := by
      rw [hheaders, value_first hlt, hheader]
    have hvalue' : value s.bodies (first + i) = some body := by
      rw [hbodies, value_first hlt', hbody]
    rw [assembled, hvalue, hvalue']
    rfl

/-- A round over a header takes it. -/
structure Takes (P : Prims) (host : Host) (item : Rlp) (n : ℕ) (s s' : BlockChainSync) : Prop where
  round : s.headerRound P host item = .ok (.goOn s')
  absent : haveItem s.headers n = false
  present : haveItem s'.headers n = true

/-- What the client has for a number, and the index entry of some roots, are the same. -/
structure SameEntry (n : ℕ) (roots : HeaderId) (s s' : BlockChainSync) : Prop where
  header : value s'.headers n = value s.headers n
  body : value s'.bodies n = value s.bodies n
  index : s'.headerIdToNumber[roots]? = s.headerIdToNumber[roots]?

/-- What the client has for a header, before it has its body. -/
structure Awaits (P : Prims) (item : Rlp) (info : BlockHeader) (n : ℕ) (s : BlockChainSync) : Prop where
  header : value s.headers n = some (entryOf item info)
  made : info.roots = P.emptyRoots → value s.bodies n = some emptyBody
  target : info.roots ≠ P.emptyRoots → s.headerIdToNumber[info.roots]? = some n

variable {host : Host} {item : Rlp} {info : BlockHeader} {s s' : BlockChainSync} {n : ℕ}

theorem Awaits.of_same (h : Awaits P item info n s) (hsame : SameEntry n info.roots s s') :
    Awaits P item info n s' where
  header := hsame.header.trans h.header
  made hempty := hsame.body.trans (h.made hempty)
  target hne := hsame.index.trans (h.target hne)

theorem Takes.awaits (hwell : s.WellKept) (hinfo : BlockHeader.ofHeader P item = some info)
    (h : Takes P host item (info.number % 2 ^ 32) s s') :
    Awaits P item info (info.number % 2 ^ 32) s' := by
  have hround : (s.headerRound P host item).map Round.state = .ok s' := by
    rw [h.round]
    rfl
  have hcase : HeaderCase P host item s (.ok s') := hround ▸ headerRound_cases item
  have hstep : step P s (.headerRound host item) = .ok s' := hround
  have hwell' : s'.WellKept := wellKept_step hwell hstep
  have habsent := h.absent
  have hpresent := h.present
  rw [haveItem_eq hwell.headers] at habsent
  rw [haveItem_eq hwell'.headers] at hpresent
  rcases headerCase_store hwell hcase with hsame | hfresh | ⟨info', s₁, hunknown, -, -, hstores⟩
  · rw [hsame.headers, habsent] at hpresent
    cases hpresent
  · rw [hfresh.headers] at hpresent
    cases hpresent
  · cases hinfo.symm.trans hunknown.1
    refine ⟨?_, fun hempty => ?_, fun hne => ?_⟩
    · rw [hstores.headers, if_pos rfl]
    · rw [hstores.bodies, if_pos ⟨rfl, hempty⟩]
    · rw [hstores.index, if_neg hne, getElem?_insert_eq, if_pos rfl]

/-- The body that the client has for a header after the answer.  It made it up for the roots of
an empty body, and keeps one that it has already. -/
def bodyKept (P : Prims) (info : BlockHeader) (old : Option Rlp) (body : Rlp) : Rlp :=
  if info.roots = P.emptyRoots then emptyBody else old.getD body

theorem Awaits.body (hwell : s.WellKept) (h : Awaits P item info n s) {body : Rlp}
    (hroots : bodyRoots P body = info.roots) (hrun : s.bodyRound P body = .ok s') :
    value s'.headers n = some (entryOf item info) ∧
      value s'.bodies n = some (bodyKept P info (value s.bodies n) body) := by
  have hheader : (value s.headers n).isSome := by
    rw [h.header]
    rfl
  rw [bodyKept]
  rcases bodyRound_cases (P := P) hwell body with ⟨hsame, hnone⟩ | ⟨m, s'', hrun', hstores⟩
  · cases hrun.symm.trans hsame
    refine ⟨h.header, ?_⟩
    split
    · rename_i hempty
      exact h.made hempty
    · rename_i hne
      rcases hnone n (hroots ▸ h.target hne) with habs | hbody
      · rw [habs] at hheader
        cases hheader
      · obtain ⟨old, hold⟩ := Option.isSome_iff_exists.mp hbody
        rw [hold]
        rfl
  · cases hrun.symm.trans hrun'
    refine ⟨hstores.headers ▸ h.header, ?_⟩
    rw [hstores.bodies]
    split
    · rename_i heq
      subst heq
      rw [hstores.absent]
      split
      · rename_i hempty
        have habs := hstores.absent
        rw [h.made hempty] at habs
        cases habs
      · rfl
    · rename_i hm
      split
      · rename_i hempty
        exact h.made hempty
      · rename_i hne
        have htarget := hstores.target
        rw [hroots, h.target hne, Option.some.injEq] at htarget
        exact absurd htarget hm

/-- The condition under which the body that a client has in the end gives the block: a block with
the roots of an empty body is only the header and two empty lists, and another block meets no
other body under its number. -/
def Fits (P : Prims) (info : BlockHeader) (old : Option Rlp) (block : Rlp) : Prop :=
  if info.roots = P.emptyRoots then block.items.drop 1 = [.list [], .list []]
  else ∀ b ∈ old, Rlp.encodeItems b.items = Rlp.encodeItems (block.items.drop 1)

theorem fits_iff {block : Rlp} (h : StoredBlock P block info) (old : Option Rlp) :
    Rlp.encodeItems (bodyKept P info old (.list (block.items.drop 1))).items =
      Rlp.encodeItems (block.items.drop 1) ↔ Fits P info old block := by
  rw [bodyKept, Fits]
  split
  · constructor
    · intro heq
      have hbytes : (Rlp.list (block.items.drop 1)).encode = emptyBody.encode := by
        rw [emptyBody, Rlp.encode, Rlp.encode]
        exact congrArg RLP.appendList heq.symm
      have htrees : (Rlp.list (block.items.drop 1)).IsTree := h.areTrees.2
      have hempty : emptyBody.IsTree := ⟨trivial, trivial, trivial⟩
      exact Rlp.list.inj (RLP.encode_injective htrees hempty h.length_encode_body_lt hbytes)
    · intro heq
      rw [heq]
      rfl
  · cases old with
    | none => simp [Rlp.items]
    | some b => simp

theorem StoredBlock.length_kept_lt {block : Rlp} (h : StoredBlock P block info) {old : Option Rlp}
    (hroom : ∀ b ∈ old, (Rlp.list (block.item P.payload 0 :: b.items)).encode.length < 2 ^ 64) :
    (Rlp.list (block.item P.payload 0 ::
      (bodyKept P info old (.list (block.items.drop 1))).items)).encode.length < 2 ^ 64 := by
  rw [bodyKept]
  split
  · exact RLP.length_appendList_lt h.length_made_lt
  · cases old with
    | none =>
        have hblock := h.room
        rw [h.eq_list, RLP.maxLength] at hblock
        exact hblock.trans (by decide)
    | some b => exact hroom b rfl

/-- The block that a client has after both answers. -/
theorem Awaits.assembled {block : Rlp} (hstored : StoredBlock P block info) (hwell : s.WellKept)
    (h : Awaits P (block.item P.payload 0) info n s)
    (hroom : ∀ b ∈ value s.bodies n,
      (Rlp.list (block.item P.payload 0 :: b.items)).encode.length < 2 ^ 64)
    (hrun : s.bodyRound P (.list (block.items.drop 1)) = .ok s') :
    ∃ x, s'.assembled P n = some x ∧ (x = block.encode ↔ Fits P info (value s.bodies n) block) := by
  obtain ⟨hheader, hbody⟩ := h.body hwell hstored.roots hrun
  have hlt := hstored.length_kept_lt hroom
  have hassemble := assemble_eq (P := P) hlt
  refine ⟨_, ?_, (hstored.assemble_eq_iff hlt hassemble).trans (fits_iff hstored _)⟩
  rw [BlockChainSync.assembled, hheader, hbody]
  exact hassemble

theorem assembled_of_answers {block : Rlp} {s₀ s₁ : BlockChainSync}
    (hstored : StoredBlock P block info) (hreach : (system P).Reach (fun _ _ => True) s₀)
    (htakes : Takes P host (block.item P.payload 0) (info.number % 2 ^ 32) s₀ s₁)
    (hreach' : (system P).Reach (fun _ _ => True) s)
    (hsame : SameEntry (info.number % 2 ^ 32) info.roots s₁ s)
    (hroom : ∀ b ∈ value s.bodies (info.number % 2 ^ 32),
      (Rlp.list (block.item P.payload 0 :: b.items)).encode.length < 2 ^ 64)
    (hrun : s.bodyRound P (.list (block.items.drop 1)) = .ok s') :
    ∃ x, s'.assembled P (info.number % 2 ^ 32) = some x ∧
      (∀ header y, (info.number % 2 ^ 32, header, y) ∈ s'.pending P → y = some x) ∧
      (x = block.encode ↔ Fits P info (value s.bodies (info.number % 2 ^ 32)) block) := by
  have hawaits := (htakes.awaits (wellKept_reach hreach) hstored.header).of_same hsame
  obtain ⟨x, hx, hiff⟩ := hawaits.assembled hstored (wellKept_reach hreach') hroom hrun
  refine ⟨x, hx, fun header y hmem => ?_, hiff⟩
  rw [← hx]
  exact (assembled_of_mem_pending hmem).symm

end BlockChainSync

/-! ## `Request` -/

namespace Request

variable {P : Prims} {r r' : Request} {info : BlockHeader} {n : ℕ}

/-- The block that the loop of `collectBlocks` passes to the queue for an entry. -/
def assembled (P : Prims) (r : Request) (n : ℕ) : Option Bytes :=
  (r.blocks[n]?).bind fun b =>
    if b.body.isNull || b.head.isNull then none else BlockChainSync.assemble P b.head b.body

/-- The entry for a number and the index entry of some roots are the same. -/
structure SameEntry (n : ℕ) (roots : Header) (r r' : Request) : Prop where
  entry : r'.blocks[n]? = r.blocks[n]?
  index : r'.headerToNumber[roots]? = r.headerToNumber[roots]?

/-- The roots of an empty body are not in the index. -/
theorem index_emptyRoots (h : (system P).Reach (fun _ _ => True) r) :
    r.headerToNumber[P.emptyRoots]? = none := by
  refine Request.invariant (I := fun r => r.headerToNumber[P.emptyRoots]? = none) ?_ ?_ h
  · intro hash time
    exact Std.ExtTreeMap.getElem?_empty
  · intro r op r' _ hcase hr
    have htrim : ∀ {r₁ r₂ : Request}, Trim P r₁ r₂ → r₁.headerToNumber[P.emptyRoots]? = none →
        r₂.headerToNumber[P.emptyRoots]? = none := by
      intro r₁ r₂ htrim hr₁
      refine htrim.invariant (I := fun r => r.headerToNumber[P.emptyRoots]? = none) hr₁ ?_ ?_ ?_
      · intro r e _ hr
        rw [Option.eq_none_iff_forall_ne_some] at hr ⊢
        exact fun m hm => hr m (removeEntry_index hm).1
      · intro r _
        exact Std.ExtTreeMap.getElem?_empty
      · exact fun _ _ _ _ hr => hr
    cases hcase with
    | trim ht => exact htrim ht hr
    | @store r₁ number b header _ ht hstore =>
        rw [(stored_of_insertBlockerAt hstore).index]
        split
        · exact htrim ht hr
        · rename_i hne
          rw [getElem?_insert_eq, if_neg hne]
          exact htrim ht hr
    | body _ hbody =>
        rcases insertBody_cases hbody with rfl | ⟨_, _, _, rfl⟩
        · exact hr
        · exact hr

/-- What the buffer has for a header that it has just taken. -/
structure Awaits (P : Prims) (item : Rlp) (info : BlockHeader) (n : ℕ) (r : Request) : Prop where
  entry : ∃ b, r.blocks[n]? = some b ∧ b.head = item ∧
    (info.roots = P.emptyRoots → b.body = BlockChainSync.emptyBody)
  index : r.headerToNumber[info.roots]? = if info.roots = P.emptyRoots then none else some n

theorem Awaits.of_same {item : Rlp} (h : Awaits P item info n r) (hsame : SameEntry n info.roots r r') :
    Awaits P item info n r' :=
  ⟨hsame.entry ▸ h.entry, hsame.index.trans h.index⟩

theorem insertBlocker_of_stores {op : Op} {r₁ : Request} {b : Blocker} {header : BlockHeader}
    (hstores : stores P r op = some (r₁, n, b, header)) :
    incoming P op = some b ∧ BlockHeader.ofHeader P b.head = some header ∧
      n = header.number % 2 ^ 32 ∧
      (n ≠ 0 → r.insertBlocker P b = r₁.insertBlockerAt P n b header) := by
  obtain ⟨hin, hheader, hnumber, hprepare⟩ := stores_eq_some hstores
  refine ⟨hin, hheader, hnumber, fun hpos => ?_⟩
  rw [insertBlocker, hheader]
  dsimp only
  rw [← hnumber, if_neg hpos, hprepare]

/-- `insertHead` wants to store the header, and does. -/
theorem awaits_insertHead {now : ℕ} {id : NodeID} {item : Rlp}
    (hreach : (system P).Reach (fun _ _ => True) r)
    (hinfo : BlockHeader.ofHeader P item = some info)
    (hstores : (stores P r (.insertHead now id item)).isSome)
    (hrun : r.insertHead P now id item = .ok r') :
    Awaits P item info (info.number % 2 ^ 32) r' := by
  have hstep : (system P).step r (.insertHead now id item) = some r' :=
    congrArg Except.toOption hrun
  have hempty : r'.headerToNumber[P.emptyRoots]? = none := index_emptyRoots (hreach.step trivial hstep)
  obtain ⟨⟨r₁, number, b, header⟩, hsome⟩ := Option.isSome_iff_exists.mp hstores
  obtain ⟨hin, hheader, hnumber, hinsert⟩ := insertBlocker_of_stores hsome
  have hin' : Blocker.ofHead P now id item = some b := hin
  obtain ⟨header', hdecoded, rfl⟩ := Option.map_eq_some_iff.mp hin'
  cases hinfo.symm.trans hheader
  rw [insertHead, hin'] at hrun
  dsimp only at hrun
  have hpos : number ≠ 0 := by
    rintro rfl
    rw [insertBlocker] at hrun
    dsimp only at hrun
    rw [hinfo] at hrun
    dsimp only at hrun
    rw [if_pos hnumber.symm] at hrun
    cases hrun
  have hat : r₁.insertBlockerAt P number _ info = .ok r' := (hinsert hpos).symm.trans hrun
  obtain rfl := hnumber
  refine ⟨?_, ?_⟩
  · obtain ⟨-, -, ⟨body, hbody, -⟩, -, -⟩ := stored_of_insertBlockerAt hat
    refine ⟨_, hbody, rfl, fun hroots => ?_⟩
    rw [insertBlockerAt, if_neg hpos] at hat
    split at hat
    · cases hat
    · cases hat
      rw [getElem?_insert_eq, if_pos rfl, Option.some.injEq] at hbody
      exact (congrArg Blocker.body hbody).symm
  · split
    · rename_i hroots
      rw [hroots]
      exact hempty
    · rename_i hroots
      rw [(stored_of_insertBlockerAt hat).index, if_neg hroots, getElem?_insert_eq, if_pos rfl]

/-- The block that the client has after both answers. -/
theorem Awaits.assembled {block : Rlp} (hstored : BlockChainSync.StoredBlock P block info)
    (h : Awaits P (block.item P.payload 0) info n r)
    (hrun : r.insertBody P (.list (block.items.drop 1)) = .ok r') :
    ∃ x, r'.assembled P n = some x ∧
      (x = block.encode ↔ BlockChainSync.Fits P info none block) := by
  obtain ⟨b, hb, hhead, hmade⟩ := h.entry
  have hkept : r'.assembled P n = BlockChainSync.assemble P (block.item P.payload 0)
      (BlockChainSync.bodyKept P info none (.list (block.items.drop 1))) := by
    have hnull : (block.item P.payload 0).isNull = false := by
      have htree := hstored.areTrees.1
      cases hitem : block.item P.payload 0 with
      | null =>
          rw [hitem] at htree
          exact htree.elim
      | data bytes => rfl
      | list items => rfl
    have hindex := h.index
    rw [insertBody, hstored.roots, hindex] at hrun
    rw [BlockChainSync.bodyKept]
    split
    · rename_i hroots
      rw [if_pos hroots] at hrun
      cases hrun
      rw [Request.assembled, hb, Option.bind_some, hmade hroots, hhead, hnull]
      rfl
    · rename_i hroots
      rw [if_neg hroots] at hrun
      dsimp only at hrun
      rw [hb] at hrun
      cases hrun
      rw [Request.assembled, getElem?_insert_eq, if_pos rfl, Option.bind_some, hhead, hnull]
      rfl
  have hlt : (Rlp.list (block.item P.payload 0 :: (BlockChainSync.bodyKept P info none
      (.list (block.items.drop 1))).items)).encode.length < 2 ^ 64 :=
    hstored.length_kept_lt (by simp)
  have hassemble := BlockChainSync.assemble_eq (P := P) hlt
  exact ⟨_, hkept.trans hassemble, (hstored.assemble_eq_iff hlt hassemble).trans
    (BlockChainSync.fits_iff hstored none)⟩

theorem assembled_of_answers {block : Rlp} {now : ℕ} {id : NodeID} {r₀ r₁ : Request}
    (hstored : BlockChainSync.StoredBlock P block info)
    (hreach : (system P).Reach (fun _ _ => True) r₀)
    (hstores : (stores P r₀ (.insertHead now id (block.item P.payload 0))).isSome)
    (hrun : r₀.insertHead P now id (block.item P.payload 0) = .ok r₁)
    (hsame : SameEntry (info.number % 2 ^ 32) info.roots r₁ r)
    (hbody : r.insertBody P (.list (block.items.drop 1)) = .ok r') :
    ∃ x, r'.assembled P (info.number % 2 ^ 32) = some x ∧
      (x = block.encode ↔ BlockChainSync.Fits P info none block) :=
  ((awaits_insertHead hreach hstored.header hstores hrun).of_same hsame).assembled hstored hbody

end Request

namespace BlockChainSync

/-! ## What is downloaded -/

/-- A node gets the header of a stored block, and later the body that the server gives for it,
while it has kept what it has for the number.  Both clients then put the block together exactly
if it fits: a block with the roots of an empty body has three items, and another block meets no
other body under its number. -/
theorem assembled_iff_fits {P : Prims} {block body : Rlp} {info : BlockHeader}
    {isKnown : H256 → Bool} {blockOf : H256 → Rlp} (hstored : StoredBlock P block info)
    (hknown : isKnown info.hash = true) (hblock : blockOf info.hash = block) (htree : body.IsTree)
    (hserved : blockBodies P isKnown blockOf [info.hash] = some (body.encode, 1)) :
    (∀ (host : Host) (s₀ s₁ s₂ s₃ : BlockChainSync), (system P).Reach (fun _ _ => True) s₀ →
      Takes P host (block.item P.payload 0) (info.number % 2 ^ 32) s₀ s₁ →
      (system P).Reach (fun _ _ => True) s₂ →
      SameEntry (info.number % 2 ^ 32) info.roots s₁ s₂ →
      (∀ b ∈ value s₂.bodies (info.number % 2 ^ 32),
        (Rlp.list (block.item P.payload 0 :: b.items)).encode.length < 2 ^ 64) →
      s₂.bodyRound P body = .ok s₃ →
        ∃ x, s₃.assembled P (info.number % 2 ^ 32) = some x ∧
          (∀ header y, (info.number % 2 ^ 32, header, y) ∈ s₃.pending P → y = some x) ∧
          (x = block.encode ↔ Fits P info (value s₂.bodies (info.number % 2 ^ 32)) block)) ∧
    ∀ (now : ℕ) (id : NodeID) (r₀ r₁ r₂ r₃ : Request),
      (Request.system P).Reach (fun _ _ => True) r₀ →
      (Request.stores P r₀ (.insertHead now id (block.item P.payload 0))).isSome →
      r₀.insertHead P now id (block.item P.payload 0) = .ok r₁ →
      Request.SameEntry (info.number % 2 ^ 32) info.roots r₁ r₂ →
      r₂.insertBody P body = .ok r₃ →
        ∃ x, r₃.assembled P (info.number % 2 ^ 32) = some x ∧
          (x = block.encode ↔ Fits P info none block) := by
  obtain rfl := hstored.served_eq hknown hblock htree hserved
  exact ⟨fun _ _ _ _ _ hreach htakes hreach' hsame hroom hrun =>
    assembled_of_answers hstored hreach htakes hreach' hsame hroom hrun,
    fun _ _ _ _ _ _ hreach hstores hrun hsame hbody =>
      Request.assembled_of_answers hstored hreach hstores hrun hsame hbody⟩

/-- Block 1 with a number of transactions and a signature list. -/
def signedBlock (txs : ℕ) : Rlp :=
  .list [Request.sampleHead 1 5 0 txs, .list (List.replicate txs (.data [7])), .list [], .data [9]]

/-- The header of that block. -/
def signedHeader (txs : ℕ) : BlockHeader :=
  { BlockHeader.sample 1 5 with
    transactionsRoot := Prims.sample.trieRootOver (List.replicate txs .null)
    hash := Prims.sample.sha3 (Request.sampleHead 1 5 0 txs) }

/-- A host that knows no block and has no peers. -/
def emptyHost : Host where
  blockStatus _ := .unknown
  isKnown _ := false
  number := 0
  currentHash := 0
  numberHash _ := 0
  difficulty := 0
  importBlock _ := .success
  unknownFull := false
  knownFull := false
  peers := []
  daoHardforkBlock := 0

theorem signedBlock_stored (txs : ℕ) (hroom : (signedBlock txs).encode.length < RLP.maxLength)
    (hheader : BlockHeader.ofHeader Prims.sample (Request.sampleHead 1 5 0 txs) =
      some (signedHeader txs)) : StoredBlock Prims.sample (signedBlock txs) (signedHeader txs) where
  tree := by
    simp [signedBlock, Request.sampleHead, BlockHeader.rlpWithoutSeal, Rlp.ofHash, Rlp.ofInt,
      Rlp.IsTree, Rlp.areTrees_iff]
  room := hroom
  itemCount := .inr rfl
  header := hheader
  roots := by
    have hlength : (List.replicate txs (Rlp.data [7])).length = (List.replicate txs Rlp.null).length := by
      rw [List.length_replicate, List.length_replicate]
    exact congrArg (fun k => (⟨BitVec.ofNat 256 (1 + k), 2⟩ : HeaderId)) hlength

/-- Both clients take the header of the block and then its body. -/
structure Answered (txs : ℕ) (s₁ s₃ : BlockChainSync) (r₁ r₃ : Request) : Prop where
  takes : Takes Prims.sample emptyHost (Request.sampleHead 1 5 0 txs) 1 (start 0 0 0) s₁
  body : s₁.bodyRound Prims.sample (.list ((signedBlock txs).items.drop 1)) = .ok s₃
  head : (Request.start 0 0).insertHead Prims.sample 0 1 (Request.sampleHead 1 5 0 txs) = .ok r₁
  inserted : r₁.insertBody Prims.sample (.list ((signedBlock txs).items.drop 1)) = .ok r₃

theorem exists_goOn {x : Except Fault Round} {p : BlockChainSync → Bool}
    (h : (match x with | .ok (.goOn s) => p s | _ => false) = true) :
    ∃ s, x = .ok (.goOn s) ∧ p s = true := by
  split at h
  · exact ⟨_, rfl, h⟩
  · cases h

theorem reach_start : (system Prims.sample).Reach (fun _ _ => True) (start 0 0 0) :=
  .init ⟨0, 0, 0, rfl⟩

theorem Takes.reach {P : Prims} {host : Host} {item : Rlp} {n : ℕ} {s s' : BlockChainSync}
    (h : Takes P host item n s s') (hreach : (system P).Reach (fun _ _ => True) s) :
    (system P).Reach (fun _ _ => True) s' := by
  have hstep : step P s (.headerRound host item) = .ok s' := by
    rw [step, h.round]
    rfl
  exact reach_step hreach trivial hstep

theorem exists_answered (txs : ℕ)
    (hround : (match (start 0 0 0).headerRound Prims.sample emptyHost (Request.sampleHead 1 5 0 txs) with
      | .ok (.goOn s) => haveItem s.headers 1 && (txs == 0 || !haveItem s.bodies 1) | _ => false) = true)
    (hhead : ((Request.start 0 0).insertHead Prims.sample 0 1
      (Request.sampleHead 1 5 0 txs)).toOption.any (fun r =>
        (r.insertBody Prims.sample (.list ((signedBlock txs).items.drop 1))).toOption.any
          fun _ => true) = true) :
    ∃ s₁ s₃ r₁ r₃, Answered txs s₁ s₃ r₁ r₃ ∧ (txs = 0 ∨ value s₁.bodies 1 = none) := by
  obtain ⟨s₁, hs₁, hchecks⟩ := exists_goOn hround
  obtain ⟨r₁, hr₁, hbody⟩ := Request.exists_ok hhead
  obtain ⟨r₃, hr₃, -⟩ := Request.exists_ok hbody
  rw [Bool.and_eq_true] at hchecks
  have htakes : Takes Prims.sample emptyHost (Request.sampleHead 1 5 0 txs) 1 (start 0 0 0) s₁ :=
    ⟨hs₁, rfl, hchecks.1⟩
  have hwell : s₁.WellKept := wellKept_reach (htakes.reach reach_start)
  have habs : txs = 0 ∨ value s₁.bodies 1 = none := by
    have hcheck := hchecks.2
    rw [Bool.or_eq_true, beq_iff_eq, haveItem_eq hwell.bodies] at hcheck
    exact hcheck.imp_right fun h => by simpa using h
  rcases bodyRound_cases (P := Prims.sample) hwell (.list ((signedBlock txs).items.drop 1)) with
    ⟨hrun, -⟩ | ⟨-, s₃, hrun, -⟩
  · exact ⟨s₁, s₁, r₁, r₃, ⟨htakes, hrun, hr₁, hr₃⟩, habs⟩
  · exact ⟨s₁, s₃, r₁, r₃, ⟨htakes, hrun, hr₁, hr₃⟩, habs⟩

/-- Block 1 with one transaction comes as it was served. -/
theorem assembled_iff_fits_signed : ∃ s₁ s₃ r₁ r₃, Answered 1 s₁ s₃ r₁ r₃ ∧
    s₃.assembled Prims.sample 1 = some (signedBlock 1).encode ∧
    r₃.assembled Prims.sample 1 = some (signedBlock 1).encode := by
  obtain ⟨s₁, s₃, r₁, r₃, h, habs⟩ := exists_answered 1 (by decide +kernel) (by decide +kernel)
  have hstored : StoredBlock Prims.sample (signedBlock 1) (signedHeader 1) :=
    signedBlock_stored 1 (by decide +kernel) (by decide +kernel)
  have hnone : value s₁.bodies ((signedHeader 1).number % 2 ^ 32) = none := habs.resolve_left (by decide)
  have hfits : Fits Prims.sample (signedHeader 1) none (signedBlock 1) := by
    rw [Fits, if_neg (by decide +kernel)]
    simp
  have htree : (Rlp.list ((signedBlock 1).items.drop 1)).IsTree := hstored.areTrees.2
  have hserved : blockBodies Prims.sample (fun _ => true) (fun _ => signedBlock 1)
      [(signedHeader 1).hash] = some ((Rlp.list ((signedBlock 1).items.drop 1)).encode, 1) :=
    hstored.blockBodies_eq rfl rfl
  have hboth := assembled_iff_fits hstored rfl rfl htree hserved
  obtain ⟨x, hx, -, hiff⟩ := hboth.1 emptyHost (start 0 0 0) s₁ s₁ s₃ reach_start h.takes
    (h.takes.reach reach_start) ⟨rfl, rfl, rfl⟩ (by
      rw [hnone]
      rintro b ⟨⟩) h.body
  obtain ⟨y, hy, hiff'⟩ := hboth.2 0 1 (Request.start 0 0) r₁ r₁ r₃ (.init ⟨0, 0, rfl⟩)
    (by decide +kernel) h.head ⟨rfl, rfl⟩ h.inserted
  rw [hnone] at hiff
  rw [hiff.mpr hfits] at hx
  rw [hiff'.mpr hfits] at hy
  exact ⟨s₁, s₃, r₁, r₃, h, hx, hy⟩

/-- Block 1 without transactions comes without its signature list. -/
theorem signed_empty_block_differs : StoredBlock Prims.sample (signedBlock 0) (signedHeader 0) ∧
    blockBodies Prims.sample (fun _ => true) (fun _ => signedBlock 0) [(signedHeader 0).hash] =
      some ((Rlp.list ((signedBlock 0).items.drop 1)).encode, 1) ∧
    ∃ s₁ s₃ r₁ r₃, Answered 0 s₁ s₃ r₁ r₃ ∧
      (∃ x, s₃.assembled Prims.sample 1 = some x ∧ x ≠ (signedBlock 0).encode) ∧
      ∃ x, r₃.assembled Prims.sample 1 = some x ∧ x ≠ (signedBlock 0).encode := by
  obtain ⟨s₁, s₃, r₁, r₃, h, -⟩ := exists_answered 0 (by decide +kernel) (by decide +kernel)
  have hstored : StoredBlock Prims.sample (signedBlock 0) (signedHeader 0) :=
    signedBlock_stored 0 (by decide +kernel) (by decide +kernel)
  have hmade : value s₁.bodies ((signedHeader 0).number % 2 ^ 32) = some emptyBody :=
    (h.takes.awaits (wellKept_reach reach_start) hstored.header).made (by decide +kernel)
  have hfits : ∀ old, ¬Fits Prims.sample (signedHeader 0) old (signedBlock 0) := by
    intro old
    rw [Fits, if_pos (by decide +kernel)]
    decide
  obtain ⟨x, hx, -, hiff⟩ := assembled_of_answers hstored reach_start h.takes (h.takes.reach reach_start)
    ⟨rfl, rfl, rfl⟩ (by
      rw [hmade]
      rintro b ⟨⟩
      decide +kernel) h.body
  obtain ⟨y, hy, hiff'⟩ := Request.assembled_of_answers hstored (.init ⟨0, 0, rfl⟩)
    (by decide +kernel) h.head ⟨rfl, rfl⟩ h.inserted
  exact ⟨hstored, hstored.blockBodies_eq rfl rfl, s₁, s₃, r₁, r₃, h, ⟨x, hx, fun heq => hfits _ (hiff.mp heq)⟩,
    y, hy, fun heq => hfits _ (hiff'.mp heq)⟩

end BlockChainSync

end CppSwc
