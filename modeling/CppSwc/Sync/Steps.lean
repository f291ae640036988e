import CppSwc.Sync.BlockChainSync

/-!
# What a step of a download does

A round of `onPeerBlockHeaders` leaves the downloaded items alone, resets them, or stores its
header, perhaps after the headers above it have been cleared.  The other steps have fewer cases.
In every run the containers of headers and bodies are well formed.
-/

namespace CppSwc.BlockChainSync

open Lib Lib.Segments

variable {P : Prims} {host : Host} {s s' s₁ : BlockChainSync} {n : ℕ}

/-- The downloaded items and the index are the same. -/
structure SameItems (s s' : BlockChainSync) : Prop where
  headers : s'.headers = s.headers
  bodies : s'.bodies = s.bodies
  index : s'.headerIdToNumber = s.headerIdToNumber

/-- Nothing is downloaded. -/
structure Fresh (s : BlockChainSync) : Prop where
  headers : s.headers = []
  bodies : s.bodies = []
  index : s.headerIdToNumber = ∅

theorem SameItems.refl : SameItems s s := ⟨rfl, rfl, rfl⟩

theorem SameItems.trans {s'' : BlockChainSync} (h : SameItems s s') (h' : SameItems s' s'') :
    SameItems s s'' :=
  ⟨h'.headers.trans h.headers, h'.bodies.trans h.bodies, h'.index.trans h.index⟩

theorem fresh_resetSync : Fresh s.resetSync := ⟨rfl, rfl, rfl⟩

theorem fresh_restartSync : Fresh (s.restartSync host) := ⟨rfl, rfl, rfl⟩

theorem fresh_completeSync : Fresh s.completeSync := ⟨rfl, rfl, rfl⟩

/-! ## Rounds over headers -/

/-- A header that a round looks at, and that the node does not know. -/
def Unknown (P : Prims) (host : Host) (item : Rlp) (s : BlockChainSync) (info : BlockHeader) : Prop :=
  BlockHeader.ofHeader P item = some info ∧ s.chainStartBlock ≤ info.number % 2 ^ 32 ∧
    haveItem s.headers (info.number % 2 ^ 32) = false ∧
    ¬(info.number % 2 ^ 32 ≤ s.lastImportedBlock ∧ s.haveCommonHeader) ∧
    host.known info.hash = false

/-- The headers above are cleared before the header is stored. -/
def Clears (info : BlockHeader) (s : BlockChainSync) : Prop :=
  s.haveCommonHeader ∧ s.mismatchesPrevious info (info.number % 2 ^ 32) = false ∧
    s.mismatchesNext info (info.number % 2 ^ 32)

/-- The entry for a header. -/
def entryOf (item : Rlp) (info : BlockHeader) : Header := ⟨item, info.hash, info.parentHash⟩

/-- What a round does. -/
inductive HeaderCase (P : Prims) (host : Host) (item : Rlp) (s : BlockChainSync) :
    Except Fault BlockChainSync → Prop where
  | same {s' : BlockChainSync} : SameItems s s' → HeaderCase P host item s (.ok s')
  | reset {s' : BlockChainSync} : Fresh s' → HeaderCase P host item s (.ok s')
  | store {info : BlockHeader} {s₁ : BlockChainSync} : Unknown P host item s info → ¬Clears info s → SameItems s s₁ →
      HeaderCase P host item s
        (s₁.storeHeader P (entryOf item info) info.roots (info.number % 2 ^ 32))
  | replace {info : BlockHeader} {s₁ s₂ : BlockChainSync} : Unknown P host item s info → Clears info s → SameItems s s₁ →
      s₁.clearFollowing info.roots (nextNumber (info.number % 2 ^ 32)) = some s₂ →
      HeaderCase P host item s
        (s₂.storeHeader P (entryOf item info) info.roots (info.number % 2 ^ 32))

theorem map_state_goOn (x : Except Fault BlockChainSync) : (x.map Round.goOn).map Round.state = x := by
  cases x <;> rfl

theorem commonHeader_cases {info : BlockHeader} :
    SameItems s (s.commonHeader host info n).state ∨ Fresh (s.commonHeader host info n).state := by
  rw [commonHeader]
  dsimp only
  split
  · split
    · exact .inr fresh_restartSync
    · exact .inl ⟨rfl, rfl, rfl⟩
  · exact .inl ⟨rfl, rfl, rfl⟩

theorem headerRound_cases (item : Rlp) :
    HeaderCase P host item s ((s.headerRound P host item).map Round.state) := by
  rw [headerRound]
  cases hinfo : BlockHeader.ofHeader P item with
  | none => exact .same .refl
  | some info =>
      dsimp only
      split
      · exact .same .refl
      · rename_i hstart
        split
        · exact .same .refl
        · rename_i hhave
          split
          · exact .same .refl
          · rename_i hold
            have hhighest : SameItems s
                { s with highestBlock := max s.highestBlock (info.number % 2 ^ 32) } := ⟨rfl, rfl, rfl⟩
            split
            · rcases commonHeader_cases with hsame | hfresh
              · exact .same (hhighest.trans hsame)
              · exact .reset hfresh
            · rename_i hknown
              have hunknown : Unknown P host item s info :=
                ⟨hinfo, not_lt.mp hstart, by simpa using hhave, hold, by simpa using hknown⟩
              rw [newHeader]
              split
              · exact .reset fresh_restartSync
              · rename_i hprevious
                split
                · exact .same hhighest
                · rename_i s₂ hcleared
                  rw [map_state_goOn]
                  split at hcleared
                  · rename_i hnext
                    rw [Bool.and_eq_true] at hnext
                    have hclears : Clears info s := by
                      refine ⟨hnext.1, ?_, hnext.2⟩
                      rw [Bool.and_eq_true, not_and, Bool.not_eq_true] at hprevious
                      exact hprevious hnext.1
                    exact .replace hunknown hclears hhighest hcleared
                  · rename_i hnext
                    cases hcleared
                    refine .store hunknown (fun hclears => hnext ?_) hhighest
                    rw [Bool.and_eq_true]
                    exact ⟨hclears.1, hclears.2.2⟩

/-! ## Asking peers -/

theorem askHeaders_spec {downloading : Finset ℕ} {start k : ℕ} {next lo : Chunks Header}
    {numbers : List ℕ} (h : WellFormed (lo ++ next)) (hlo : ∀ c ∈ lo, c.1 + c.2.length ≤ start)
    (hnext : ∀ c ∈ next, start < c.1) (hask : askHeaders downloading start next = some (k, numbers)) :
    value (lo ++ next) k = none := by
  induction start, next using askHeaders.induct downloading generalizing lo with
  | case1 start =>
      rw [askHeaders] at hask
      cases hask
  | case2 start first chunk next hmissing =>
      rw [askHeaders] at hask
      rw [dif_pos hmissing] at hask
      cases hask
      obtain ⟨hsum, hle, hnil⟩ := gapStart_spec downloading start first
      have hpos : (gapStart downloading start first).2 ≠ 0 := fun hzero => hmissing (hnil.mpr hzero)
      have hfirst : start < first := hnext _ (.head _)
      have hbelow : (gapStart downloading start first).1 < first := by omega
      have hafter : ∀ c ∈ (first, chunk) :: next, (gapStart downloading start first).1 < c.1 := by
        obtain ⟨-, -, -, hhi, -⟩ := wellFormed_append_cons.mp h
        rintro c (_ | ⟨_, hc⟩)
        · exact hbelow
        · have := hhi c hc
          omega
      rw [value_append, value_of_before fun c hc => (hlo c hc).trans hle, value_of_after hafter]
      rfl
  | case3 start first chunk next hnone hreached ih =>
      rw [askHeaders] at hask
      rw [dif_neg hnone, if_pos hreached] at hask
      obtain ⟨-, -, hlo', hhi, -⟩ := wellFormed_append_cons.mp h
      rw [List.append_cons] at h ⊢
      refine ih h (fun c hc => ?_) hhi hask
      rcases List.mem_append.mp hc with hc | hc
      · have := hlo' c hc
        omega
      · rw [List.mem_singleton.mp hc]
  | case4 start first chunk next hnone hreached ih =>
      rw [askHeaders] at hask
      rw [dif_neg hnone, if_neg hreached] at hask
      obtain ⟨-, hle, -⟩ := gapStart_spec downloading start first
      obtain ⟨-, -, -, hhi, -⟩ := wellFormed_append_cons.mp h
      refine ih h (fun c hc => (hlo c hc).trans hle) ?_ hask
      rintro c (_ | ⟨_, hc⟩)
      · exact not_le.mp hreached
      · have := hhi c hc
        omega

/-- The containers are well formed. -/
structure WellKept (s : BlockChainSync) : Prop where
  headers : WellFormed s.headers
  bodies : WellFormed s.bodies

theorem WellKept.of_same (h : s.WellKept) (hsame : SameItems s s') : s'.WellKept :=
  ⟨hsame.headers ▸ h.headers, hsame.bodies ▸ h.bodies⟩

theorem Fresh.wellKept (h : Fresh s) : s.WellKept := by
  refine ⟨?_, ?_⟩
  · rw [h.headers]
    exact .nil
  · rw [h.bodies]
    exact .nil

theorem searchStart_same : SameItems s (s.searchStart host) := ⟨rfl, rfl, rfl⟩

theorem requestHeaders_spec (host : Host) (h : s.WellKept) (peer : NodeID) :
    ∃ s' ask, s.requestHeaders host peer = .ok (s', ask) ∧ SameItems s s' := by
  have hsearch : SameItems s (if s.haveCommonHeader then s else s.searchStart host) := by
    split
    · exact .refl
    · exact searchStart_same
  rw [requestHeaders]
  generalize (if s.haveCommonHeader then s else s.searchStart host) = s₁ at hsearch
  have hwell : WellFormed s₁.headers := hsearch.headers ▸ h.headers
  dsimp only
  split
  · split
    · exact ⟨s₁, none, rfl, hsearch⟩
    · rename_i start numbers hask
      have hnone : value s₁.headers start = none := by
        split at hask
        · rename_i first chunk next hheaders
          rw [hheaders] at hwell ⊢
          have hsplit : WellFormed ([] ++ (first, chunk) :: next) := hwell
          have hcons : WellFormed ([(first, chunk)] ++ next) := hwell
          obtain ⟨-, -, -, hhi, -⟩ := wellFormed_append_cons.mp hsplit
          split at hask
          · refine askHeaders_spec hcons ?_ hhi hask
            rintro c (_ | ⟨_, ⟨⟩⟩)
            exact le_rfl
          · rename_i hstart
            rw [hheaders] at hask
            refine askHeaders_spec hsplit (by simp) ?_ hask
            rintro c (_ | ⟨_, hc⟩)
            · exact not_le.mp hstart
            · have := hhi c hc
              omega
        · cases hask
      rw [if_neg (by rw [haveItem_eq hwell, hnone]; exact Bool.false_ne_true)]
      exact ⟨_, _, rfl, hsearch.trans ⟨rfl, rfl, rfl⟩⟩
  · exact ⟨s₁, _, rfl, hsearch⟩

theorem clearPeerDownload_same (peer : NodeID) : SameItems s (s.clearPeerDownload peer) :=
  ⟨rfl, rfl, rfl⟩

/-- `requestBlocks` changes no downloaded item, and its assertion holds. -/
theorem requestBlocks_spec (host : Host) (h : s.WellKept) (peer : NodeID) :
    ∃ s' ask, s.requestBlocks host peer = .ok (s', ask) ∧ SameItems s s' := by
  have hclear : SameItems s (s.clearPeerDownload peer) := clearPeerDownload_same peer
  rw [requestBlocks]
  generalize s.clearPeerDownload peer = s₁ at hclear
  split
  · exact ⟨_, _, rfl, hclear.trans ⟨rfl, rfl, rfl⟩⟩
  · split
    · exact ⟨_, _, rfl, hclear.trans ⟨rfl, rfl, rfl⟩⟩
    · obtain ⟨s', ask, hrun, hsame⟩ := requestHeaders_spec host (h.of_same hclear) peer
      exact ⟨s', ask, hrun, hclear.trans hsame⟩

/-- So does `syncPeer`. -/
theorem syncPeer_spec (host : Host) (h : s.WellKept) (force : Bool) (peer : Peer) :
    ∃ s' ask, s.syncPeer host force peer = .ok (s', ask) ∧ SameItems s s' := by
  rw [syncPeer]
  split
  · exact ⟨_, _, rfl, .refl⟩
  · split
    · exact ⟨_, _, rfl, ⟨rfl, rfl, rfl⟩⟩
    · split
      · exact requestBlocks_spec host h peer.id
      · exact ⟨_, _, rfl, .refl⟩

/-! ## Storing -/

/-- A number that is absent is merged. -/
theorem exists_mergeInto {T : Type} {c : Chunks T} (h : WellFormed c) (hn : n < 2 ^ 32)
    (habs : value c n = none) (data : T) : ∃ c', mergeInto c n data = some c' ∧ WellFormed c' ∧
      ∀ x, value c' x = if x = n then some data else value c x := by
  refine mergeInto_spec h hn ?_ data
  rw [haveItem_eq h, habs]
  rfl

/-- What `storeHeader` leaves behind. -/
structure StoresHeader (P : Prims) (header : Header) (headerId : HeaderId) (n : ℕ)
    (s s' : BlockChainSync) : Prop where
  wellKept : s'.WellKept
  headers : ∀ x, value s'.headers x = if x = n then some header else value s.headers x
  bodies : ∀ x, value s'.bodies x =
    if x = n ∧ headerId = P.emptyRoots then some emptyBody else value s.bodies x
  index : s'.headerIdToNumber = if headerId = P.emptyRoots then s.headerIdToNumber
    else s.headerIdToNumber.insert headerId n

theorem storeHeader_spec (h : s.WellKept) (hn : n < 2 ^ 32) (habs : value s.headers n = none)
    {headerId : HeaderId} (hbody : headerId = P.emptyRoots → value s.bodies n = none)
    (header : Header) : ∃ s', s.storeHeader P header headerId n = .ok s' ∧
      StoresHeader P header headerId n s s' := by
  obtain ⟨headers, hmerge, hwell, hvalue⟩ := exists_mergeInto h.headers hn habs header
  rw [storeHeader, hmerge]
  dsimp only
  split
  · rename_i hempty
    obtain ⟨bodies, hmerge', hwell', hvalue'⟩ := exists_mergeInto h.bodies hn (hbody hempty) emptyBody
    rw [hmerge']
    refine ⟨_, rfl, ⟨hwell, hwell'⟩, hvalue, fun x => ?_, (if_pos hempty).symm⟩
    rw [hvalue' x]
    exact if_congr (by rw [and_iff_left hempty]) rfl rfl
  · rename_i hempty
    refine ⟨_, rfl, ⟨hwell, h.bodies⟩, hvalue, fun x => ?_, (if_neg hempty).symm⟩
    rw [if_neg fun hboth => hempty hboth.2]

theorem storesHeader_of_ok (h : s.WellKept) {headerId : HeaderId} {header : Header} (hn : n < 2 ^ 32)
    (habs : value s.headers n = none) (hrun : s.storeHeader P header headerId n = .ok s') :
    StoresHeader P header headerId n s s' := by
  have hbody : headerId = P.emptyRoots → value s.bodies n = none := by
    intro hempty
    rw [storeHeader] at hrun
    split at hrun
    · cases hrun
    · rw [if_pos hempty] at hrun
      split at hrun
      · cases hrun
      · rename_i hmerge
        rw [← Option.not_isSome_iff_eq_none, ← haveItem_eq h.bodies]
        intro hhave
        rw [mergeInto, if_pos hhave] at hmerge
        cases hmerge
  obtain ⟨s'', hrun', hstores⟩ := storeHeader_spec h hn habs hbody header
  cases hrun.symm.trans hrun'
  exact hstores

/-- What `clearFollowing` leaves behind. -/
theorem clearFollowing_spec (h : s.WellKept) {headerId : HeaderId}
    (hrun : s.clearFollowing headerId n = some s') :
    s'.WellKept ∧ (∀ x, value s'.headers x = if x < n then value s.headers x else none) ∧
      (∀ x, value s'.bodies x = if x < n then value s.bodies x else none) ∧
      s'.headerIdToNumber = s.headerIdToNumber.erase headerId := by
  obtain ⟨chunk, -, rfl⟩ := Option.map_eq_some_iff.mp hrun
  obtain ⟨hheaders, hvalue⟩ := value_removeAllStartingWith h.headers n
  obtain ⟨hbodies, hvalue'⟩ := value_removeAllStartingWith h.bodies n
  exact ⟨⟨hheaders, hbodies⟩, hvalue, hvalue', rfl⟩

/-! ## Removing -/

theorem dropFirst_spec {T : Type} {first i : ℕ} {chunk : List T} {c : Chunks T}
    (h : WellFormed ((first, chunk) :: c)) (hi : i ≤ chunk.length) :
    WellFormed (dropFirst i ((first, chunk) :: c)) ∧ ∀ x,
      value (dropFirst i ((first, chunk) :: c)) x =
        if first ≤ x ∧ x < first + i then none else value ((first, chunk) :: c) x := by
  have hsplit : WellFormed ([] ++ (first, chunk) :: c) := h
  obtain ⟨hrest, -, -, hhi, hle⟩ := wellFormed_append_cons.mp hsplit
  have hafter : ∀ {x : ℕ}, x < first + chunk.length → value c x = none := fun hx =>
    value_of_after fun s hs => hx.trans (hhi s hs)
  rw [dropFirst]
  split
  · rename_i hnil
    rw [List.drop_eq_nil_iff] at hnil
    obtain rfl : i = chunk.length := le_antisymm hi hnil
    refine ⟨hrest, fun x => ?_⟩
    rw [value_cons]
    split
    · rename_i hin
      exact hafter hin.2
    · rename_i hout
      rcases lt_or_ge x first with hlt | hge
      · rw [valueAt_of_lt (s := (first, chunk)) hlt, Option.none_or]
      · rw [valueAt_of_le (s := (first, chunk)) (by dsimp only; omega), Option.none_or]
  · rename_i hsome
    rw [List.drop_eq_nil_iff, not_le] at hsome
    have hkey : (first + i) % 2 ^ 32 = first + i := Nat.mod_eq_of_lt (by omega)
    have hlen : first + i + (chunk.drop i).length = first + chunk.length := by
      rw [List.length_drop]
      omega
    rw [hkey]
    refine ⟨?_, fun x => ?_⟩
    · change WellFormed ([] ++ (first + i, chunk.drop i) :: c)
      refine wellFormed_append_cons.mpr ⟨hrest, ?_, by simp, ?_, ?_⟩
      · rw [Ne, List.drop_eq_nil_iff]
        omega
      · rwa [hlen]
      · rwa [hlen]
    · rw [value_cons, value_cons, valueAt, valueAt]
      dsimp only
      split
      · rename_i hge
        rw [List.getElem?_drop, if_neg (by omega), if_pos (by omega)]
        congr 2
        omega
      · rename_i hlt
        rw [Option.none_or]
        split
        · rename_i hin
          exact hafter (by omega)
        · rw [if_neg (by omega), Option.none_or]

/-- The results after which `collectBlocks` goes on to the next block. -/
def goesOn : ImportResult → Bool
  | .success | .futureTimeKnown | .alreadyInChain | .overbidGasPrice | .zeroSignature => true
  | .malformed | .badChain | .alreadyKnown | .futureTimeUnknown | .unknownParent => false

/-- `collectBlocks` imports all pending blocks, and removes them. -/
def Collects (P : Prims) (host : Host) (s : BlockChainSync) : Prop :=
  host.unknownFull = false ∧ ∀ b ∈ s.pending P, b.2.2.isSome ∧ goesOn (host.importBlock b.1)

/-- After a fork is detected nothing is downloaded, or all is as before. -/
theorem collectLoop_forked {header : Header} {block : Bytes}
    {blocks : List (ℕ × Header × Option Bytes)} {result : ImportResult}
    (hresult : host.importBlock n = result)
    (hforked : result = .alreadyKnown ∨ result = .futureTimeUnknown ∨ result = .unknownParent) :
    ∃ s', collectLoop host ((n, header, some block) :: blocks) s = .leave s' ∧
      (SameItems s s' ∨ Fresh s') := by
  have hleave : collectLoop host ((n, header, some block) :: blocks) s = .leave
      (if s.lastImportedBlock < n then { s.resetSync with haveCommonHeader := false } else s) := by
    rcases hforked with rfl | rfl | rfl
    all_goals rw [collectLoop, hresult]
  refine ⟨_, hleave, ?_⟩
  split
  · exact .inr ⟨rfl, rfl, rfl⟩
  · exact .inl .refl

theorem collectLoop_cases (blocks : List (ℕ × Header × Option Bytes)) (s : BlockChainSync) :
    (∃ s', collectLoop host blocks s = .goOn s' ∧ SameItems s s' ∧
      ∀ b ∈ blocks, b.2.2.isSome ∧ goesOn (host.importBlock b.1)) ∨
    ∃ s', collectLoop host blocks s = .leave s' ∧ (SameItems s s' ∨ Fresh s') := by
  induction blocks generalizing s with
  | nil => exact .inl ⟨s, rfl, .refl, by simp⟩
  | cons b blocks ih =>
      obtain ⟨n, header, block⟩ := b
      cases block with
      | none => exact .inr ⟨s, rfl, .inl .refl⟩
      | some block =>
          -- a result that goes on
          have hnext : ∀ s₁, SameItems s s₁ → goesOn (host.importBlock n) →
              collectLoop host ((n, header, some block) :: blocks) s = collectLoop host blocks s₁ →
              (∃ s', collectLoop host ((n, header, some block) :: blocks) s = .goOn s' ∧
                SameItems s s' ∧ ∀ b ∈ (n, header, some block) :: blocks,
                  b.2.2.isSome ∧ goesOn (host.importBlock b.1)) ∨
              ∃ s', collectLoop host ((n, header, some block) :: blocks) s = .leave s' ∧
                (SameItems s s' ∨ Fresh s') := by
            intro s₁ hsame hgoes heq
            rw [heq]
            rcases ih s₁ with ⟨s', hrun, hsame', hall⟩ | ⟨s', hrun, hcase⟩
            · refine .inl ⟨s', hrun, hsame.trans hsame', ?_⟩
              rintro b (_ | ⟨_, hb⟩)
              · exact ⟨rfl, hgoes⟩
              · exact hall b hb
            · exact .inr ⟨s', hrun, hcase.imp_left hsame.trans⟩
          cases hresult : host.importBlock n with
          | success =>
              refine hnext (if s.lastImportedBlock < n then _ else s) ?_ (by rw [hresult]; rfl)
                (by rw [collectLoop, hresult])
              split
              · exact ⟨rfl, rfl, rfl⟩
              · exact .refl
          | futureTimeKnown => exact hnext s .refl (by rw [hresult]; rfl) (by rw [collectLoop, hresult])
          | alreadyInChain => exact hnext s .refl (by rw [hresult]; rfl) (by rw [collectLoop, hresult])
          | overbidGasPrice => exact hnext s .refl (by rw [hresult]; rfl) (by rw [collectLoop, hresult])
          | zeroSignature => exact hnext s .refl (by rw [hresult]; rfl) (by rw [collectLoop, hresult])
          | malformed =>
              exact .inr ⟨s.restartSync host, by rw [collectLoop, hresult], .inr fresh_restartSync⟩
          | badChain =>
              exact .inr ⟨s.restartSync host, by rw [collectLoop, hresult], .inr fresh_restartSync⟩
          | alreadyKnown => exact .inr (collectLoop_forked hresult (by simp))
          | futureTimeUnknown => exact .inr (collectLoop_forked hresult (by simp))
          | unknownParent => exact .inr (collectLoop_forked hresult (by simp))

/-! ## Steps -/

theorem value_eq_none {T : Type} {c : Chunks T} (h : WellFormed c) (habs : haveItem c n = false) :
    value c n = none := by
  rw [← Option.not_isSome_iff_eq_none, ← haveItem_eq h, habs]
  exact Bool.false_ne_true

/-- What a step does. -/
inductive StepCase (P : Prims) (s : BlockChainSync) : Op → Except Fault BlockChainSync → Prop where
  | same {op : Op} {s' : BlockChainSync} : SameItems s s' → StepCase P s op (.ok s')
  | reset {op : Op} {s' : BlockChainSync} : Fresh s' → StepCase P s op (.ok s')
  | header {host : Host} {item : Rlp} {r : Except Fault BlockChainSync} :
      HeaderCase P host item s r → StepCase P s (.headerRound host item) r
  | body (body : Rlp) : StepCase P s (.bodyRound body) (s.bodyRound P body)
  | collect {host : Host} {first : ℕ} {headers : List Header} {bodies : List Rlp}
      {s₁ : BlockChainSync} : s.firstChunks = some (first, headers, bodies) → Collects P host s →
      SameItems s s₁ → StepCase P s (.collectBlocks host)
        (s₁.removeCollected (min headers.length bodies.length))
  | imported {info : BlockHeader} {s₁ : BlockChainSync} : SameItems s s₁ →
      StepCase P s (.blockImported info) (.ok (s₁.removeImported (info.number % 2 ^ 32)))

theorem collectBlocks_cases : StepCase P s (.collectBlocks host) (s.collectBlocks P host) := by
  rw [collectBlocks]
  split
  · exact .same .refl
  · rename_i first headers bodies hfirst
    rcases collectLoop_cases (s.pending P) s with ⟨s₁, hrun, hsame, hall⟩ | ⟨s₁, hrun, hsame | hfresh⟩
    · rw [hrun]
      dsimp only
      split
      · exact .reset fresh_restartSync
      · rename_i hfull
        exact .collect hfirst ⟨Bool.not_eq_true _ ▸ hfull, hall⟩ hsame
    · rw [hrun]
      exact .same hsame
    · rw [hrun]
      exact .reset hfresh

/-- Every step does one of these. -/
theorem step_cases (h : s.WellKept) (op : Op) : StepCase P s op (step P s op) := by
  cases op with
  | headerRound host item => exact .header (headerRound_cases item)
  | bodyRound body => exact .body body
  | collectBlocks host => exact collectBlocks_cases
  | requestBlocks host peer =>
      obtain ⟨s', ask, hrun, hsame⟩ := requestBlocks_spec host h peer
      rw [step, hrun]
      exact .same hsame
  | syncPeer host force peer =>
      obtain ⟨s', ask, hrun, hsame⟩ := syncPeer_spec host h force peer
      rw [step, hrun]
      exact .same hsame
  | blockImported info =>
      refine .imported ?_
      split
      · exact ⟨rfl, rfl, rfl⟩
      · exact ⟨rfl, rfl, rfl⟩
  | clearPeerDownload peer => exact .same (clearPeerDownload_same peer)
  | onBlockImported info =>
      refine .same ?_
      rw [onBlockImported]
      split
      · exact ⟨rfl, rfl, rfl⟩
      · exact .refl
  | resetSync => exact .reset fresh_resetSync
  | restartSync host => exact .reset fresh_restartSync
  | completeSync => exact .reset fresh_completeSync
  | roomAvailable => exact .same ⟨rfl, rfl, rfl⟩
  | challenge peer => exact .same ⟨rfl, rfl, rfl⟩
  | answer peer => exact .same ⟨rfl, rfl, rfl⟩

/-- The first chunks of the containers. -/
theorem firstChunks_eq_some {first : ℕ} {headers : List Header} {bodies : List Rlp}
    (h : s.firstChunks = some (first, headers, bodies)) :
    (∃ rest, s.headers = (first, headers) :: rest) ∧ ∃ rest, s.bodies = (first, bodies) :: rest := by
  rw [firstChunks] at h
  split at h
  · rename_i hheaders hbodies
    split at h
    · cases h
    · rename_i hfirst
      cases h
      rw [not_or, not_not] at hfirst
      rw [← hfirst.1] at hbodies
      exact ⟨⟨_, hheaders⟩, ⟨_, hbodies⟩⟩
  · cases h

/-- An item of the first chunk. -/
theorem value_first {T : Type} {first i : ℕ} {chunk : List T} {c : Chunks T} (hi : i < chunk.length) :
    value ((first, chunk) :: c) (first + i) = chunk[i]? := by
  rw [value_cons, valueAt, if_pos (Nat.le_add_right _ _), Nat.add_sub_cancel_left,
    List.getElem?_eq_getElem hi]
  rfl

/-- What is left in the containers after `collectBlocks`. -/
theorem collected_spec (h : s.WellKept) {first : ℕ} {headers : List Header} {bodies : List Rlp}
    (hfirst : s.firstChunks = some (first, headers, bodies)) :
    let i := min headers.length bodies.length
    (WellFormed (dropFirst i s.headers) ∧ WellFormed (dropFirst i s.bodies)) ∧
      (∀ x, value (dropFirst i s.headers) x =
        if first ≤ x ∧ x < first + i then none else value s.headers x) ∧
      ∀ x, value (dropFirst i s.bodies) x =
        if first ≤ x ∧ x < first + i then none else value s.bodies x := by
  obtain ⟨⟨rest, hheaders⟩, rest', hbodies⟩ := firstChunks_eq_some hfirst
  have hwell := h.headers
  have hwell' := h.bodies
  rw [hheaders] at hwell ⊢
  rw [hbodies] at hwell' ⊢
  obtain ⟨hw, hv⟩ := dropFirst_spec hwell (min_le_left headers.length bodies.length)
  obtain ⟨hw', hv'⟩ := dropFirst_spec hwell' (min_le_right headers.length bodies.length)
  exact ⟨⟨hw, hw'⟩, hv, hv'⟩

theorem ok_of_toOption {x : Except Fault BlockChainSync} (h : x.toOption = some s) : x = .ok s := by
  cases x with
  | error fault => cases h
  | ok s' =>
      cases h
      rfl

/-- The number of an item is an `unsigned`. -/
theorem lt_of_value {T : Type} {c : Chunks T} (h : WellFormed c) (hn : (value c n).isSome) :
    n < 2 ^ 32 := by
  obtain ⟨v, hv⟩ := Option.isSome_iff_exists.mp hn
  obtain ⟨chunk, hmem, hat⟩ := List.exists_of_findSome?_eq_some hv
  have hin : (valueAt chunk n).isSome := by
    rw [hat]
    rfl
  have hle := h.stop_le chunk hmem
  rw [isSome_valueAt] at hin
  omega

/-- What a round over a body stores. -/
structure StoresBody (P : Prims) (body : Rlp) (n : ℕ) (s s' : BlockChainSync) : Prop where
  target : s.headerIdToNumber[bodyRoots P body]? = some n
  header : (value s.headers n).isSome
  absent : value s.bodies n = none
  wellKept : s'.WellKept
  headers : s'.headers = s.headers
  bodies : ∀ x, value s'.bodies x = if x = n then some body else value s.bodies x
  index : s'.headerIdToNumber = s.headerIdToNumber.erase (bodyRoots P body)

/-- A round over a body stores it, or does nothing because no header waits for it. -/
theorem bodyRound_cases (h : s.WellKept) (body : Rlp) :
    (s.bodyRound P body = .ok s ∧ ∀ n, s.headerIdToNumber[bodyRoots P body]? = some n →
        value s.headers n = none ∨ (value s.bodies n).isSome) ∨
      ∃ n s', s.bodyRound P body = .ok s' ∧ StoresBody P body n s s' := by
  rw [bodyRound]
  cases htarget : s.headerIdToNumber[bodyRoots P body]? with
  | none => exact .inl ⟨rfl, nofun⟩
  | some n =>
      dsimp only
      rw [haveItem_eq h.headers, haveItem_eq h.bodies]
      cases hheader : value s.headers n with
      | none =>
          refine .inl ⟨rfl, ?_⟩
          rintro m ⟨⟩
          exact .inl hheader
      | some header =>
          cases hbody : value s.bodies n with
          | some old =>
              refine .inl ⟨rfl, ?_⟩
              rintro m ⟨⟩
              exact .inr (by rw [hbody]; rfl)
          | none =>
              have hsome : (value s.headers n).isSome := by
                rw [hheader]
                rfl
              obtain ⟨bodies, hmerge, hwell, hvalue⟩ :=
                exists_mergeInto h.bodies (lt_of_value h.headers hsome) hbody body
              rw [hmerge]
              exact .inr ⟨n, _, rfl, htarget, hsome, hbody, ⟨h.headers, hwell⟩, rfl, hvalue, rfl⟩

/-- What a round leaves of the items below and above a header before it is stored. -/
theorem headerCase_store {item : Rlp} (h : s.WellKept)
    (hcase : HeaderCase P host item s (.ok s')) :
    SameItems s s' ∨ Fresh s' ∨ ∃ info s₁, Unknown P host item s info ∧ s₁.WellKept ∧
      value s₁.headers (info.number % 2 ^ 32) = none ∧
      StoresHeader P (entryOf item info) info.roots (info.number % 2 ^ 32) s₁ s' := by
  generalize hr : (.ok s' : Except Fault BlockChainSync) = r at hcase
  cases hcase with
  | same hsame =>
      cases hr
      exact .inl hsame
  | reset hfresh =>
      cases hr
      exact .inr (.inl hfresh)
  | @store info s₁ hunknown _ hsame =>
      have hwell := h.of_same hsame
      have habs : value s₁.headers (info.number % 2 ^ 32) = none := by
        rw [hsame.headers]
        exact value_eq_none h.headers hunknown.2.2.1
      exact .inr (.inr ⟨info, s₁, hunknown, hwell, habs,
        storesHeader_of_ok hwell (Nat.mod_lt _ (by decide)) habs hr.symm⟩)
  | @replace info s₁ s₂ hunknown _ hsame hclear =>
      obtain ⟨hwell, hheaders, -, -⟩ := clearFollowing_spec (h.of_same hsame) hclear
      have habs : value s₂.headers (info.number % 2 ^ 32) = none := by
        rw [hheaders, hsame.headers, value_eq_none h.headers hunknown.2.2.1, ite_self]
      exact .inr (.inr ⟨info, s₂, hunknown, hwell, habs,
        storesHeader_of_ok hwell (Nat.mod_lt _ (by decide)) habs hr.symm⟩)

theorem wellKept_step (h : s.WellKept) {op : Op} (hstep : step P s op = .ok s') : s'.WellKept := by
  have hcase := step_cases (P := P) h op
  rw [hstep] at hcase
  generalize hr : (.ok s' : Except Fault BlockChainSync) = r at hcase
  cases hcase with
  | same hsame =>
      cases hr
      exact h.of_same hsame
  | reset hfresh =>
      cases hr
      exact hfresh.wellKept
  | header hheader =>
      subst hr
      rcases headerCase_store h hheader with hsame | hfresh | ⟨_, _, _, _, _, hstores⟩
      · exact h.of_same hsame
      · exact hfresh.wellKept
      · exact hstores.wellKept
  | body body =>
      rcases bodyRound_cases (P := P) h body with ⟨hrun, -⟩ | ⟨_, s'', hrun, hstores⟩
      · cases hr.trans hrun
        exact h
      · cases hr.trans hrun
        exact hstores.wellKept
  | @collect host first headers bodies s₁ hfirst _ hsame =>
      obtain ⟨⟨hheaders, hbodies⟩, -, -⟩ := collected_spec h hfirst
      rw [removeCollected, hsame.headers, hsame.bodies] at hr
      dsimp only at hr
      split at hr
      · cases hr
        exact ⟨hheaders, hbodies⟩
      · split at hr
        · cases hr
        · cases hr
          exact fresh_completeSync.wellKept
  | @imported info s₁ hsame =>
      cases hr
      have hwell := h.of_same hsame
      rw [removeImported]
      dsimp only
      split
      · exact fresh_completeSync.wellKept
      · exact ⟨(value_removeItem hwell.headers _).1, (value_removeItem hwell.bodies _).1⟩

/-- A step that succeeds goes on with a run. -/
theorem reach_step {ok : BlockChainSync → Op → Prop} (h : (system P).Reach ok s) {op : Op}
    (hok : ok s op) (hstep : step P s op = .ok s') : (system P).Reach ok s' := by
  have hsome : (system P).step s op = some s' := congrArg Except.toOption hstep
  exact h.step hok hsome

/-- The containers are well formed in every run. -/
theorem wellKept_reach {ok : BlockChainSync → Op → Prop} (h : (system P).Reach ok s) : s.WellKept := by
  refine System.Reach.invariant ?_ ?_ h
  · rintro s ⟨chainStartBlock, number, hash, rfl⟩
    exact ⟨.nil, .nil⟩
  · intro s op s' _ hs _ hstep
    exact wellKept_step hs (ok_of_toOption hstep)

/-! ## Calls are sequences of steps -/

/-- A sequence of steps has this result. -/
def Runs (P : Prims) (s : BlockChainSync) (r : Except Fault BlockChainSync) : Prop :=
  ∃ ops : List Op, ops.foldlM (step P) s = r

theorem Runs.refl : Runs P s (.ok s) := ⟨[], rfl⟩

theorem Runs.op (op : Op) : Runs P s (step P s op) := by
  refine ⟨[op], ?_⟩
  rw [List.foldlM_cons]
  cases step P s op <;> rfl

theorem Runs.bind {r : Except Fault BlockChainSync}
    {next : BlockChainSync → Except Fault BlockChainSync} (h : Runs P s r)
    (hnext : ∀ s', r = .ok s' → Runs P s' (next s')) : Runs P s (r >>= next) := by
  obtain ⟨ops, rfl⟩ := h
  cases hr : ops.foldlM (step P) s with
  | error fault => exact ⟨ops, hr⟩
  | ok s' =>
      obtain ⟨ops', hops'⟩ := hnext s' hr
      refine ⟨ops ++ ops', ?_⟩
      rw [List.foldlM_append, hr]
      exact hops'

theorem Runs.step_bind (op : Op) {next : BlockChainSync → Except Fault BlockChainSync}
    (hnext : ∀ s', step P s op = .ok s' → Runs P s' (next s')) :
    Runs P s (step P s op >>= next) :=
  .bind (.op op) hnext

theorem Runs.after (op : Op) {r : Except Fault BlockChainSync} (h : step P s op = .ok s₁)
    (hr : Runs P s₁ r) : Runs P s r := by
  obtain ⟨ops, rfl⟩ := hr
  refine ⟨op :: ops, ?_⟩
  rw [List.foldlM_cons, h]
  rfl

theorem runs_continueSync : Runs P s (s.continueSync host) := by
  rw [continueSync]
  generalize host.peers = peers
  induction peers generalizing s with
  | nil => exact .refl
  | cons peer peers ih =>
      rw [List.foldlM_cons]
      exact .step_bind (.syncPeer host false peer) fun s' _ => ih

theorem runs_headersLoop (hosts : ℕ → Host) (i : ℕ) (items : List Rlp)
    {next : BlockChainSync → Except Fault BlockChainSync} (hnext : ∀ s', Runs P s' (next s')) :
    Runs P s (headersLoop P hosts i items s >>= fun
      | .leave s => pure s
      | .goOn s => next s) := by
  induction items generalizing s i with
  | nil => exact hnext s
  | cons item items ih =>
      have hround : Runs P s (((s.headerRound P (hosts i) item).map Round.state)) :=
        .op (.headerRound (hosts i) item)
      rw [headersLoop]
      cases hr : s.headerRound P (hosts i) item with
      | error fault =>
          rw [hr] at hround
          exact hround
      | ok round =>
          rw [hr] at hround
          cases round with
          | leave s' => exact hround
          | goOn s' =>
              have hstep : step P s (.headerRound (hosts i) item) = .ok s' := by
                rw [step, hr]
                rfl
              exact .after _ hstep (ih (i + 1))

theorem runs_collectBlocks_continueSync (later : Host) :
    Runs P s (s.collectBlocks P host >>= fun s => s.continueSync later) :=
  .step_bind (.collectBlocks host) fun _ _ => runs_continueSync

/-- A packet of headers is handled in steps. -/
theorem runs_onPeerBlockHeaders (hosts : ℕ → Host) (peer : Peer) (items : List Rlp) :
    Runs P s (s.onPeerBlockHeaders P hosts peer items) := by
  rw [onPeerBlockHeaders]
  split
  · split
    · exact .refl
    · exact .step_bind (.syncPeer (hosts 0) false peer) fun s' _ => .op (.answer peer.id)
    · exact .op (.answer peer.id)
  · refine .after (.clearPeerDownload peer.id) rfl ?_
    dsimp only
    split
    · exact .refl
    · exact runs_headersLoop hosts 0 items fun _ => runs_collectBlocks_continueSync _

/-- So is a packet of bodies. -/
theorem runs_onPeerBlockBodies (hosts : ℕ → Host) (peer : Peer) (items : List Rlp) :
    Runs P s (s.onPeerBlockBodies P hosts peer items) := by
  rw [onPeerBlockBodies]
  refine .after (.clearPeerDownload peer.id) rfl ?_
  split
  · exact .refl
  · refine .bind ⟨items.map .bodyRound, ?_⟩ fun _ _ => runs_collectBlocks_continueSync _
    rw [List.foldlM_map]
    rfl

theorem runs_unlinkedNewBlock (peer : Peer) (packet : Rlp) :
    Runs P s (s.unlinkedNewBlock P host peer packet) := by
  have hask : ∀ s₁ : BlockChainSync, (if c_maxPeerUknownNewBlocks < peer.unknownNewBlocks + 1 then
      s.restartSync host else s) = s₁ → Runs P s₁ (s.unlinkedNewBlock P host peer packet) := by
    intro s₁ hs₁
    rw [unlinkedNewBlock, hs₁]
    split
    · exact .refl
    · split
      · exact .op (.syncPeer host true peer)
      · exact .refl
  by_cases hmany : c_maxPeerUknownNewBlocks < peer.unknownNewBlocks + 1
  · exact .after (.restartSync host) rfl (hask _ (if_pos hmany))
  · exact hask s (if_neg hmany)

/-- So is a new block. -/
theorem runs_onPeerNewBlock (peer : Peer) (packet : Rlp) :
    Runs P s (s.onPeerNewBlock P host peer packet) := by
  rw [onPeerNewBlock]
  split
  · exact .refl
  · split
    · exact .refl
    · rename_i info _
      dsimp only
      split
      · exact .op (.syncPeer host true peer)
      · split
        · exact .op (.blockImported info)
        · exact runs_unlinkedNewBlock peer packet
        · exact runs_unlinkedNewBlock peer packet
        · exact .refl

/-- Every sequence of calls is a sequence of steps. -/
theorem runs_calls (calls : List Call) : Runs P s (calls.foldlM (perform P) s) := by
  induction calls generalizing s with
  | nil => exact .refl
  | cons call calls ih =>
      rw [List.foldlM_cons]
      refine .bind ?_ fun _ _ => ih
      cases call with
      | onPeerStatus host peer =>
          rw [perform, onPeerStatus]
          split
          · exact .op (.challenge peer.id)
          · exact .op (.syncPeer host true peer)
      | onPeerBlockHeaders hosts peer items => exact runs_onPeerBlockHeaders hosts peer items
      | onPeerBlockBodies hosts peer items => exact runs_onPeerBlockBodies hosts peer items
      | onPeerNewBlock host peer packet => exact runs_onPeerNewBlock peer packet
      | onBlockImported info => exact .op (.onBlockImported info)
      | requestBlocks host peer => exact .op (.requestBlocks host peer)
      | collectBlocks host => exact .op (.collectBlocks host)
      | completeSync => exact .op .completeSync
      | restartSync host => exact .op (.restartSync host)

theorem Runs.reach (h : Runs P s (.ok s')) (hs : (system P).Reach (fun _ _ => True) s) :
    (system P).Reach (fun _ _ => True) s' := by
  obtain ⟨ops, hops⟩ := h
  induction ops generalizing s with
  | nil =>
      cases hops
      exact hs
  | cons op ops ih =>
      rw [List.foldlM_cons] at hops
      cases hstep : step P s op with
      | error fault =>
          rw [hstep] at hops
          cases hops
      | ok s₁ =>
          rw [hstep] at hops
          exact ih (reach_step hs trivial hstep) hops

/-- Where calls lead is reached in steps. -/
theorem reach_calls {calls : List Call} (hs : (system P).Reach (fun _ _ => True) s)
    (h : calls.foldlM (perform P) s = .ok s') : (system P).Reach (fun _ _ => True) s' :=
  Runs.reach (h ▸ runs_calls calls) hs

end CppSwc.BlockChainSync
