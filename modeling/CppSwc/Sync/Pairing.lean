import CppSwc.Sync.Assembly

/-!
# Bodies and their headers

Every body that is downloaded should be under the number of its own header, and every header that
waits for its body should be found by it.  The index breaks this in three places.  Where headers
are cleared because a new one does not fit below them, their index entries stay, and a body may
then be taken for a later header under the same number.  `removeItem` cuts a chunk of headers and
a chunk of bodies at the same number, but these chunks need not end at the same number.  And a
header whose roots another header has too is no longer found when the other one goes.

`Allowed` asks that none of this meets a header without a body.
-/

namespace CppSwc.BlockChainSync

open Lib Lib.Segments

variable {P : Prims} {s s' s₁ : BlockChainSync} {n : ℕ}

/-- The roots in a downloaded header. -/
def rootsOf (P : Prims) (header : Header) : Option HeaderId :=
  (BlockHeader.ofHeader P header.data).map (·.roots)

/-- There is a header with these roots under the number. -/
def Has (P : Prims) (s : BlockChainSync) (n : ℕ) (id : HeaderId) : Prop :=
  ∃ header, value s.headers n = some header ∧ rootsOf P header = some id

/-- There is a header without a body under the number. -/
def Bodyless (s : BlockChainSync) (n : ℕ) : Prop :=
  (value s.headers n).isSome ∧ value s.bodies n = none

/-- The header under the number waits for its body. -/
def Waits (P : Prims) (s : BlockChainSync) (n : ℕ) (id : HeaderId) : Prop :=
  Has P s n id ∧ value s.bodies n = none ∧ id ≠ P.emptyRoots

/-- Bodies are under the numbers of their headers. -/
def Bodied (P : Prims) (s : BlockChainSync) : Prop :=
  ∀ n body, value s.bodies n = some body → Has P s n (bodyRoots P body)

/-- Bodies are under the numbers of their headers, and the index leads to the headers that
wait. -/
structure Paired (P : Prims) (s : BlockChainSync) : Prop where
  body : Bodied P s
  index : ∀ n id, s.headerIdToNumber[id]? = some n ↔ Waits P s n id

/-- The numbers that go when the chunk of headers at a number is cut there. -/
def Behind (s : BlockChainSync) (n m : ℕ) : Prop :=
  n ≤ m ∧ ∀ k, n ≤ k → k ≤ m → (value s.headers k).isSome

/-- The condition for one step.  A header is stored while none waits with its roots, and none
that is cleared above it is without a body.  Nor is one that goes with an imported block, unless
all go. -/
def Allowed (P : Prims) (s : BlockChainSync) : Op → Prop
  | .headerRound host item => ∀ info, Unknown P host item s info →
      (∀ m, ¬Waits P s m info.roots) ∧
      (Clears info s → ∀ m, nextNumber (info.number % 2 ^ 32) ≤ m → ¬s.Bodyless m)
  | .blockImported info => (∃ m, (value s.headers m).isSome ∧ ¬s.Behind (info.number % 2 ^ 32) m) →
      ∀ m, s.Behind (info.number % 2 ^ 32) m → ¬s.Bodyless m
  | _ => True

theorem Waits.bodyless {id : HeaderId} (h : Waits P s n id) : s.Bodyless n := by
  obtain ⟨⟨header, hheader, -⟩, hbody, -⟩ := h
  exact ⟨by rw [hheader]; rfl, hbody⟩

theorem Paired.index_eq_none (h : Paired P s) {id : HeaderId} (hnone : ∀ m, ¬Waits P s m id) :
    s.headerIdToNumber[id]? = none := by
  cases hindex : s.headerIdToNumber[id]? with
  | none => rfl
  | some m => exact absurd ((h.index m id).mp hindex) (hnone m)

theorem Paired.of_same (h : Paired P s) (hsame : SameItems s s') : Paired P s' := by
  obtain ⟨hheaders, hbodies, hindex⟩ := hsame
  refine ⟨?_, ?_⟩
  · intro n body
    rw [hbodies, Has, hheaders]
    exact h.body n body
  · intro n id
    simp only [Waits, Has, hheaders, hbodies, hindex]
    exact h.index n id

theorem Fresh.paired (h : Fresh s) : Paired P s := by
  refine ⟨?_, ?_⟩
  · intro n body hbody
    rw [h.bodies] at hbody
    cases hbody
  · intro n id
    rw [h.index]
    refine iff_of_false (by simp) ?_
    rintro ⟨⟨header, hheader, -⟩, -⟩
    rw [h.headers] at hheader
    cases hheader

/-! ## Removing and storing -/

/-- The headers and the bodies under some numbers are removed. -/
structure Removes (gone : ℕ → Prop) (s s' : BlockChainSync) : Prop where
  headers : ∀ n, (gone n → value s'.headers n = none) ∧
    (¬gone n → value s'.headers n = value s.headers n)
  bodies : ∀ n, (gone n → value s'.bodies n = none) ∧
    (¬gone n → value s'.bodies n = value s.bodies n)

variable {gone : ℕ → Prop}

theorem Removes.has_iff (h : Removes gone s s') (id : HeaderId) :
    Has P s' n id ↔ Has P s n id ∧ ¬gone n := by
  by_cases hgone : gone n
  · refine iff_of_false ?_ (fun hboth => hboth.2 hgone)
    rintro ⟨header, hheader, -⟩
    rw [(h.headers n).1 hgone] at hheader
    cases hheader
  · rw [Has, Has, (h.headers n).2 hgone]
    exact (and_iff_left hgone).symm

theorem Bodied.of_removes (h : Bodied P s) (hremoves : Removes gone s s') : Bodied P s' := by
  intro n body hbody
  have hstays : ¬gone n := by
    intro hgone
    rw [(hremoves.bodies n).1 hgone] at hbody
    cases hbody
  rw [(hremoves.bodies n).2 hstays] at hbody
  exact (hremoves.has_iff _).mpr ⟨h n body hbody, hstays⟩

theorem Bodied.body_eq_none (h : Bodied P s) (habs : value s.headers n = none) :
    value s.bodies n = none := by
  cases hbody : value s.bodies n with
  | none => rfl
  | some body =>
      obtain ⟨header, hheader, -⟩ := h n body hbody
      rw [habs] at hheader
      cases hheader

/-- What is left is paired, if every header that goes has its body. -/
theorem Paired.of_removes (h : Paired P s) (hremoves : Removes gone s s')
    (hbodied : ∀ m, gone m → ¬s.Bodyless m)
    (hindex : ∀ id : HeaderId, s'.headerIdToNumber[id]? = s.headerIdToNumber[id]?) :
    Paired P s' := by
  refine ⟨h.body.of_removes hremoves, ?_⟩
  intro n id
  rw [hindex, h.index, Waits, Waits, hremoves.has_iff]
  by_cases hgone : gone n
  · exact iff_of_false (fun hwaits => hbodied n hgone (Waits.bodyless hwaits))
      (fun hboth => hboth.1.2 hgone)
  · rw [(hremoves.bodies n).2 hgone, and_iff_left hgone]

/-- A header that is stored where none waits with its roots is found, and the others as
before. -/
theorem Paired.of_storesHeader (htrie : P.trieRootOver [] = P.emptyTrie) {header : Header}
    {headerId : HeaderId} (h : Paired P s) (hroots : rootsOf P header = some headerId)
    (habs : value s.headers n = none) (hnone : ∀ m, ¬Waits P s m headerId)
    (hstores : StoresHeader P header headerId n s s') : Paired P s' := by
  have hat : ∀ id, Has P s' n id ↔ id = headerId := by
    intro id
    simp [Has, hstores.headers, hroots, eq_comm]
  have helse : ∀ {m : ℕ}, m ≠ n → ∀ id, Has P s' m id ↔ Has P s m id := by
    intro m hm id
    rw [Has, Has, hstores.headers, if_neg hm]
  have hbodyless : value s.bodies n = none := h.body.body_eq_none habs
  refine ⟨?_, ?_⟩
  · intro m body hbody
    rw [hstores.bodies] at hbody
    split at hbody
    · rename_i hboth
      cases hbody
      rw [hboth.1, hat, hboth.2, Prims.emptyRoots, ← htrie]
      rfl
    · have hold := h.body m body hbody
      have hm : m ≠ n := by
        rintro rfl
        rw [hbodyless] at hbody
        cases hbody
      exact (helse hm _).mpr hold
  · intro m id
    have hbodies : m ≠ n → value s'.bodies m = value s.bodies m := fun hm => by
      rw [hstores.bodies, if_neg fun hboth => hm hboth.1]
    rcases eq_or_ne m n with rfl | hm
    · -- Only the new header is under the number, and nothing in the index led there.
      have hold : s.headerIdToNumber[id]? ≠ some m := by
        intro hindex
        obtain ⟨⟨old, hheader, -⟩, -⟩ := (h.index m id).mp hindex
        rw [habs] at hheader
        cases hheader
      rw [Waits, hat, hstores.index, hstores.bodies]
      by_cases hempty : headerId = P.emptyRoots
      · rw [if_pos hempty]
        refine iff_of_false hold ?_
        rintro ⟨rfl, -, hne⟩
        exact hne hempty
      · rw [if_neg hempty, if_neg fun hboth => hempty hboth.2, getElem?_insert_eq]
        by_cases hid : headerId = id
        · subst hid
          simp [hempty, hbodyless]
        · rw [if_neg hid]
          exact iff_of_false hold fun hboth => hid hboth.1.symm
    · rw [Waits, helse hm, hbodies hm, ← Waits, ← h.index, hstores.index]
      split
      · rfl
      · rw [getElem?_insert_eq]
        split
        · rename_i hid
          subst hid
          rw [h.index_eq_none hnone]
          simp [hm.symm]
        · rfl

/-- A body that is stored leaves the others found. -/
theorem Paired.of_storesBody {body : Rlp} (h : Paired P s) (hstores : StoresBody P body n s s') :
    Paired P s' := by
  have hsame : ∀ {m : ℕ} {id : HeaderId}, Has P s' m id ↔ Has P s m id := by
    intro m id
    rw [Has, Has, hstores.headers]
  have hwaits : Waits P s n (bodyRoots P body) := (h.index n _).mp hstores.target
  refine ⟨?_, ?_⟩
  · intro m body' hbody
    rw [hstores.bodies] at hbody
    rw [hsame]
    split at hbody
    · rename_i hm
      cases hbody
      exact hm ▸ hwaits.1
    · exact h.body m body' hbody
  · intro m id
    rw [Waits, hsame, hstores.bodies, hstores.index, getElem?_erase_eq]
    by_cases hid : bodyRoots P body = id
    · subst hid
      rw [if_pos rfl]
      refine iff_of_false (by simp) ?_
      rintro ⟨hhas, hbody, hne⟩
      split at hbody
      · cases hbody
      · rename_i hm
        have hindex := (h.index m _).mpr ⟨hhas, hbody, hne⟩
        rw [hstores.target, Option.some.injEq] at hindex
        exact hm hindex.symm
    · rw [if_neg hid]
      rcases eq_or_ne m n with rfl | hm
      · refine iff_of_false ?_ (by simp)
        intro hindex
        -- The header under the number has the roots of the body.
        obtain ⟨⟨header, hheader, hroots⟩, -⟩ := (h.index m id).mp hindex
        obtain ⟨⟨header', hheader', hroots'⟩, -⟩ := hwaits
        rw [hheader, Option.some.injEq] at hheader'
        subst hheader'
        rw [hroots, Option.some.injEq] at hroots'
        exact hid hroots'.symm
      · rw [if_neg hm, ← Waits]
        exact h.index m id

/-! ## Steps -/

theorem exists_value {T : Type} {c : Chunks T} (h : WellFormed c) (hne : c ≠ []) :
    ∃ n, (value c n).isSome := by
  obtain ⟨⟨first, chunk⟩, rest, rfl⟩ := List.exists_cons_of_ne_nil hne
  have hsplit : WellFormed ([] ++ (first, chunk) :: rest) := h
  obtain ⟨-, hchunk, -⟩ := wellFormed_append_cons.mp hsplit
  have hpos : 0 < chunk.length := List.length_pos_of_ne_nil hchunk
  refine ⟨first + 0, ?_⟩
  rw [value_first hpos, List.getElem?_eq_getElem hpos]
  rfl

theorem exists_storeHeader (htrie : P.trieRootOver [] = P.emptyTrie) {host : Host} {item : Rlp}
    {info : BlockHeader} (hunknown : Unknown P host item s info) (hwell : s₁.WellKept)
    (h : Bodied P s₁) (habs : value s₁.headers (info.number % 2 ^ 32) = none) :
    ∃ s', s₁.storeHeader P (entryOf item info) info.roots (info.number % 2 ^ 32) = .ok s' ∧
      (Paired P s₁ → (∀ m, ¬Waits P s₁ m info.roots) → Paired P s') := by
  have hroots : rootsOf P (entryOf item info) = some info.roots := by
    rw [rootsOf, entryOf, hunknown.1]
    rfl
  obtain ⟨s', hrun, hstores⟩ := storeHeader_spec hwell (Nat.mod_lt _ (by decide)) habs
    (fun _ => h.body_eq_none habs) (entryOf item info)
  exact ⟨s', hrun, fun hpaired hnone => hpaired.of_storesHeader htrie hroots habs hnone hstores⟩

theorem exists_headerRound (htrie : P.trieRootOver [] = P.emptyTrie) {host : Host} {item : Rlp}
    {r : Except Fault BlockChainSync} (hwell : s.WellKept) (h : Paired P s)
    (hcase : HeaderCase P host item s r) :
    ∃ s', r = .ok s' ∧ (Allowed P s (.headerRound host item) → Paired P s') := by
  cases hcase with
  | same hsame => exact ⟨_, rfl, fun _ => h.of_same hsame⟩
  | reset hfresh => exact ⟨_, rfl, fun _ => hfresh.paired⟩
  | @store info s₁ hunknown _ hsame =>
      have hpaired₁ : Paired P s₁ := h.of_same hsame
      have habs : value s₁.headers (info.number % 2 ^ 32) = none := by
        rw [hsame.headers]
        exact value_eq_none hwell.headers hunknown.2.2.1
      obtain ⟨s', hrun, hpaired⟩ := exists_storeHeader htrie hunknown (hwell.of_same hsame)
        hpaired₁.body habs
      refine ⟨s', hrun, fun hallowed => hpaired hpaired₁ fun m => ?_⟩
      rw [← hpaired₁.index, hsame.index, h.index]
      exact (hallowed info hunknown).1 m
  | @replace info s₁ s₂ hunknown hclears hsame hclear =>
      obtain ⟨hwell', hheaders, hbodies, hindex⟩ := clearFollowing_spec (hwell.of_same hsame) hclear
      have hremoves : Removes (nextNumber (info.number % 2 ^ 32) ≤ ·) s s₂ := by
        refine ⟨fun n => ⟨fun hgone => ?_, fun hstays => ?_⟩,
          fun n => ⟨fun hgone => ?_, fun hstays => ?_⟩⟩
        · rw [hheaders, if_neg (not_lt.mpr hgone)]
        · rw [hheaders, if_pos (not_le.mp hstays), hsame.headers]
        · rw [hbodies, if_neg (not_lt.mpr hgone)]
        · rw [hbodies, if_pos (not_le.mp hstays), hsame.bodies]
      have habs : value s₂.headers (info.number % 2 ^ 32) = none := by
        rw [hheaders, hsame.headers, value_eq_none hwell.headers hunknown.2.2.1, ite_self]
      obtain ⟨s', hrun, hpaired⟩ := exists_storeHeader htrie hunknown hwell'
        (h.body.of_removes hremoves) habs
      refine ⟨s', hrun, fun hallowed => ?_⟩
      obtain ⟨hnone, hbodied⟩ := hallowed info hunknown
      -- The entry that is erased is not there.
      have hpaired₂ : Paired P s₂ := by
        refine h.of_removes hremoves (hbodied hclears) fun id => ?_
        rw [hindex, hsame.index, getElem?_erase_eq]
        split
        · rename_i hid
          rw [← hid, h.index_eq_none hnone]
        · rfl
      refine hpaired hpaired₂ fun m => ?_
      rw [← hpaired₂.index, hindex, getElem?_erase_eq, if_pos rfl]
      intro hnot
      cases hnot

theorem exists_removeCollected (h : Paired P s) {i : ℕ} (hwell : WellFormed (dropFirst i s.bodies))
    (hremoves : Removes gone s
      { s with headers := dropFirst i s.headers, bodies := dropFirst i s.bodies })
    (hbodied : ∀ m, gone m → ¬s.Bodyless m) :
    ∃ s', s.removeCollected i = .ok s' ∧ Paired P s' := by
  have hpaired := h.of_removes hremoves hbodied fun _ => rfl
  rw [removeCollected]
  dsimp only
  split
  · exact ⟨_, rfl, hpaired⟩
  · rename_i hheaders
    split
    · rename_i hbodies
      -- a body without a header
      obtain ⟨n, hsome⟩ := exists_value hwell hbodies
      obtain ⟨body, hbody⟩ := Option.isSome_iff_exists.mp hsome
      obtain ⟨header, hheader, -⟩ := hpaired.body n body hbody
      rw [not_not] at hheaders
      simp [hheaders] at hheader
    · exact ⟨_, rfl, fresh_completeSync.paired⟩

/-- The blocks that are collected have bodies. -/
theorem exists_collect {first : ℕ} {headers : List Header} {bodies : List Rlp}
    (hwell : s.WellKept) (h : Paired P s) (hfirst : s.firstChunks = some (first, headers, bodies))
    (hsame : SameItems s s₁) :
    ∃ s', s₁.removeCollected (min headers.length bodies.length) = .ok s' ∧ Paired P s' := by
  obtain ⟨⟨-, hwell'⟩, hheaders, hbodies⟩ := collected_spec hwell hfirst
  have hremoves : Removes (fun n => first ≤ n ∧ n < first + min headers.length bodies.length) s₁
      { s₁ with
        headers := dropFirst (min headers.length bodies.length) s₁.headers
        bodies := dropFirst (min headers.length bodies.length) s₁.bodies } := by
    rw [hsame.headers, hsame.bodies]
    refine ⟨fun n => ?_, fun n => ?_⟩
    · rw [hsame.headers]
      exact ⟨fun hgone => (hheaders n).trans (if_pos hgone),
        fun hstays => (hheaders n).trans (if_neg hstays)⟩
    · rw [hsame.bodies]
      exact ⟨fun hgone => (hbodies n).trans (if_pos hgone),
        fun hstays => (hbodies n).trans (if_neg hstays)⟩
  refine exists_removeCollected (h.of_same hsame) (hsame.bodies ▸ hwell') hremoves ?_
  rintro m ⟨hle, hlt⟩ ⟨-, hbody⟩
  obtain ⟨-, rest, hchunks⟩ := firstChunks_eq_some hfirst
  obtain ⟨i, rfl⟩ := Nat.exists_eq_add_of_le hle
  have hi : i < bodies.length := by omega
  rw [hsame.bodies, hchunks, value_first hi, List.getElem?_eq_getElem hi] at hbody
  cases hbody

/-- Two chunks that are cut at one number lose the same numbers, if the headers that go have
bodies. -/
theorem removes_removeItem (hwell : s.WellKept) (h : Paired P s)
    (hbodied : ∀ m, s.Behind n m → ¬s.Bodyless m) :
    Removes (s.Behind n) s
      { s with headers := removeItem s.headers n, bodies := removeItem s.bodies n } := by
  obtain ⟨-, last, hle, hlast, hsome, hvalue⟩ := value_removeItem hwell.headers n
  obtain ⟨-, last', hle', hlast', hsome', hvalue'⟩ := value_removeItem hwell.bodies n
  have hbehind : ∀ m, s.Behind n m ↔ n ≤ m ∧ m < last := by
    intro m
    constructor
    · rintro ⟨hnm, hall⟩
      refine ⟨hnm, ?_⟩
      by_contra hge
      have hhas := hall last hle (not_lt.mp hge)
      rw [hlast] at hhas
      cases hhas
    · rintro ⟨hnm, hlt⟩
      exact ⟨hnm, fun k hnk hkm => hsome k hnk (hkm.trans_lt hlt)⟩
  refine ⟨fun m => ?_, fun m => ?_⟩
  · rw [hbehind]
    exact ⟨fun hgone => (hvalue m).trans (if_pos hgone), fun hstays => (hvalue m).trans (if_neg hstays)⟩
  · constructor
    · intro hgone
      refine (hvalue' m).trans (if_pos ⟨hgone.1, ?_⟩)
      by_contra hge
      -- the chunk of bodies goes on as long as that of the headers
      refine hbodied last' ⟨hle', fun k hnk hkm => ?_⟩ ⟨?_, hlast'⟩
      · exact hgone.2 k hnk (by omega)
      · exact hgone.2 last' hle' (by omega)
    · intro hstays
      refine (hvalue' m).trans (if_neg ?_)
      rintro ⟨hnm, hlt⟩
      -- the bodies that go have their headers, so these go too
      refine hstays ⟨hnm, fun k hnk hkm => ?_⟩
      obtain ⟨body, hbody⟩ := Option.isSome_iff_exists.mp (hsome' k hnk (hkm.trans_lt hlt))
      obtain ⟨header, hheader, -⟩ := h.body k body hbody
      rw [hheader]
      rfl

theorem paired_removeImported (hwell : s.WellKept) (h : Paired P s)
    (hallowed : (∃ m, (value s.headers m).isSome ∧ ¬s.Behind n m) →
      ∀ m, s.Behind n m → ¬s.Bodyless m) : Paired P (s.removeImported n) := by
  rw [removeImported]
  dsimp only
  split
  · exact fresh_completeSync.paired
  · rename_i hne
    obtain ⟨hwell', last, hle, hlast, hsome, hvalue⟩ := value_removeItem hwell.headers n
    obtain ⟨m, hm⟩ := exists_value hwell' hne
    have hstays : ∃ m, (value s.headers m).isSome ∧ ¬s.Behind n m := by
      rw [hvalue] at hm
      split at hm
      · cases hm
      · rename_i hout
        refine ⟨m, hm, fun hbehind => hout ⟨hbehind.1, ?_⟩⟩
        by_contra hge
        have hhas := hbehind.2 last hle (not_lt.mp hge)
        rw [hlast] at hhas
        cases hhas
    have hbodied := hallowed hstays
    exact h.of_removes (removes_removeItem hwell h hbodied) hbodied fun _ => rfl

theorem Behind.of_same (hsame : SameItems s s') : s'.Behind n = s.Behind n := by
  funext m
  rw [Behind, Behind, hsame.headers]

theorem Bodyless.of_same (hsame : SameItems s s') : s'.Bodyless n ↔ s.Bodyless n := by
  rw [Bodyless, Bodyless, hsame.headers, hsame.bodies]

/-- From a state that is paired every step succeeds, and one that is allowed leads to such a
state. -/
theorem exists_step (htrie : P.trieRootOver [] = P.emptyTrie) (hwell : s.WellKept)
    (h : Paired P s) (op : Op) : ∃ s', step P s op = .ok s' ∧ (Allowed P s op → Paired P s') := by
  have hcase := step_cases (P := P) hwell op
  generalize step P s op = r at hcase
  cases hcase with
  | same hsame => exact ⟨_, rfl, fun _ => h.of_same hsame⟩
  | reset hfresh => exact ⟨_, rfl, fun _ => hfresh.paired⟩
  | header hheader => exact exists_headerRound htrie hwell h hheader
  | body body =>
      rcases bodyRound_cases (P := P) hwell body with ⟨hrun, -⟩ | ⟨n, s', hrun, hstores⟩
      · exact ⟨s, hrun, fun _ => h⟩
      · exact ⟨s', hrun, fun _ => h.of_storesBody hstores⟩
  | collect hfirst _ hsame =>
      obtain ⟨s', hrun, hpaired⟩ := exists_collect hwell h hfirst hsame
      exact ⟨s', hrun, fun _ => hpaired⟩
  | @imported info s₁ hsame =>
      refine ⟨_, rfl, fun hallowed => ?_⟩
      refine paired_removeImported (hwell.of_same hsame) (h.of_same hsame) ?_
      rw [Behind.of_same hsame, hsame.headers]
      intro hstays m hbehind
      rw [Bodyless.of_same hsame]
      exact hallowed hstays m hbehind

/-- In every run of allowed steps the bodies are paired with their headers, and no assertion
fails. -/
theorem paired_of_reach {P : Prims} (htrie : P.trieRootOver [] = P.emptyTrie) {s : BlockChainSync}
    (h : (system P).Reach (Allowed P) s) : Paired P s ∧ ∀ op, ∃ s', step P s op = .ok s' := by
  have hpaired : Paired P s := by
    suffices hboth : s.WellKept ∧ Paired P s from hboth.2
    refine System.Reach.invariant (I := fun s => s.WellKept ∧ Paired P s) ?_ ?_ h
    · rintro s ⟨chainStartBlock, number, hash, rfl⟩
      exact ⟨⟨.nil, .nil⟩, Fresh.paired ⟨rfl, rfl, rfl⟩⟩
    · rintro s op s' _ ⟨hwell, hs⟩ hallowed hstep
      have hrun : step P s op = .ok s' := ok_of_toOption hstep
      obtain ⟨s'', hrun', hnext⟩ := exists_step htrie hwell hs op
      cases hrun.symm.trans hrun'
      exact ⟨wellKept_step hwell hrun, hnext hallowed⟩
  refine ⟨hpaired, fun op => ?_⟩
  obtain ⟨s', hrun, -⟩ := exists_step htrie (wellKept_reach h) hpaired op
  exact ⟨s', hrun⟩

/-- A header waits for its body, and gets it. -/
theorem paired_of_reach_one : ∃ s, (system Prims.sample).Reach (Allowed Prims.sample) s ∧
    (value s.bodies 1).isSome ∧ Paired Prims.sample s ∧
      ∀ op, ∃ s', step Prims.sample s op = .ok s' := by
  obtain ⟨s₁, s₃, _, _, h, habs⟩ := exists_answered 1 (by decide +kernel) (by decide +kernel)
  have hstored : StoredBlock Prims.sample (signedBlock 1) (signedHeader 1) :=
    signedBlock_stored 1 (by decide +kernel) (by decide +kernel)
  have hnone : value s₁.bodies 1 = none := habs.resolve_left (by decide)
  have hawaits := h.takes.awaits (wellKept_reach reach_start) hstored.header
  have hwell : s₁.WellKept := wellKept_reach (h.takes.reach reach_start)
  have hround : step Prims.sample (start 0 0 0) (.headerRound emptyHost (Request.sampleHead 1 5 0 1)) =
      .ok s₁ := by
    rw [step, h.takes.round]
    rfl
  have hempty : Allowed Prims.sample (start 0 0 0)
      (.headerRound emptyHost (Request.sampleHead 1 5 0 1)) := by
    intro info _
    refine ⟨?_, fun hclears => absurd hclears.1 Bool.false_ne_true⟩
    rintro m ⟨⟨header, hheader, -⟩, -⟩
    cases hheader
  have hstart : (system Prims.sample).Reach (Allowed Prims.sample) (start 0 0 0) :=
    .init ⟨0, 0, 0, rfl⟩
  have hfirst : (system Prims.sample).Reach (Allowed Prims.sample) s₁ :=
    reach_step hstart hempty hround
  have hallowed : Allowed Prims.sample s₁ (.bodyRound (.list ((signedBlock 1).items.drop 1))) :=
    trivial
  have hreach : (system Prims.sample).Reach (Allowed Prims.sample) s₃ :=
    reach_step hfirst hallowed h.body
  have hbody : (value s₃.bodies 1).isSome := by
    have hkept := (hawaits.body hwell hstored.roots h.body).2
    exact Option.isSome_iff_exists.mpr ⟨_, hkept⟩
  exact ⟨s₃, hreach, hbody, paired_of_reach rfl hreach⟩

/-- A peer that is ahead. -/
def aheadPeer : Peer where
  id := 1
  asking := false
  totalDifficulty := 1
  latestHash := 0
  unknownNewBlocks := 0

/-- A peer sends the headers of blocks 1, 2, 3 and 5, the body of block 3, and then block 1. -/
def cutRun : List Call :=
  [.onPeerStatus emptyHost aheadPeer,
    .onPeerBlockHeaders (fun _ => emptyHost) aheadPeer
      [Request.sampleHead 1 5 0 1, Request.sampleHead 2 6 0 2, Request.sampleHead 3 7 0 3,
        Request.sampleHead 5 8 0 4],
    .onPeerBlockBodies (fun _ => emptyHost) aheadPeer [Request.sampleBody 3],
    .onPeerNewBlock emptyHost aheadPeer (Request.sampleNewBlock 1 5 1)]

/-- The headers 1, 2 and 3 go together, and the body of block 3 stays. -/
theorem body_outlives_header :
    ∃ s, cutRun.foldlM (perform Prims.sample) (start 0 0 0) = .ok s ∧
      (system Prims.sample).Reach (fun _ _ => True) s ∧ ¬Paired Prims.sample s := by
  obtain ⟨s, hrun, hleft⟩ := Request.exists_ok
    (x := cutRun.foldlM (perform Prims.sample) (start 0 0 0))
    (p := fun s => (value s.bodies 3).isSome && (value s.headers 3).isNone) (by decide +kernel)
  rw [Bool.and_eq_true, Option.isNone_iff_eq_none] at hleft
  refine ⟨s, hrun, reach_calls (.init ⟨0, 0, 0, rfl⟩) hrun, fun hpaired => ?_⟩
  obtain ⟨body, hbody⟩ := Option.isSome_iff_exists.mp hleft.1
  obtain ⟨header, hheader, -⟩ := hpaired.body 3 body hbody
  rw [hleft.2] at hheader
  cases hheader

end CppSwc.BlockChainSync
