import CppSwc.Sync.Links
import CppSwc.Sync.Calls
import CppSwc.Sync.Gaps

/-!
# What brings the synchroniser down

`Safe` is the condition under which a call does not crash, in terms of the buffer
before it and of the answers of the queue.  Two asserts never fail: the header of an
entry has the entry's number, and the gaps in the buffer are in front of higher
numbers.  The iterator that skips the genesis entry never reaches the end, for the
genesis entry is not alone.
-/

namespace CppSwc

open Lib

namespace Request

/-! ## Safe calls -/

/-- `collectBlocks` goes on after the queue's answer to the block with a number. -/
def goesOn (a : Answers) (number : Nat) : Bool :=
  match a.importBlock number with
  | some .alreadyKnown => a.statusAfter number == .ready || a.statusAfter number == .importing
  | some .alreadyInChain => true
  | some .success => true
  | some .overbidGasPrice => true
  | some .zeroSignature => true
  | _ => false

/-- The entries `collectBlocks` hands to the queue, each with the count it is
compared with. -/
def handed (a : Answers) : Nat → List (Nat × Blocker) → List (Nat × Nat × Blocker)
  | _, [] => []
  | blockNumber, e :: es =>
      if e.2.body.isNull || e.2.head.isNull then []
      else (blockNumber, e) :: if goesOn a e.1 then handed a (nextNumber blockNumber) es else []

/-- The queue takes the block without an exception and does not find it malformed,
and no block behind a gap waits for its parent although the chain has it. -/
def Accepted (a : Answers) (blockNumber : Nat) (e : Nat × Blocker) : Prop :=
  a.importBlock e.1 ≠ none ∧ a.importBlock e.1 ≠ some .malformed ∧
    ¬ (a.importBlock e.1 = some .alreadyKnown ∧ a.statusAfter e.1 = .unknownParent ∧
      e.1 ≠ blockNumber ∧ e.2.hash ≠ 0 ∧ a.isKnown e.2.hash = true)

/-- The entries above the genesis entry. -/
def aboveGenesis (r : Request) : List (Nat × Blocker) := r.blocks.toList.filter (·.1 ≠ 0)

/-- The condition on a call and the buffer before it: a header has a number other
than zero, and the genesis block for a parent if it is stored as number one; the
number of a body is buffered; more than one header without body is left to collect
from, and the queue accepts what it is handed; and what `continueSync` starts from
is known or has a number from two on. -/
def Safe (P : Prims) (r : Request) : Call → Prop
  | .op (.insertBody body) => ∀ n, r.headerToNumber[bodyRoots P body]? = some n → n ∈ r.blocks
  | .op (.collectBlocks a) =>
      (∀ e, (r.clearNeedless P a).aboveGenesis = [e] → e.2.body.isNull = false) ∧
      ∀ entries, collectStart (r.clearNeedless P a).blocks.toList = some entries →
        ∀ x ∈ handed a ((entries.head?.map (·.1)).getD 0) entries, Accepted a x.1 x.2
  | .op op => ∀ b header, incoming P op = some b → BlockHeader.ofHeader P b.head = some header →
      header.number % 2 ^ 32 ≠ 0 ∧
      (header.number % 2 ^ 32 = 1 → (r.prepare P 1 header b.id).2 = true →
        header.parentHash = r.genesis.hash)
  | .ask env => env.later.knowHash r.underHash = true ∨ 2 ≤ r.underNumber

/-! ## The buffer between calls -/

section Sound

variable {P : Prims} {r r' : Request}

/-- Every entry but the genesis entry has a header with its number and hash. -/
def Numbered (P : Prims) (r : Request) : Prop :=
  ∀ (n : Nat) (b : Blocker), n ≠ 0 → r.blocks[n]? = some b →
    ∃ header, BlockHeader.ofHeader P b.head = some header ∧ header.number % 2 ^ 32 = n ∧
      b.hash = header.hash

/-- The genesis entry is not alone. -/
def Grounded (r : Request) : Prop := 0 ∈ r.blocks → ∃ k, k ≠ 0 ∧ k ∈ r.blocks

theorem Numbered.update (h : Numbered P r) {n : Nat} {b b' : Blocker} (hb : r.blocks[n]? = some b)
    (hhead : b'.head = b.head) (hhash : b'.hash = b.hash) :
    Numbered P { r with blocks := r.blocks.insert n b' } := by
  intro k c hk hc
  dsimp only at hc
  rw [getElem?_insert_eq] at hc
  split at hc
  · rename_i heq
    cases hc
    rw [hhead, hhash]
    exact h k b hk (heq ▸ hb)
  · exact h k c hk hc

theorem numbered_trim (h : Numbered P r) (htrim : Trim P r r') : Numbered P r' := by
  refine htrim.invariant h ?_ ?_ ?_
  · intro r e _ hr k c hk hc
    rw [removeEntry_blocks, getElem?_erase_eq] at hc
    split at hc
    · cases hc
    · exact hr k c hk hc
  · intro r _ k c _ hc
    simp [clear] at hc
  · intro r e timeout he hr
    exact hr.update he rfl rfl

theorem numbered_stepCase {op : Op} (h : Numbered P r) (hcase : StepCase P r op r') :
    Numbered P r' := by
  cases hcase with
  | trim htrim => exact numbered_trim h htrim
  | store hstores htrim hinsert =>
      obtain ⟨hin, hheader, rfl, -⟩ := stores_eq_some hstores
      have hstored := stored_of_insertBlockerAt hinsert
      obtain ⟨body, hentry, -⟩ := hstored.entry
      intro k c hk hc
      rename_i r₁ b header
      by_cases hnumber : k = header.number % 2 ^ 32
      · rw [hnumber, hentry] at hc
        cases hc
        exact ⟨header, hheader, hnumber.symm, (incoming_header hin hheader).1⟩
      · rw [hstored.others k hnumber, if_neg (fun h => hk h.1)] at hc
        exact numbered_trim h htrim k c hk hc
  | body _ hbody =>
      obtain rfl | ⟨n, b, hb, rfl⟩ := insertBody_cases hbody
      · exact h
      · exact h.update hb rfl rfl

theorem Grounded.of_mem_iff (h : Grounded r) (hmem : ∀ k, k ∈ r'.blocks ↔ k ∈ r.blocks) :
    Grounded r' := by
  intro hzero
  obtain ⟨k, hk, hkmem⟩ := h ((hmem 0).mp hzero)
  exact ⟨k, hk, (hmem k).mpr hkmem⟩

theorem Grounded.of_empty (h : r.blocks = ∅) : Grounded r := by
  intro hzero
  simp [h] at hzero

/-- The genesis entry is the first to go. -/
theorem grounded_removeUnder (h : Grounded r) (number : Nat) :
    Grounded (r.removeUnder P number) := by
  cases number with
  | zero =>
      refine h.of_mem_iff fun k => ?_
      rw [Std.ExtTreeMap.mem_iff_isSome_getElem?, Std.ExtTreeMap.mem_iff_isSome_getElem?,
        removeUnder_blocks, if_neg (Nat.not_lt_zero k)]
  | succ number =>
      intro hzero
      rw [Std.ExtTreeMap.mem_iff_isSome_getElem?, removeUnder_blocks,
        if_pos (Nat.succ_pos number)] at hzero
      cases hzero

theorem mem_insert_of_getElem? {n k : Nat} {b b' : Blocker} (hb : r.blocks[n]? = some b) :
    k ∈ r.blocks.insert n b' ↔ k ∈ r.blocks := by
  rw [Std.ExtTreeMap.mem_iff_isSome_getElem?, Std.ExtTreeMap.mem_iff_isSome_getElem?,
    getElem?_insert_eq]
  split
  · rename_i heq
    rw [← heq, hb]
    simp
  · rfl

/-- Asking for bodies keeps the numbers. -/
theorem mem_requestBodysLoop {limit now : Nat} {l : List (Nat × Blocker)} {number k : Nat}
    {bodys : List H256} (hl : ∀ e ∈ l, e.1 ∈ r.blocks) :
    k ∈ (requestBodysLoop limit now number l bodys r).1.blocks ↔ k ∈ r.blocks := by
  induction l generalizing number bodys r with
  | nil => exact Iff.rfl
  | cons e l ih =>
      simp only [requestBodysLoop]
      split
      · exact Iff.rfl
      · split
        · exact ih fun e' he' => hl e' (.tail _ he')
        · have he := hl e (.head _)
          rw [Std.ExtTreeMap.mem_iff_isSome_getElem?, Option.isSome_iff_exists] at he
          obtain ⟨b, hb⟩ := he
          rw [ih]
          · exact mem_insert_of_getElem? hb
          · intro e' he'
            exact (mem_insert_of_getElem? hb).mpr (hl e' (.tail _ he'))

/-- Where `insertBlocker` does not store the entry, it leaves the buffer alone or
clears it. -/
theorem prepare_false {number : Nat} {header : BlockHeader} {id : NodeID}
    (h : r.prepare P number header id = (r', false)) : r' = r ∨ r'.blocks = ∅ := by
  have hparent : ∀ {r₁ : Request} {uptime : Nat},
      r₁.matchParent P number header uptime = (r', false) → r'.blocks = ∅ := by
    intro r₁ uptime h
    simp only [matchParent] at h
    split at h
    · cases h
    · split at h
      · cases h
        rfl
      · cases h
  simp only [prepare] at h
  split at h
  · cases h
  · split at h
    · cases h
      exact .inl rfl
    · simp only [matchNeighbours] at h
      split at h
      · exact .inr (hparent h)
      · split at h
        · cases h
          exact .inr rfl
        · exact .inr (hparent h)

theorem grounded_insertBlocker (hr : Grounded r) {b : Blocker}
    (h : r.insertBlocker P b = .ok r') : Grounded r' := by
  simp only [insertBlocker] at h
  split at h
  · cases h
    exact hr
  · split at h
    · cases h
    · split at h
      · rename_i hprep
        cases h
        obtain rfl | hempty := prepare_false hprep
        · exact hr
        · exact .of_empty hempty
      · intro _
        have hstored := stored_of_insertBlockerAt h
        obtain ⟨body, hentry, -⟩ := hstored.entry
        exact ⟨_, hstored.pos, by rw [Std.ExtTreeMap.mem_iff_isSome_getElem?, hentry]; rfl⟩

theorem grounded_clearNeedless (hr : Grounded r) (a : Answers) :
    Grounded (r.clearNeedless P a) := by
  simp only [clearNeedless]
  split
  · exact grounded_removeUnder hr _
  · exact hr

theorem grounded_finishCollect (hr : Grounded r) (c : Collected) :
    Grounded (r.finishCollect P c) := by
  cases c with
  | finish maxNumber =>
      simp only [finishCollect]
      split
      · exact hr
      · split
        · exact .of_empty rfl
        · exact grounded_removeUnder hr _
  | quit => exact hr
  | clear => exact .of_empty rfl
  | removeUnder number => exact grounded_removeUnder hr number

theorem grounded_step {op : Op} (hr : Grounded r) (h : step P r op = .ok r') : Grounded r' := by
  cases op with
  | insertHead now id item =>
      simp only [step, insertHead] at h
      split at h
      · cases h
        exact hr
      · exact grounded_insertBlocker hr h
  | insertBlock now id block =>
      simp only [step, insertBlock] at h
      split at h
      · cases h
        exact hr
      · exact grounded_insertBlocker hr h
  | insertBody body =>
      obtain rfl | ⟨n, b, hb, rfl⟩ := insertBody_cases h
      · exact hr
      · exact hr.of_mem_iff fun k => mem_insert_of_getElem? hb
  | removeUnder number =>
      cases h
      exact grounded_removeUnder hr number
  | clear =>
      cases h
      exact .of_empty rfl
  | collectBlocks a =>
      simp only [step, collectBlocks] at h
      have hclear := grounded_clearNeedless (P := P) hr a
      split at h
      · cases h
        exact hclear
      · split at h
        · cases h
        · rename_i entries hstart
          cases hloop : collectLoop P a (r.clearNeedless P a)
              ((entries.head?.map (·.1)).getD 0) 0 entries with
          | error fault =>
              rw [hloop] at h
              cases h
          | ok c =>
              rw [hloop] at h
              cases h
              exact grounded_finishCollect hclear c
  | requestBodys limit now =>
      cases h
      refine hr.of_mem_iff fun k => mem_requestBodysLoop ?_
      intro e he
      rw [Std.ExtTreeMap.mem_toList_iff_getElem?_eq_some] at he
      rw [Std.ExtTreeMap.mem_iff_isSome_getElem?, he]
      rfl

theorem numbered_reach (h : (system P).Reach (fun _ _ => True) r) : Numbered P r := by
  refine invariant ?_ ?_ h
  · intro hash time n b _ hb
    simp [start] at hb
  · intro r op r' _ hcase hr
    exact numbered_stepCase hr hcase

theorem grounded_reach (h : (system P).Reach (fun _ _ => True) r) : Grounded r := by
  refine h.invariant ?_ ?_
  · rintro r ⟨hash, time, rfl⟩
    exact .of_empty rfl
  · intro r op r' _ hr _ hstep
    exact grounded_step hr (toOption_eq_some hstep)

/-! ## Single calls -/

/-- The genesis entry is the first, so skipping it leaves the entries above it. -/
theorem skipGenesis_eq : (if (r.blocks.toList.head?.map (·.1)) = some 0 then r.blocks.toList.tail
    else r.blocks.toList) = r.aboveGenesis := by
  have hsorted := pairwise_lt_toList r.blocks
  rw [aboveGenesis]
  generalize r.blocks.toList = l at hsorted ⊢
  cases l with
  | nil => rfl
  | cons e l =>
      rw [List.pairwise_cons] at hsorted
      have hlater : ∀ e' ∈ l, e'.1 ≠ 0 := by
        intro e' he'
        have := hsorted.1 e' he'
        omega
      have htail : l.filter (·.1 ≠ 0) = l := by
        rw [List.filter_eq_self]
        intro e' he'
        simpa using hlater e' he'
      by_cases he : e.1 = 0
      · rw [List.filter_cons_of_neg (by simpa using he), htail]
        simp [he]
      · rw [List.filter_cons_of_pos (by simpa using he), htail]
        simp [he]

theorem collectStart_eq : collectStart r.blocks.toList =
    match r.aboveGenesis with
    | [] => none
    | e :: es => some (if e.2.body.isNull then es else e :: es) := by
  cases h : r.aboveGenesis with
  | nil => simp [collectStart, skipGenesis_eq, h]
  | cons e es => simp [collectStart, skipGenesis_eq, h]

theorem mem_aboveGenesis {e : Nat × Blocker} (h : e ∈ r.aboveGenesis) :
    e.1 ≠ 0 ∧ r.blocks[e.1]? = some e.2 := by
  rw [aboveGenesis, List.mem_filter, Std.ExtTreeMap.mem_toList_iff_getElem?_eq_some] at h
  exact ⟨by simpa using h.2, h.1⟩

theorem aboveGenesis_ne_nil (hr : Grounded r) (hfull : r.blocks.isEmpty = false) :
    r.aboveGenesis ≠ [] := by
  have hsome : ∃ k, k ∈ r.blocks := by
    rw [Std.ExtTreeMap.isEmpty_eq_false_iff, Std.ExtTreeMap.eq_empty_iff_forall_not_mem] at hfull
    push Not at hfull
    exact hfull
  have habove : ∃ k, k ≠ 0 ∧ k ∈ r.blocks := by
    obtain ⟨k, hk⟩ := hsome
    cases k with
    | zero => exact hr hk
    | succ k => exact ⟨k + 1, by omega, hk⟩
  obtain ⟨k, hne, hk⟩ := habove
  rw [Std.ExtTreeMap.mem_iff_isSome_getElem?, Option.isSome_iff_exists] at hk
  obtain ⟨b, hb⟩ := hk
  rw [← Std.ExtTreeMap.mem_toList_iff_getElem?_eq_some] at hb
  exact List.ne_nil_of_mem (List.mem_filter.mpr ⟨hb, by simpa using hne⟩)

/-- One round of `collectBlocks` fails, goes on or ends. -/
theorem collectLoop_cons {a : Answers} {e : Nat × Blocker} (es : List (Nat × Blocker))
    (blockNumber maxNumber : Nat) {header : BlockHeader}
    (hnull : ¬ (e.2.body.isNull || e.2.head.isNull) = true)
    (hheader : BlockHeader.ofHeader P e.2.head = some header)
    (hnumber : header.number % 2 ^ 32 = e.1) (hhash : e.2.hash = header.hash) :
    (¬ Accepted a blockNumber e ∧
      collectLoop P a r blockNumber maxNumber (e :: es) = .error .assertion) ∨
    (Accepted a blockNumber e ∧ goesOn a e.1 = true ∧ ∃ m,
      collectLoop P a r blockNumber maxNumber (e :: es) =
        collectLoop P a r (nextNumber blockNumber) m es) ∨
    (Accepted a blockNumber e ∧ goesOn a e.1 = false ∧ ∃ c,
      collectLoop P a r blockNumber maxNumber (e :: es) = .ok c) := by
  have hround := collectLoop.eq_2 P a r blockNumber maxNumber e es
  simp only [if_neg hnull, hheader, hnumber, ne_eq, not_true_eq_false, if_false] at hround
  rw [hround]
  have haccepted : ∀ result, a.importBlock e.1 = some result → result ≠ .alreadyKnown →
      result ≠ .malformed → Accepted a blockNumber e := by
    intro result himport hknown hmalformed
    simp [Accepted, himport, hknown, hmalformed]
  cases himport : a.importBlock e.1 with
  | none => exact .inl ⟨fun h => h.1 himport, rfl⟩
  | some result =>
      cases result with
      | alreadyKnown =>
          dsimp only
          split
          · rename_i hstatus
            refine .inr (.inl ⟨?_, by simpa [goesOn, himport] using hstatus, _, rfl⟩)
            rcases hstatus with hstatus | hstatus <;> simp [Accepted, himport, hstatus]
          · rename_i hstatus
            have hends : goesOn a e.1 = false := by simpa [goesOn, himport] using hstatus
            split
            · rename_i hgap
              split
              · rename_i hknown
                refine .inl ⟨?_, rfl⟩
                intro h
                exact h.2.2 ⟨himport, hgap.1, hgap.2, by rw [hhash]; exact hknown⟩
              · rename_i hknown
                refine .inr (.inr ⟨?_, hends, ?_⟩)
                · refine ⟨by simp [himport], by simp [himport], ?_⟩
                  rintro ⟨-, -, -, h⟩
                  rw [hhash] at h
                  exact hknown h
                · split
                  · exact ⟨_, rfl⟩
                  · split <;> exact ⟨_, rfl⟩
            · rename_i hgap
              refine .inr (.inr ⟨?_, hends, _, rfl⟩)
              refine ⟨by simp [himport], by simp [himport], ?_⟩
              rintro ⟨-, hunknown, hne, -⟩
              exact hgap ⟨hunknown, hne⟩
      | malformed => exact .inl ⟨fun h => h.2.1 himport, rfl⟩
      | alreadyInChain | success | overbidGasPrice | zeroSignature =>
          exact .inr (.inl ⟨haccepted _ himport nofun nofun, by simp [goesOn, himport], _, rfl⟩)
      | badChain | futureTimeUnknown | unknownParent | futureTimeKnown =>
          exact .inr (.inr ⟨haccepted _ himport nofun nofun, by simp [goesOn, himport], _, rfl⟩)

/-- The loop of `collectBlocks` fails exactly if the queue does not accept a block
it is handed. -/
theorem collectLoop_error_iff {a : Answers} {entries : List (Nat × Blocker)}
    {blockNumber maxNumber : Nat} (hentries : ∀ e ∈ entries, ∃ header,
      BlockHeader.ofHeader P e.2.head = some header ∧ header.number % 2 ^ 32 = e.1 ∧
      e.2.hash = header.hash) :
    (∃ fault, collectLoop P a r blockNumber maxNumber entries = .error fault) ↔
      ∃ x ∈ handed a blockNumber entries, ¬ Accepted a x.1 x.2 := by
  induction entries generalizing blockNumber maxNumber with
  | nil => simp [collectLoop, handed]
  | cons e es ih =>
      by_cases hnull : (e.2.body.isNull || e.2.head.isNull) = true
      · simp only [collectLoop, handed, if_pos hnull]
        simp
      · obtain ⟨header, hheader, hnumber, hhash⟩ := hentries e (.head _)
        simp only [handed, if_neg hnull, List.mem_cons, exists_eq_or_imp]
        rcases collectLoop_cons (a := a) (r := r) es blockNumber maxNumber hnull hheader hnumber
          hhash with
          ⟨hbad, hloop⟩ | ⟨hgood, hgo, m, hloop⟩ | ⟨hgood, hgo, c, hloop⟩
        · simp [hloop, hbad]
        · rw [hloop, ih fun e' he' => hentries e' (.tail _ he')]
          simp [hgood, hgo]
        · simp [hloop, hgood, hgo]

theorem genesis_trim (h : Trim P r r') : r'.genesis = r.genesis := by
  have hremove : ∀ (r : Request) (e : Nat × Blocker), (r.removeEntry P e).genesis = r.genesis := by
    intro r e
    simp only [removeEntry, removeHeader]
    split
    · rfl
    · split
      · rfl
      · split <;> rfl
  induction h with
  | refl => rfl
  | remove e _ _ ih => exact (hremove _ e).trans ih
  | clear _ ih => exact ih
  | touch e timeout _ _ ih => exact ih

theorem insertBlockerAt_error_iff {number : Nat} {b : Blocker} {header : BlockHeader} :
    (∃ fault, r.insertBlockerAt P number b header = .error fault) ↔
      number = 0 ∨ (number = 1 ∧ b.parent ≠ r.genesis.hash) := by
  simp only [insertBlockerAt]
  split
  · rename_i hzero
    exact ⟨fun _ => .inl hzero, fun _ => ⟨_, rfl⟩⟩
  · rename_i hpos
    split
    · rename_i hfirst
      exact ⟨fun _ => .inr hfirst, fun _ => ⟨_, rfl⟩⟩
    · rename_i hfirst
      simp only [hpos, hfirst, false_or, iff_false]
      rintro ⟨fault, h⟩
      split at h <;> cases h

/-- `insertBlocker` fails for number zero, and for a stranger it stores as number
one. -/
theorem insertBlocker_error_iff {b : Blocker} : (∃ fault, r.insertBlocker P b = .error fault) ↔
    ∃ header, BlockHeader.ofHeader P b.head = some header ∧ (header.number % 2 ^ 32 = 0 ∨
      (header.number % 2 ^ 32 = 1 ∧ (r.prepare P 1 header b.id).2 = true ∧
        b.parent ≠ r.genesis.hash)) := by
  simp only [insertBlocker]
  cases hheader : BlockHeader.ofHeader P b.head with
  | none => simp
  | some header =>
      simp only [Option.some.injEq, exists_eq_left']
      generalize header.number % 2 ^ 32 = number
      split
      · rename_i hzero
        exact ⟨fun _ => .inl hzero, fun _ => ⟨_, rfl⟩⟩
      · rename_i hpos
        have hgenesis := genesis_trim (trim_prepare (P := P) (r := r) number header b.id)
        split
        · rename_i r₁ hprep
          constructor
          · rintro ⟨fault, h⟩
            cases h
          · rintro (hzero | ⟨rfl, hstore, -⟩)
            · exact absurd hzero hpos
            · rw [hprep] at hstore
              cases hstore
        · rename_i r₁ hprep
          rw [hprep] at hgenesis
          rw [insertBlockerAt_error_iff, hgenesis]
          refine or_congr_right (and_congr_right ?_)
          rintro rfl
          rw [hprep]
          exact (and_iff_right rfl).symm

/-- An operation that inserts a header fails exactly if it is not safe. -/
theorem insert_crashes_iff {op : Op} (hstep : step P r op =
    match incoming P op with
    | none => .ok r
    | some b => r.insertBlocker P b) :
    (∃ fault, step P r op = .error fault) ↔ ¬ ∀ b header, incoming P op = some b →
      BlockHeader.ofHeader P b.head = some header → header.number % 2 ^ 32 ≠ 0 ∧
      (header.number % 2 ^ 32 = 1 → (r.prepare P 1 header b.id).2 = true →
        header.parentHash = r.genesis.hash) := by
  rw [hstep]
  cases hin : incoming P op with
  | none => simp
  | some b =>
      simp only [insertBlocker_error_iff]
      constructor
      · rintro ⟨header, hheader, hbad⟩ hsafe
        obtain ⟨hpos, hfirst⟩ := hsafe b header rfl hheader
        rcases hbad with hzero | ⟨hone, hstore, hparent⟩
        · exact hpos hzero
        · rw [(incoming_header hin hheader).2] at hparent
          exact hparent (hfirst hone hstore)
      · intro hunsafe
        push Not at hunsafe
        obtain ⟨b', header, hb', hheader, hbad⟩ := hunsafe
        cases hb'
        refine ⟨header, hheader, ?_⟩
        by_cases hzero : header.number % 2 ^ 32 = 0
        · exact .inl hzero
        · obtain ⟨hone, hstore, hparent⟩ := hbad hzero
          exact .inr ⟨hone, hstore, by rwa [(incoming_header hin hheader).2]⟩

theorem insertBody_crashes_iff {body : Rlp} : (∃ fault, r.insertBody P body = .error fault) ↔
    ¬ ∀ n, r.headerToNumber[bodyRoots P body]? = some n → n ∈ r.blocks := by
  simp only [insertBody]
  cases r.headerToNumber[bodyRoots P body]? with
  | none => simp
  | some n =>
      simp only [Option.some.injEq, forall_eq', Std.ExtTreeMap.mem_iff_isSome_getElem?]
      cases r.blocks[n]? with
      | none => simp
      | some b => simp

/-- `collectBlocks` crashes exactly if it is not safe. -/
theorem collectBlocks_crashes_iff (hnumbered : Numbered P r) (hgrounded : Grounded r)
    (a : Answers) :
    ((∃ fault, r.collectBlocks P a = .error fault) ∨ readsEnd P a r = true) ↔
      ¬ Safe P r (.op (.collectBlocks a)) := by
  have hnumbered' := numbered_trim hnumbered (trim_clearNeedless a)
  have hgrounded' := grounded_clearNeedless (P := P) hgrounded a
  simp only [Safe, collectBlocks, readsEnd]
  generalize r.clearNeedless P a = r₁ at hnumbered' hgrounded' ⊢
  rw [collectStart_eq]
  cases hempty : r₁.blocks.isEmpty with
  | true =>
      have hnone : r₁.aboveGenesis = [] := by
        rw [aboveGenesis, List.isEmpty_iff.mp (Std.ExtTreeMap.isEmpty_toList.trans hempty)]
        rfl
      simp [hnone]
  | false =>
      have hentry : ∀ e ∈ r₁.aboveGenesis, ∃ header,
          BlockHeader.ofHeader P e.2.head = some header ∧ header.number % 2 ^ 32 = e.1 ∧
          e.2.hash = header.hash := by
        intro e he
        obtain ⟨hne, hb⟩ := mem_aboveGenesis he
        exact hnumbered' e.1 e.2 hne hb
      cases habove : r₁.aboveGenesis with
      | nil => exact absurd habove (aboveGenesis_ne_nil hgrounded' hempty)
      | cons e es =>
          rw [habove] at hentry
          have hloop : ∀ entries, (∀ e' ∈ entries, e' ∈ e :: es) →
              ((∃ fault, (collectLoop P a r₁ ((entries.head?.map (·.1)).getD 0) 0 entries).map
                (finishCollect P r₁) = .error fault) ↔
              ∃ x ∈ handed a ((entries.head?.map (·.1)).getD 0) entries, ¬ Accepted a x.1 x.2) := by
            intro entries hsub
            simp only [map_eq_error]
            exact collectLoop_error_iff fun e' he' => hentry e' (hsub e' he')
          by_cases hnull : e.2.body.isNull = true
          · have hiff := hloop es fun e' he' => .tail _ he'
            simp only [hnull, if_true, Bool.false_eq_true, if_false, Bool.not_false, Bool.true_and,
              Option.all_some, Option.some.injEq, forall_eq', List.isEmpty_iff]
            rw [hiff]
            cases es with
            | nil => simp [handed, hnull]
            | cons e' es => simp
          · have hiff := hloop (e :: es) fun e' he' => he'
            simp only [hnull, Bool.false_eq_true, if_false, Bool.not_false, Bool.true_and,
              Option.all_some, Option.some.injEq, forall_eq', List.isEmpty_iff]
            rw [hiff]
            simp [hnull]

theorem requestKnown_ok (r : Request) (myNumber : Nat) :
    ∃ ask, r.requestKnown myNumber = .ok ask := by
  obtain ⟨⟨first, count⟩, hwindow⟩ := requestHeads_ok (r := r)
  have hask : ∀ window : Nat × Nat, ∃ ask, (if 0 < window.1 ∧ 0 < window.2 then
      .ok (some (.blockHeaders window.1 (min window.2 maxRequestCount)))
      else .ok none : Except Fault (Option SyncRequest)) = .ok ask := by
    intro window
    split <;> exact ⟨_, rfl⟩
  rw [requestKnown, hwindow]
  exact hask _

theorem requestUnknown_error_iff (myNumber : Nat) :
    (∃ fault, r.requestUnknown myNumber = .error fault) ↔ r.underNumber < 2 := by
  simp only [requestUnknown, maxRequestCount]
  generalize r.underNumber = first
  by_cases hzero : first = 0
  · simp [hzero]
  · by_cases hmine : myNumber < first ∧ 8 < myNumber
    · have hcount : ¬ first - (myNumber - 8 / 2) = 0 := by omega
      simp only [hzero, hmine, hcount, and_self, if_true, if_false, reduceCtorEq, exists_false,
        false_iff, not_lt]
      omega
    · by_cases hone : 1 < first
      · have hcount : ¬ first - first / 2 = 0 := by omega
        simp only [hzero, hmine, hone, hcount, if_true, if_false, reduceCtorEq, exists_false,
          false_iff, not_lt]
        omega
      · simp only [hzero, hmine, hone, if_true, if_false, Except.error.injEq, exists_eq',
          true_iff]
        omega

/-- Asking a peer fails exactly if the lowest entry is not known and has number zero
or one. -/
theorem askPeer_error_iff {env : Env} : (∃ fault, r.askPeer env = .error fault) ↔
    ¬ (env.later.knowHash r.underHash = true ∨ 2 ≤ r.underNumber) := by
  simp only [askPeer]
  split
  · rename_i hknown
    rw [iff_false_right (not_not.mpr (.inl hknown))]
    rintro ⟨fault, h⟩
    split at h
    · cases h
    · obtain ⟨ask, hask⟩ :=
        requestKnown_ok (r.requestBodys maxRequestCount env.askTime).1 env.myNumber
      rw [hask] at h
      cases h
  · rename_i hknown
    rw [or_iff_right hknown, not_le, ← requestUnknown_error_iff env.myNumber]
    refine exists_congr fun fault => ?_
    rw [bind_eq_error]
    refine or_iff_left ?_
    rintro ⟨ask, -, h⟩
    cases h

/-- In every buffer reached, a call crashes exactly if it is not safe. -/
theorem call_crashes_iff (hr : (system P).Reach (fun _ _ => True) r) (call : Call) :
    call.Crashes P r ↔ ¬ Safe P r call := by
  cases call with
  | ask env => exact askPeer_error_iff
  | op action =>
      have hother : (∀ a, action ≠ .collectBlocks a) →
          ((Call.op action).Crashes P r ↔ ∃ fault, step P r action = .error fault) := by
        intro hne
        refine or_iff_left ?_
        rintro ⟨a, rfl, -⟩
        exact hne a rfl
      cases action with
      | insertHead now id item =>
          rw [hother (by simp)]
          exact insert_crashes_iff rfl
      | insertBlock now id block =>
          rw [hother (by simp)]
          exact insert_crashes_iff rfl
      | insertBody body =>
          rw [hother (by simp)]
          exact insertBody_crashes_iff
      | collectBlocks a =>
          have hiff := collectBlocks_crashes_iff (numbered_reach hr) (grounded_reach hr) a
          rw [← hiff]
          simp [Call.Crashes, step]
      | removeUnder number | clear | requestBodys limit now =>
          rw [hother (by simp)]
          simp [step, Safe, incoming]

end Sound

/-! ## Runs -/

/-- All runs of the synchroniser. -/
def syncSystem (P : Prims) : System Request Event where
  init r := ∃ hash time, r = start hash time
  step r event := (r.onEvent P event).toOption

section Runs

variable {P : Prims} {r r' : Request}

/-- Every run of the synchroniser is a run of the buffer. -/
theorem reach_of_syncSystem (h : (syncSystem P).Reach (fun _ _ => True) r) :
    (system P).Reach (fun _ _ => True) r := by
  refine h.invariant ?_ ?_
  · intro r hinit
    exact .init hinit
  · intro r event r' _ hr _ hstep
    exact (driven_onEvent (toOption_eq_some hstep)).reach hr

/-- What a handler does before `continueSync` is done by operations. -/
theorem driven_continues {event : Event} {env : Env} {peer : NodeID}
    (h : Continues P r event env peer r') : Driven P r r' := by
  cases h with
  | headers hloop hknown => exact (driven_headersLoop hloop).trans (driven_insertKnown hknown)
  | newBlock _ _ hblock => exact .op (.insertBlock _ _ _) hblock
  | bodies hbodies => exact driven_foldlM_insertBody hbodies

/-- So is what it does before any call. -/
theorem driven_performs {event : Event} {call : Call} (h : Performs P r event r' call) :
    Driven P r r' := by
  cases h with
  | head hloop _ _ => exact driven_headersLoop hloop
  | known hloop _ =>
      refine (driven_headersLoop hloop).trans ?_
      split
      · exact .op (.removeUnder _) rfl
      · exact .refl
  | block _ => exact .refl
  | body hbodies => exact driven_foldlM_insertBody hbodies
  | collect hgo => exact driven_continues hgo
  | ask hgo hcollect _ _ => exact (driven_continues hgo).trans (.op (.collectBlocks _) hcollect)

end Runs

/-- **A run of the synchroniser never crashes exactly if every call its handlers make
is safe in the buffer it finds.** -/
theorem never_crashes_iff (P : Prims) (hash : H256) (time : Nat) (events : List Event) :
    (syncSystem P).Always (fun r event => ¬ Crashes P r event) (start hash time) events ↔
      (syncSystem P).Always (fun r event => ∀ r₁ call, Performs P r event r₁ call → Safe P r₁ call)
        (start hash time) events := by
  refine System.always_congr ?_ events (.init ⟨hash, time, rfl⟩)
  intro r event hr
  have hcalls : ∀ r₁ call, Performs P r event r₁ call → (call.Crashes P r₁ ↔ ¬ Safe P r₁ call) := by
    intro r₁ call hcall
    exact call_crashes_iff ((driven_performs hcall).reach (reach_of_syncSystem hr)) call
  rw [crashes_iff_performs]
  constructor
  · intro hnever r₁ call hcall
    by_contra hunsafe
    exact hnever ⟨r₁, call, hcall, (hcalls r₁ call hcall).mpr hunsafe⟩
  · rintro hsafe ⟨r₁, call, hcall, hcrash⟩
    exact (hcalls r₁ call hcall).mp hcrash (hsafe r₁ call hcall)

/-- A header with number zero fails an assertion, and so does a header with number
one under another genesis block.  A single header with a transaction makes
`collectBlocks` read past the end. -/
theorem packets_crash :
    (Crashes Prims.sample (start 7 0) (.peerBlockHeaders (sampleEnv 100) 1 [sampleHead 0 5 0 0])) ∧
    (Crashes Prims.sample (start 7 0) (.peerBlockHeaders (sampleEnv 100) 1 [sampleHead 1 5 8 0])) ∧
    (Crashes Prims.sample (start 7 0)
      (.peerBlockHeaders (sampleEnv 100) 1 [sampleHead 10 5 0 1])) := by
  refine ⟨.inl (exists_error (by decide +kernel)), .inl (exists_error (by decide +kernel)), ?_⟩
  obtain ⟨⟨r₁, found⟩, hloop, hend⟩ := exists_ok
    (x := headersLoop Prims.sample (sampleEnv 100) 1 0 [sampleHead 10 5 0 1] (0, .null) (start 7 0))
    (p := fun q => q.2.any fun found =>
      (q.1.insertKnown Prims.sample (sampleEnv 100) 101 1 found).toOption.any fun r =>
        readsEnd Prims.sample (sampleEnv 100).answers r)
    (by decide +kernel)
  rw [Option.any_eq_true] at hend
  obtain ⟨found, rfl, hend⟩ := hend
  obtain ⟨r₂, hknown, hend⟩ := exists_ok hend
  exact .inr ⟨_, _, r₂, .headers hloop hknown, hend⟩

end Request

end CppSwc
