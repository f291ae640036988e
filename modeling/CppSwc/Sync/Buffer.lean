import CppSwc.Lib.Run
import CppSwc.Lib.Tree
import CppSwc.Sync.Request

/-!
# What the operations do to the buffer

All operations but `insertHead`, `insertBlock` and `insertBody` only take entries
away, clear the buffer or set a timeout.  `Trim` is the relation of these moves.
`insertBlocker` trims the buffer and then stores one entry, so an invariant of the
buffer is a property kept by the three moves, by `insertBlockerAt` and by
`insertBody`.
-/

namespace CppSwc

open Lib

namespace Request

/-- The second buffer comes from the first by taking away entries, clearing and
setting timeouts. -/
inductive Trim (P : Prims) (r : Request) : Request → Prop where
  | refl : Trim P r r
  | remove {r' : Request} (e : Nat × Blocker) : Trim P r r' → r'.blocks[e.1]? = some e.2 →
      Trim P r (r'.removeEntry P e)
  | clear {r' : Request} : Trim P r r' → Trim P r r'.clear
  | touch {r' : Request} (e : Nat × Blocker) (timeout : Nat) : Trim P r r' →
      r'.blocks[e.1]? = some e.2 →
      Trim P r { r' with blocks := r'.blocks.insert e.1 { e.2 with bodyTimeout := timeout } }

variable {P : Prims} {r r' r'' : Request}

theorem Trim.trans (h : Trim P r r') (h' : Trim P r' r'') : Trim P r r'' := by
  induction h' with
  | refl => exact h
  | remove e _ he ih => exact ih.remove e he
  | clear _ ih => exact ih.clear
  | touch e timeout _ he ih => exact ih.touch e timeout he

/-- A property kept by the three moves is kept by trimming. -/
theorem Trim.invariant {I : Request → Prop} (h : Trim P r r') (hr : I r)
    (remove : ∀ r e, r.blocks[e.1]? = some e.2 → I r → I (r.removeEntry P e))
    (clear : ∀ r, I r → I r.clear)
    (touch : ∀ (r : Request) (e : Nat × Blocker) (timeout : Nat), r.blocks[e.1]? = some e.2 → I r →
      I { r with blocks := r.blocks.insert e.1 { e.2 with bodyTimeout := timeout } }) : I r' := by
  induction h with
  | refl => exact hr
  | remove e _ he ih => exact remove _ e he ih
  | clear _ ih => exact clear _ ih
  | touch e timeout _ he ih => exact touch _ e timeout he ih

/-! ## Removing entries -/

theorem removeHeader_blocks (head : Rlp) : (r.removeHeader P head).blocks = r.blocks := by
  simp only [removeHeader]
  split
  · rfl
  · split <;> rfl

theorem removeEntry_blocks (e : Nat × Blocker) :
    (r.removeEntry P e).blocks = r.blocks.erase e.1 := by
  simp only [removeEntry]
  split
  · rfl
  · rw [removeHeader_blocks]

theorem foldl_removeEntry_blocks (l : List (Nat × Blocker)) (r : Request) (k : Nat) :
    (l.foldl (removeEntry P) r).blocks[k]? =
      if k ∈ l.map Prod.fst then none else r.blocks[k]? := by
  induction l generalizing r with
  | nil => simp
  | cons e l ih =>
      rw [List.foldl_cons, ih, removeEntry_blocks, getElem?_erase_eq]
      by_cases hk : k ∈ l.map Prod.fst
      · simp [hk]
      · by_cases he : e.1 = k
        · simp [he]
        · have hne : ¬ k = e.1 := fun h => he h.symm
          simp only [hk, he, hne, List.map_cons, List.mem_cons, or_false, if_false]

theorem trim_foldl_removeEntry (l : List (Nat × Blocker)) (r : Request)
    (hl : ∀ e ∈ l, r.blocks[e.1]? = some e.2) (hnodup : (l.map Prod.fst).Nodup) :
    Trim P r (l.foldl (removeEntry P) r) := by
  induction l generalizing r with
  | nil => exact .refl
  | cons e l ih =>
      rw [List.map_cons, List.nodup_cons] at hnodup
      have hfirst : Trim P r (r.removeEntry P e) := Trim.refl.remove e (hl e (.head _))
      refine hfirst.trans (ih _ ?_ hnodup.2)
      intro e' he'
      have hne : ¬ e.1 = e'.1 := by
        intro heq
        exact hnodup.1 (heq ▸ List.mem_map_of_mem he')
      rw [removeEntry_blocks, getElem?_erase_eq, if_neg hne]
      exact hl e' (.tail _ he')

/-- Removing a part of the entries trims the buffer. -/
theorem trim_of_sublist {l : List (Nat × Blocker)} (hl : l.Sublist r.blocks.toList) :
    Trim P r (l.foldl (removeEntry P) r) := by
  apply trim_foldl_removeEntry
  · intro e he
    exact Std.ExtTreeMap.mem_toList_iff_getElem?_eq_some.mp (hl.subset he)
  · exact (hl.map Prod.fst).nodup (nodup_map_fst_toList r.blocks)

theorem trim_removeUnder (number : Nat) : Trim P r (r.removeUnder P number) :=
  trim_of_sublist (List.takeWhile_sublist _)

theorem contiguous_sublist (l : List (Nat × Blocker)) (number : Nat) :
    (contiguous number l).Sublist l := by
  induction l generalizing number with
  | nil => exact .slnil
  | cons e l ih =>
      simp only [contiguous]
      split
      · exact (ih _).cons_cons e
      · exact List.nil_sublist _

theorem trim_removeUpWith (number : Nat) : Trim P r (r.removeUpWith P number) :=
  trim_of_sublist ((contiguous_sublist _ _).trans (List.dropWhile_sublist _))

/-- `removeUnder` takes away exactly the entries below the number. -/
theorem removeUnder_blocks (number k : Nat) :
    (r.removeUnder P number).blocks[k]? = if k < number then none else r.blocks[k]? := by
  have hmem : k ∈ (r.blocks.toList.takeWhile (·.1 < number)).map Prod.fst ↔
      k < number ∧ k ∈ r.blocks := by
    rw [List.mem_map]
    constructor
    · rintro ⟨e, he, rfl⟩
      obtain ⟨hentry, hlt⟩ := (mem_takeWhile_lt (pairwise_lt_toList r.blocks)).mp he
      rw [Std.ExtTreeMap.mem_toList_iff_getElem?_eq_some] at hentry
      exact ⟨hlt, by rw [Std.ExtTreeMap.mem_iff_isSome_getElem?, hentry]; rfl⟩
    · rintro ⟨hlt, hk⟩
      rw [Std.ExtTreeMap.mem_iff_isSome_getElem?, Option.isSome_iff_exists] at hk
      obtain ⟨b, hb⟩ := hk
      rw [← Std.ExtTreeMap.mem_toList_iff_getElem?_eq_some] at hb
      exact ⟨(k, b), (mem_takeWhile_lt (pairwise_lt_toList r.blocks)).mpr ⟨hb, hlt⟩, rfl⟩
  simp only [removeUnder]
  rw [foldl_removeEntry_blocks]
  by_cases hlt : k < number
  · by_cases hk : k ∈ r.blocks
    · simp [hmem, hlt, hk]
    · simp [hmem, hlt, hk]
  · simp [hmem, hlt]

/-- If the number and the next one are buffered, `removeUpWith` takes both away. -/
theorem mem_contiguous {l : List (Nat × Blocker)} {number : Nat} {e : Nat × Blocker}
    (hs : l.Pairwise fun a b => a.1 < b.1) (hle : ∀ a ∈ l, number ≤ a.1)
    (hstart : ∃ a ∈ l, a.1 = number) (he : e ∈ l) (hnext : e.1 ≤ number + 1) :
    e ∈ contiguous number l := by
  induction l generalizing number with
  | nil => cases he
  | cons a l ih =>
      rw [List.pairwise_cons] at hs
      have ha : a.1 = number := by
        obtain ⟨b, hb, rfl⟩ := hstart
        rcases List.mem_cons.mp hb with rfl | hb
        · rfl
        · have := hs.1 b hb
          have := hle a (.head _)
          omega
      simp only [contiguous]
      rw [if_pos ha]
      rcases List.mem_cons.mp he with rfl | he
      · exact .head _
      · have hlt := hs.1 e he
        have hnumber : e.1 = number + 1 := by omega
        refine .tail _ (ih hs.2 ?_ ⟨e, he, hnumber⟩ he (by omega))
        intro b hb
        have := hs.1 b hb
        omega

theorem removeUpWith_next {number : Nat} (h : number ∈ r.blocks) :
    (r.removeUpWith P number).blocks[number + 1]? = none := by
  simp only [removeUpWith]
  rw [foldl_removeEntry_blocks]
  split
  · rfl
  · rename_i hkept
    cases hnext : r.blocks[number + 1]? with
    | none => rfl
    | some c =>
        have hs := pairwise_lt_toList r.blocks
        rw [Std.ExtTreeMap.mem_iff_isSome_getElem?, Option.isSome_iff_exists] at h
        obtain ⟨b, hb⟩ := h
        rw [← Std.ExtTreeMap.mem_toList_iff_getElem?_eq_some] at hb hnext
        refine absurd (List.mem_map.mpr ⟨(number + 1, c), ?_, rfl⟩) hkept
        refine mem_contiguous (hs.sublist (List.dropWhile_sublist _)) ?_ ?_ ?_ (Nat.le_refl _)
        · intro a ha
          exact ((mem_dropWhile_lt hs).mp ha).2
        · exact ⟨(number, b), (mem_dropWhile_lt hs).mpr ⟨hb, Nat.le_refl _⟩, rfl⟩
        · exact (mem_dropWhile_lt hs).mpr ⟨hnext, Nat.le_succ _⟩

theorem foldl_removeEntry_le (l : List (Nat × Blocker)) {k : Nat} {b : Blocker}
    (h : (l.foldl (removeEntry P) r).blocks[k]? = some b) : r.blocks[k]? = some b := by
  rw [foldl_removeEntry_blocks] at h
  split at h
  · cases h
  · exact h

/-! ## Trimming operations -/

theorem trim_clearNeedless (a : Answers) : Trim P r (r.clearNeedless P a) := by
  simp only [clearNeedless]
  split
  · exact trim_removeUnder _
  · exact .refl

theorem trim_finishCollect (c : Collected) : Trim P r (r.finishCollect P c) := by
  cases c with
  | finish maxNumber =>
      simp only [finishCollect]
      split
      · exact .refl
      · split
        · exact Trim.refl.clear
        · exact trim_removeUnder _
  | quit => exact .refl
  | clear => exact Trim.refl.clear
  | removeUnder number => exact trim_removeUnder _

theorem trim_collectBlocks {a : Answers} (h : r.collectBlocks P a = .ok r') : Trim P r r' := by
  simp only [collectBlocks] at h
  split at h
  · cases h
    exact trim_clearNeedless a
  · split at h
    · cases h
    · rename_i entries hstart
      cases hloop : collectLoop P a (r.clearNeedless P a)
          ((entries.head?.map (·.1)).getD 0) 0 entries with
      | error fault =>
          rw [hloop] at h
          cases h
      | ok c =>
          rw [hloop] at h
          cases h
          exact (trim_clearNeedless a).trans (trim_finishCollect c)

theorem trim_requestBodysLoop (limit now : Nat) (l : List (Nat × Blocker)) (number : Nat)
    (bodys : List H256) (r : Request) (hl : ∀ e ∈ l, r.blocks[e.1]? = some e.2)
    (hnodup : (l.map Prod.fst).Nodup) :
    Trim P r (requestBodysLoop limit now number l bodys r).1 := by
  induction l generalizing number bodys r with
  | nil => exact .refl
  | cons e l ih =>
      rw [List.map_cons, List.nodup_cons] at hnodup
      simp only [requestBodysLoop]
      split
      · exact .refl
      · split
        · exact ih _ _ r (fun e' he' => hl e' (.tail _ he')) hnodup.2
        · refine (Trim.refl.touch e (now + requestBodyTimeout) (hl e (.head _))).trans
            (ih _ _ _ ?_ hnodup.2)
          intro e' he'
          have hne : ¬ e.1 = e'.1 := by
            intro heq
            exact hnodup.1 (heq ▸ List.mem_map_of_mem he')
          dsimp only
          rw [getElem?_insert_eq, if_neg hne]
          exact hl e' (.tail _ he')

theorem trim_requestBodys (limit now : Nat) : Trim P r (r.requestBodys limit now).1 := by
  apply trim_requestBodysLoop
  · intro e he
    exact Std.ExtTreeMap.mem_toList_iff_getElem?_eq_some.mp he
  · exact nodup_map_fst_toList r.blocks

theorem trim_matchParent (number : Nat) (header : BlockHeader) (uptime : Nat) :
    Trim P r (r.matchParent P number header uptime).1 := by
  simp only [matchParent]
  split
  · exact .refl
  · split
    · exact Trim.refl.clear
    · exact trim_removeUnder _

theorem trim_prepare (number : Nat) (header : BlockHeader) (id : NodeID) :
    Trim P r (r.prepare P number header id).1 := by
  simp only [prepare]
  split
  · dsimp only
    split
    · exact Trim.refl.clear
    · exact .refl
  · split
    · exact .refl
    · simp only [matchNeighbours]
      split
      · exact trim_matchParent ..
      · split
        · exact Trim.refl.clear
        · exact (trim_removeUpWith number).trans (trim_matchParent ..)

/-! ## Attaching a body -/

/-- `insertBody` changes nothing or replaces one entry. -/
theorem insertBody_cases {body : Rlp} (h : r.insertBody P body = .ok r') :
    r' = r ∨ ∃ (n : Nat) (b : Blocker), r.blocks[n]? = some b ∧
      r' = { r with blocks := r.blocks.insert n { b with body := body } } := by
  simp only [insertBody] at h
  split at h
  · cases h
    exact .inl rfl
  · split at h
    · cases h
    · rename_i number _ _ b hb
      cases h
      exact .inr ⟨number, b, hb, rfl⟩

/-! ## One operation -/

/-- The entry that an operation wants to insert. -/
def incoming (P : Prims) : Op → Option Blocker
  | .insertHead now id item => Blocker.ofHead P now id item
  | .insertBlock now id block => Blocker.ofBlock P now id block
  | _ => none

/-- The number, the header and the entry that an operation stores, and the buffer
it stores them in. -/
def stores (P : Prims) (r : Request) (op : Op) :
    Option (Request × Nat × Blocker × BlockHeader) := do
  let b ← incoming P op
  let header ← BlockHeader.ofHeader P b.head
  let (r, store) := r.prepare P (header.number % 2 ^ 32) header b.id
  if store then some (r, header.number % 2 ^ 32, b, header) else none

/-- What an operation does: it trims the buffer, trims it and stores an entry, or
attaches a body. -/
inductive StepCase (P : Prims) (r : Request) (op : Op) (r' : Request) : Prop where
  | trim : Trim P r r' → StepCase P r op r'
  | store {r₁ : Request} {number : Nat} {b : Blocker} {header : BlockHeader} :
      stores P r op = some (r₁, number, b, header) → Trim P r r₁ →
      r₁.insertBlockerAt P number b header = .ok r' → StepCase P r op r'
  | body {body : Rlp} : op = .insertBody body → r.insertBody P body = .ok r' →
      StepCase P r op r'

theorem stepCase_insertBlocker {op : Op} {b : Blocker} (hin : incoming P op = some b)
    (h : r.insertBlocker P b = .ok r') : StepCase P r op r' := by
  unfold insertBlocker at h
  split at h
  · cases h
    exact .trim .refl
  · rename_i header hheader
    dsimp only at h
    split at h
    · cases h
    · split at h
      · rename_i r₁ hprep
        cases h
        have htrim := trim_prepare (P := P) (r := r) (header.number % 2 ^ 32) header b.id
        rw [hprep] at htrim
        exact .trim htrim
      · rename_i r₁ hprep
        have htrim := trim_prepare (P := P) (r := r) (header.number % 2 ^ 32) header b.id
        rw [hprep] at htrim
        refine .store ?_ htrim h
        simp only [stores, hin, hheader, hprep, Option.bind_eq_bind, Option.bind_some, if_true]

/-- Every operation that succeeds does one of these. -/
theorem stepCase_of_step {op : Op} (h : step P r op = .ok r') : StepCase P r op r' := by
  cases op with
  | insertHead now id item =>
      simp only [step, insertHead] at h
      split at h
      · cases h
        exact .trim .refl
      · rename_i b hb
        exact stepCase_insertBlocker hb h
  | insertBlock now id block =>
      simp only [step, insertBlock] at h
      split at h
      · cases h
        exact .trim .refl
      · rename_i b hb
        exact stepCase_insertBlocker hb h
  | insertBody body => exact .body rfl h
  | removeUnder number =>
      cases h
      exact .trim (trim_removeUnder number)
  | clear =>
      cases h
      exact .trim Trim.refl.clear
  | collectBlocks answers => exact .trim (trim_collectBlocks h)
  | requestBodys limit now =>
      cases h
      exact .trim (trim_requestBodys limit now)

/-- An operation that stores an entry has prepared the buffer for its number. -/
theorem stores_eq_some {op : Op} {r₁ : Request} {number : Nat} {b : Blocker} {header : BlockHeader}
    (h : stores P r op = some (r₁, number, b, header)) :
    incoming P op = some b ∧ BlockHeader.ofHeader P b.head = some header ∧
      number = header.number % 2 ^ 32 ∧ r.prepare P number header b.id = (r₁, true) := by
  simp only [stores, Option.bind_eq_bind, Option.bind_eq_some_iff] at h
  obtain ⟨b', hin, header', hheader, hprep⟩ := h
  generalize hp : r.prepare P (header'.number % 2 ^ 32) header' b'.id = q at hprep
  obtain ⟨r₂, store⟩ := q
  cases store with
  | false => cases hprep
  | true =>
      cases hprep
      exact ⟨hin, hheader, rfl, hp⟩

/-- What `insertBlockerAt` leaves behind: the entry, the genesis entry under the
first block, and for a block with a body its roots in the index. -/
structure Stored (P : Prims) (r : Request) (number : Nat) (b : Blocker) (header : BlockHeader)
    (r' : Request) : Prop where
  pos : number ≠ 0
  genesis : number = 1 → b.parent = r.genesis.hash
  entry : ∃ body, r'.blocks[number]? = some { b with body := body } ∧
    (header.roots = P.emptyRoots → body.isNull = false) ∧
    (header.roots ≠ P.emptyRoots → body = b.body)
  others : ∀ k, k ≠ number →
    r'.blocks[k]? = if k = 0 ∧ number = 1 then some r.genesis else r.blocks[k]?
  index : r'.headerToNumber = if header.roots = P.emptyRoots then r.headerToNumber
    else r.headerToNumber.insert header.roots number

theorem stored_of_insertBlockerAt {number : Nat} {b : Blocker} {header : BlockHeader}
    (h : r.insertBlockerAt P number b header = .ok r') : Stored P r number b header r' := by
  unfold insertBlockerAt at h
  split at h
  · cases h
  · rename_i hpos
    split at h
    · cases h
    · rename_i hgenesis
      have hfirst : number = 1 → b.parent = r.genesis.hash := by
        intro hone
        by_contra hne
        exact hgenesis ⟨hone, hne⟩
      have hothers : ∀ (b' : Blocker) (k : Nat), k ≠ number →
          ((if number = 1 then r.blocks.insert 0 r.genesis else r.blocks).insert number b')[k]? =
            if k = 0 ∧ number = 1 then some r.genesis else r.blocks[k]? := by
        intro b' k hk
        rw [getElem?_insert_eq, if_neg hk.symm]
        by_cases hone : number = 1
        · rw [if_pos hone, getElem?_insert_eq]
          by_cases hzero : k = 0
          · simp [hzero, hone]
          · simp [hzero, Ne.symm hzero]
        · simp [hone]
      dsimp only at h
      split at h
      · rename_i hempty
        cases h
        refine ⟨hpos, hfirst, ⟨.list [.list [], .list []], ?_, fun _ => rfl, fun h => absurd hempty h⟩,
          hothers _, by rw [if_pos hempty]⟩
        exact getElem?_insert_eq.trans (if_pos rfl)
      · rename_i hempty
        cases h
        refine ⟨hpos, hfirst, ⟨b.body, ?_, fun h => absurd h hempty, fun _ => rfl⟩,
          hothers _, by rw [if_neg hempty]⟩
        exact getElem?_insert_eq.trans (if_pos rfl)

/-- All runs of the buffer, from any genesis hash and with any operations. -/
def system (P : Prims) : System Request Op where
  init r := ∃ hash time, r = start hash time
  step r op := (step P r op).toOption

/-- What holds of the empty buffer and is kept by every admitted operation holds
in every buffer reached. -/
theorem invariant {I : Request → Prop} {ok : Request → Op → Prop}
    (hstart : ∀ hash time, I (start hash time))
    (keep : ∀ r op r', ok r op → StepCase P r op r' → I r → I r')
    (h : (system P).Reach ok r) : I r := by
  refine System.Reach.invariant ?_ ?_ h
  · rintro r ⟨hash, time, rfl⟩
    exact hstart hash time
  · intro r op r' _ hr hok hstep
    cases hop : step P r op with
    | error fault => simp [system, hop, Except.toOption] at hstep
    | ok r₁ =>
        simp only [system, hop, Except.toOption, Option.some.injEq] at hstep
        subst hstep
        exact keep r op r₁ hok (stepCase_of_step hop) hr

end Request

end CppSwc
