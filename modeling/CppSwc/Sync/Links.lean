import CppSwc.Sync.Driver

/-!
# Hash links in the buffer

`insertBlocker` means to keep neighbours in the buffer linked.  A header that does
not fit its child makes it drop the entries from its own number on with
`removeUpWith`, and one that does not fit its parent drops those up to its own
number.  The first does nothing if the number itself is not buffered: the loop
starts at the entry of that number.  So a header that fills the gap right below an
unrelated entry stays next to it.  The second does nothing at the highest
`unsigned`, where `blockNumber + 1` is zero.
-/

namespace CppSwc

open Lib

namespace Request

/-- Neighbours are linked, and the keys are numbers of 32 bits. -/
structure Linked (r : Request) : Prop where
  /-- An entry is the parent of the entry above it. -/
  link : ∀ (n : Nat) (b c : Blocker), r.blocks[n]? = some b → r.blocks[n + 1]? = some c → c.parent = b.hash
  /-- The keys are 32-bit numbers. -/
  bounded : ∀ n b, r.blocks[n]? = some b → n < 2 ^ 32

/-- The operation brings a header of the current peer whose number is missing and
whose child belongs to another parent, with neither younger than the newest entry,
or one with the highest number that does not fit its parent. -/
def detached (P : Prims) (r : Request) (op : Op) : Bool :=
  (incoming P op).any fun b => (BlockHeader.ofHeader P b.head).any fun header =>
    let number := header.number % 2 ^ 32
    number ≤ r.upNumber && b.id == r.id 0 &&
      (!r.haveItem number && (r.unmatchedChild number header).any (·.time ≤ r.upTime) ||
        number == 2 ^ 32 - 1 && (r.unmatchedParent number header).any (·.time ≤ r.upTime))

section Step

variable {P : Prims} {r r' : Request}

theorem le_upNumber {n : Nat} {b : Blocker} (h : r.blocks[n]? = some b) : n ≤ r.upNumber := by
  rw [← Std.ExtTreeMap.mem_toList_iff_getElem?_eq_some] at h
  obtain ⟨a, ha, hle⟩ := le_getLast? (pairwise_lt_toList r.blocks) h
  simpa [upNumber, last, ha] using hle

theorem Linked.of_empty (h : r.blocks = ∅) : r.Linked := by
  constructor
  · intro n b c hb
    simp [h] at hb
  · intro n b hb
    simp [h] at hb

/-- Fewer entries with the same links are linked. -/
theorem Linked.of_le (h : r.Linked) (hle : ∀ (n : Nat) (b : Blocker), r'.blocks[n]? = some b →
    ∃ b' : Blocker, r.blocks[n]? = some b' ∧ b'.hash = b.hash ∧ b'.parent = b.parent) :
    r'.Linked := by
  constructor
  · intro n b c hb hc
    obtain ⟨b', hb', hhash, -⟩ := hle n b hb
    obtain ⟨c', hc', -, hparent⟩ := hle (n + 1) c hc
    rw [← hhash, ← hparent]
    exact h.link n b' c' hb' hc'
  · intro n b hb
    obtain ⟨b', hb', -⟩ := hle n b hb
    exact h.bounded n b' hb'

/-- An entry replaced by one with the same hash and parent keeps the links. -/
theorem Linked.update (h : r.Linked) {n : Nat} {b b' : Blocker} (hb : r.blocks[n]? = some b)
    (hhash : b'.hash = b.hash) (hparent : b'.parent = b.parent) :
    { r with blocks := r.blocks.insert n b' }.Linked := by
  refine h.of_le ?_
  intro k c hc
  dsimp only at hc
  rw [getElem?_insert_eq] at hc
  split at hc
  · rename_i hk
    cases hc
    exact ⟨b, hk ▸ hb, hhash.symm, hparent.symm⟩
  · exact ⟨c, hc, rfl, rfl⟩

theorem linked_trim (h : r.Linked) (htrim : Trim P r r') : r'.Linked := by
  refine htrim.invariant h ?_ ?_ ?_
  · intro r e _ hr
    refine hr.of_le ?_
    intro k c hc
    rw [removeEntry_blocks, getElem?_erase_eq] at hc
    split at hc
    · cases hc
    · exact ⟨c, hc, rfl, rfl⟩
  · intro r _
    exact .of_empty rfl
  · intro r e timeout he hr
    exact hr.update he rfl rfl

theorem linked_insertBody (h : r.Linked) {body : Rlp} (hbody : r.insertBody P body = .ok r') :
    r'.Linked := by
  obtain rfl | ⟨n, b, hb, rfl⟩ := insertBody_cases hbody
  · exact h
  · exact h.update hb rfl rfl

/-- What comes in carries the hashes of its header. -/
theorem incoming_header {op : Op} {b : Blocker} {header : BlockHeader}
    (hin : incoming P op = some b) (hheader : BlockHeader.ofHeader P b.head = some header) :
    b.hash = header.hash ∧ b.parent = header.parentHash := by
  cases op with
  | insertHead now id item =>
      simp only [incoming, Blocker.ofHead, Option.map_eq_some_iff] at hin
      obtain ⟨header', hheader', rfl⟩ := hin
      cases hheader'.symm.trans hheader
      exact ⟨rfl, rfl⟩
  | insertBlock now id block =>
      simp only [incoming, Blocker.ofBlock, Option.bind_eq_bind, Option.bind_eq_some_iff] at hin
      obtain ⟨header', hheader', hb⟩ := hin
      split at hb
      · cases hb
        simp only [BlockHeader.ofBlock, BlockHeader.extractHeader] at hheader'
        split at hheader'
        · cases hheader'.symm.trans hheader
          exact ⟨rfl, rfl⟩
        · cases hheader'
      · cases hb
  | _ => cases hin

/-! ## What `prepare` leaves next to the new entry -/

/-- The header fits the neighbours that are buffered. -/
structure Fits (r : Request) (number : Nat) (header : BlockHeader) : Prop where
  child : ∀ c, r.blocks[number + 1]? = some c → c.parent = header.hash
  parent : ∀ p, r.blocks[number - 1]? = some p → header.parentHash = p.hash

theorem parent_of_unmatchedParent {number : Nat} {header : BlockHeader}
    (h : r.unmatchedParent number header = none) {p : Blocker}
    (hp : r.blocks[number - 1]? = some p) : header.parentHash = p.hash := by
  simp only [unmatchedParent, hp, Option.filter_some] at h
  simpa using h

theorem child_of_unmatchedChild (hbound : r.Linked) {number : Nat} {header : BlockHeader}
    (h : r.unmatchedChild number header = none) {c : Blocker}
    (hc : r.blocks[number + 1]? = some c) : c.parent = header.hash := by
  have hlt := hbound.bounded (number + 1) c hc
  have hnext : nextNumber number = number + 1 := Nat.mod_eq_of_lt hlt
  simp only [unmatchedChild, hnext, hc, Option.filter_some] at h
  simpa using h

/-- After the check against the entry below, the header fits it, unless its number
is the highest. -/
theorem parent_of_matchParent {number uptime : Nat} {header : BlockHeader} (hlt : number < 2 ^ 32)
    (h : r.matchParent P number header uptime = (r', true))
    (htop : number = 2 ^ 32 - 1 →
      (r.unmatchedParent number header).any (·.time ≤ uptime) = false) {p : Blocker}
    (hp : r'.blocks[number - 1]? = some p) : header.parentHash = p.hash := by
  simp only [matchParent] at h
  split at h
  · rename_i hmatch
    cases h
    exact parent_of_unmatchedParent hmatch hp
  · rename_i parent hparent
    split at h
    · cases h
    · rename_i htime
      cases h
      rw [removeUnder_blocks] at hp
      by_cases heq : number = 2 ^ 32 - 1
      · have hany := htop heq
        rw [hparent, Option.any_some, decide_eq_false_iff_not] at hany
        omega
      · have hnext : nextNumber number = number + 1 := Nat.mod_eq_of_lt (by omega)
        rw [hnext, if_pos (by omega)] at hp
        cases hp

theorem matchParent_le {number uptime : Nat} {header : BlockHeader}
    (h : r.matchParent P number header uptime = (r', true)) {k : Nat} {b : Blocker}
    (hb : r'.blocks[k]? = some b) : r.blocks[k]? = some b := by
  simp only [matchParent] at h
  split at h
  · cases h
    exact hb
  · split at h
    · cases h
    · cases h
      exact foldl_removeEntry_le _ hb

/-- Where the operation is not detached, the header fits what is left. -/
theorem fits_of_prepare (hr : r.Linked) {op : Op} {b : Blocker} {header : BlockHeader}
    (hin : incoming P op = some b) (hheader : BlockHeader.ofHeader P b.head = some header)
    (hok : detached P r op = false)
    (h : r.prepare P (header.number % 2 ^ 32) header b.id = (r', true)) :
    r'.Fits (header.number % 2 ^ 32) header := by
  have hlt : header.number % 2 ^ 32 < 2 ^ 32 := Nat.mod_lt _ (by decide)
  simp only [detached, hin, hheader, Option.any_some] at hok
  generalize header.number % 2 ^ 32 = number at hlt h hok
  simp only [prepare] at h
  split at h
  · -- The number is above all entries, so there is no child.
    rename_i hup
    have hchild : ∀ c, r.blocks[number + 1]? ≠ some c := by
      intro c hc
      have := le_upNumber hc
      omega
    cases h
    split
    · constructor
      · intro c hc
        simp [clear] at hc
      · intro p hp
        simp [clear] at hp
    · rename_i hmatch
      rw [Option.not_isSome_iff_eq_none] at hmatch
      constructor
      · intro c hc
        exact absurd hc (hchild c)
      · intro p hp
        exact parent_of_unmatchedParent hmatch hp
  · rename_i hup
    split at h
    · cases h
    · rename_i hid
      rw [ne_eq, not_not] at hid
      have hle : number ≤ r.upNumber := by omega
      simp only [hle, hid, decide_true, beq_self_eq_true, Bool.true_and, Bool.or_eq_false_iff,
        Bool.and_eq_false_imp, Bool.not_eq_true', beq_iff_eq] at hok
      simp only [matchNeighbours] at h
      split at h
      · rename_i hchild
        constructor
        · intro c hc
          exact child_of_unmatchedChild hr hchild (matchParent_le h hc)
        · intro p hp
          exact parent_of_matchParent hlt h hok.2 hp
      · rename_i child hchild
        split at h
        · cases h
        · rename_i htime
          -- The child does not fit, so the number must be buffered.
          have hmem : number ∈ r.blocks := by
            by_cases hmem : number ∈ r.blocks
            · exact hmem
            · have hmissing : r.haveItem number = false := by
                rw [haveItem, ← Bool.not_eq_true, Std.ExtTreeMap.contains_iff_mem]
                exact hmem
              have hany := hok.1 hmissing
              rw [hchild, Option.any_some, decide_eq_false_iff_not] at hany
              omega
          constructor
          · intro c hc
            have hnone := removeUpWith_next (P := P) hmem
            rw [matchParent_le h hc] at hnone
            cases hnone
          · intro p hp
            refine parent_of_matchParent hlt h ?_ hp
            intro htop
            have hany := hok.2 htop
            have hsame : ∀ p, (r.removeUpWith P number).unmatchedParent number header = some p →
                r.unmatchedParent number header = some p := by
              intro p hp
              simp only [unmatchedParent, Option.filter_eq_some_iff] at hp ⊢
              exact ⟨foldl_removeEntry_le _ hp.1, hp.2⟩
            cases hparent : (r.removeUpWith P number).unmatchedParent number header with
            | none => rfl
            | some p =>
                rw [hsame p hparent] at hany
                exact hany

/-- Storing an entry that fits its neighbours keeps the links. -/
theorem linked_insertBlockerAt (hr : r.Linked) {number : Nat} {b : Blocker} {header : BlockHeader}
    (hlt : number < 2 ^ 32) (hfits : r.Fits number header) (hhash : b.hash = header.hash)
    (hparent : b.parent = header.parentHash)
    (h : Stored P r number b header r') : r'.Linked := by
  obtain ⟨body, hentry, -⟩ := h.entry
  constructor
  · intro n c d hc hd
    by_cases hn : n = number
    · -- The entry is the lower one.
      subst hn
      rw [hentry] at hc
      cases hc
      rw [h.others (n + 1) (by omega), if_neg (by omega)] at hd
      rw [hfits.child d hd]
      exact hhash.symm
    · by_cases hn' : n + 1 = number
      · -- The entry is the upper one.
        subst hn'
        rw [hentry] at hd
        cases hd
        rw [h.others n (by omega)] at hc
        split at hc
        · rename_i hfirst
          cases hc
          exact h.genesis hfirst.2
        · exact hparent.trans (hfits.parent c hc)
      · rw [h.others n hn] at hc
        rw [h.others (n + 1) hn', if_neg (by omega)] at hd
        split at hc
        · -- Entry 1 is the new one, so it is not above the genesis entry.
          omega
        · exact hr.link n c d hc hd
  · intro n c hc
    by_cases hn : n = number
    · exact hn ▸ hlt
    · rw [h.others n hn] at hc
      split at hc
      · omega
      · exact hr.bounded n c hc

end Step

/-- **Along every run of operations none of which is detached, neighbours in the
buffer are linked by their hashes.** -/
theorem buffer_linked (P : Prims) {r : Request}
    (h : (system P).Reach (fun r op => detached P r op = false) r) (n : Nat) (b c : Blocker)
    (hb : r.blocks[n]? = some b) (hc : r.blocks[n + 1]? = some c) : c.parent = b.hash := by
  have hlinked : r.Linked := by
    refine invariant ?_ ?_ h
    · intro hash time
      exact .of_empty rfl
    · intro r op r' hok hcase hr
      cases hcase with
      | trim htrim => exact linked_trim hr htrim
      | store hstores htrim hinsert =>
          obtain ⟨hin, hheader, rfl, hprep⟩ := stores_eq_some hstores
          obtain ⟨hhash, hparent⟩ := incoming_header hin hheader
          exact linked_insertBlockerAt (linked_trim hr htrim) (Nat.mod_lt _ (by decide))
            (fits_of_prepare hr hin hheader hok hprep) hhash hparent
            (stored_of_insertBlockerAt hinsert)
      | body _ hbody => exact linked_insertBody hr hbody
  exact hlinked.link n b c hb hc

/-- Header 11 above its parent is stored, and the two are linked. -/
theorem buffer_linked_two :
    ∃ r, (system Prims.sample).Reach (fun r op => detached Prims.sample r op = false) r ∧
      ∃ b c : Blocker, r.blocks[10]? = some b ∧ r.blocks[11]? = some c ∧ c.parent = b.hash := by
  have hstart : (system Prims.sample).Reach (fun r op => detached Prims.sample r op = false)
      (start 7 0) := .init ⟨7, 0, rfl⟩
  obtain ⟨r, hreach, hboth⟩ := hstart.exists_of_check
    [.insertHead 100 1 (sampleHead 10 5 0 0),
      .insertHead 101 1 (sampleHead 11 6 (Prims.sample.sha3 (sampleHead 10 5 0 0)) 1)]
    (p := fun r => r.blocks[10]?.isSome && r.blocks[11]?.isSome) (by decide +kernel)
    (by decide +kernel)
  simp only [Bool.and_eq_true, Option.isSome_iff_exists] at hboth
  obtain ⟨⟨b, hb⟩, c, hc⟩ := hboth
  exact ⟨r, hreach, b, c, hb, hc, buffer_linked Prims.sample hreach 10 b c hb hc⟩

/-- One peer sends header 10, and then a header 9 that is not its parent. -/
def strangerRun : List Event :=
  [.peerBlockHeaders (sampleEnv 100) 1 [sampleHead 10 5 0 0],
    .peerBlockHeaders (sampleEnv 200) 1 [sampleHead 9 4 0 0]]

/-- Header 9 fills the gap below an entry that belongs to another parent, and both
stay. -/
theorem stranger_stays_below_entry :
    ∃ r, strangerRun.foldlM (onEvent Prims.sample) (start 7 0) = .ok r ∧
      (system Prims.sample).Reach (fun _ _ => True) r ∧
      ∃ b c : Blocker, r.blocks[9]? = some b ∧ r.blocks[10]? = some c ∧ c.parent ≠ b.hash := by
  obtain ⟨r, hrun, hstranger⟩ :=
    exists_ok (x := strangerRun.foldlM (onEvent Prims.sample) (start 7 0))
      (p := fun r => r.blocks[9]?.any fun b => r.blocks[10]?.any fun c => c.parent != b.hash)
      (by decide +kernel)
  simp only [Option.any_eq_true, bne_iff_ne] at hstranger
  obtain ⟨b, hb, c, hc, hne⟩ := hstranger
  exact ⟨r, hrun, reach_of_events hrun (.init ⟨7, 0, rfl⟩), b, c, hb, hc, hne⟩

end Request

end CppSwc
