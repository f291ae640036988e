import CppSwc.Sync.Links

/-!
# The index of the buffer

`m_HeaderToNumber` leads from the roots of a body to the number of its header.
The removal loops drop the index entry with the header.  `insertBlockerAt` writes
the index and never clears it, so a header that replaces another one at its number
leaves the old roots behind.  And the index has one number for each pair of roots,
although headers at different numbers may share them, as a comment in the source
says: the last one wins, and the removal of one takes the index entry of all.

The first section is about the entries that are in the index, the second about the
headers that are not.
-/

namespace CppSwc

open Lib

namespace Request

/-! ## What the index says is true -/

/-- Every index entry leads to a header with these roots. -/
def Indexed (P : Prims) (r : Request) : Prop :=
  ∀ (roots : Header) (n : Nat), r.headerToNumber[roots]? = some n →
    n ≠ 0 ∧ roots ≠ P.emptyRoots ∧ ∃ (b : Blocker) (header : BlockHeader),
      r.blocks[n]? = some b ∧ BlockHeader.ofHeader P b.head = some header ∧ header.roots = roots

/-- The operation stores a header over one with other roots that is in the index
under its number. -/
def overwrites (P : Prims) (r : Request) (op : Op) : Bool :=
  (stores P r op).any fun (r, number, _, header) =>
    r.blocks[number]?.any fun old => (BlockHeader.ofHeader P old.head).any fun oldHeader =>
      r.headerToNumber[oldHeader.roots]? == some number && oldHeader.roots != header.roots

section Indexed

variable {P : Prims} {r r' : Request}

theorem removeEntry_index {e : Nat × Blocker} {roots : Header} {n : Nat}
    (h : (r.removeEntry P e).headerToNumber[roots]? = some n) :
    r.headerToNumber[roots]? = some n ∧ (e.1 ≠ 0 → ∀ header,
      BlockHeader.ofHeader P e.2.head = some header → roots ≠ P.emptyRoots →
      header.roots ≠ roots) := by
  simp only [removeEntry, removeHeader] at h
  split at h
  · rename_i hzero
    exact ⟨h, fun hne => absurd hzero hne⟩
  · split at h
    · rename_i hnone
      refine ⟨h, ?_⟩
      intro _ header hheader
      rw [hnone] at hheader
      cases hheader
    · rename_i header hheader
      split at h
      · rename_i hempty
        refine ⟨h, ?_⟩
        intro _ header' hheader' hne heq
        cases hheader.symm.trans hheader'
        exact hne (heq ▸ hempty)
      · dsimp only at h
        rw [getElem?_erase_eq] at h
        split at h
        · cases h
        · rename_i hne
          refine ⟨h, ?_⟩
          intro _ header' hheader' _
          cases hheader.symm.trans hheader'
          exact hne

/-- The removal of a header with other roots leaves an index entry alone. -/
theorem removeEntry_index_of_ne {e : Nat × Blocker} {roots : Header}
    (hne : e.1 ≠ 0 → ∀ header, BlockHeader.ofHeader P e.2.head = some header →
      header.roots ≠ roots) :
    (r.removeEntry P e).headerToNumber[roots]? = r.headerToNumber[roots]? := by
  simp only [removeEntry, removeHeader]
  split
  · rfl
  · rename_i hzero
    split
    · rfl
    · rename_i header hheader
      split
      · rfl
      · dsimp only
        rw [getElem?_erase_eq, if_neg (hne hzero header hheader)]

theorem indexed_removeEntry (h : Indexed P r) {e : Nat × Blocker}
    (he : r.blocks[e.1]? = some e.2) : Indexed P (r.removeEntry P e) := by
  intro roots n hindex
  obtain ⟨hold, hremoved⟩ := removeEntry_index hindex
  obtain ⟨hpos, hne, b, header, hb, hheader, hroots⟩ := h roots n hold
  refine ⟨hpos, hne, b, header, ?_, hheader, hroots⟩
  rw [removeEntry_blocks, getElem?_erase_eq]
  split
  · -- The removed header has the roots of the entry, which is gone too.
    rename_i heq
    rw [heq, hb] at he
    cases he
    exact absurd hroots (hremoved (heq ▸ hpos) header hheader hne)
  · exact hb

/-- An entry replaced by one with the same header stays indexed. -/
theorem Indexed.update (h : Indexed P r) {n : Nat} {b b' : Blocker}
    (hb : r.blocks[n]? = some b) (hhead : b'.head = b.head) :
    Indexed P { r with blocks := r.blocks.insert n b' } := by
  intro roots m hindex
  obtain ⟨hpos, hne, c, header, hc, hheader, hroots⟩ := h roots m hindex
  refine ⟨hpos, hne, ?_⟩
  dsimp only
  rw [getElem?_insert_eq]
  split
  · rename_i heq
    rw [← heq, hb] at hc
    cases hc
    exact ⟨b', header, rfl, hhead ▸ hheader, hroots⟩
  · exact ⟨c, header, hc, hheader, hroots⟩

theorem indexed_trim (h : Indexed P r) (htrim : Trim P r r') : Indexed P r' := by
  refine htrim.invariant h ?_ ?_ ?_
  · intro r e he hr
    exact indexed_removeEntry hr he
  · intro r _ roots n hindex
    simp [clear] at hindex
  · intro r e timeout he hr
    exact hr.update he rfl

theorem indexed_insertBody (h : Indexed P r) {body : Rlp}
    (hbody : r.insertBody P body = .ok r') : Indexed P r' := by
  obtain rfl | ⟨n, b, hb, rfl⟩ := insertBody_cases hbody
  · exact h
  · exact h.update hb rfl

/-- Storing a header keeps the index true if it replaces no indexed header with
other roots. -/
theorem indexed_insertBlockerAt (hr : Indexed P r) {number : Nat} {b : Blocker}
    {header : BlockHeader} (hheader : BlockHeader.ofHeader P b.head = some header)
    (hold : ∀ old oldHeader, r.blocks[number]? = some old →
      BlockHeader.ofHeader P old.head = some oldHeader →
      r.headerToNumber[oldHeader.roots]? = some number → oldHeader.roots = header.roots)
    (h : Stored P r number b header r') : Indexed P r' := by
  obtain ⟨body, hentry, -⟩ := h.entry
  -- An entry of the old index is about another number, or has the new roots.
  have hother : ∀ (roots : Header) (n : Nat), r.headerToNumber[roots]? = some n →
      roots ≠ header.roots → n ≠ 0 ∧ roots ≠ P.emptyRoots ∧
        ∃ (b : Blocker) (header : BlockHeader), r'.blocks[n]? = some b ∧
          BlockHeader.ofHeader P b.head = some header ∧ header.roots = roots := by
    intro roots n hindex hne
    obtain ⟨hpos, hempty, c, cheader, hc, hcheader, rfl⟩ := hr roots n hindex
    refine ⟨hpos, hempty, c, cheader, ?_, hcheader, rfl⟩
    have hn : n ≠ number := by
      intro heq
      subst heq
      exact hne (hold c cheader hc hcheader hindex)
    rw [h.others n hn, if_neg (by omega)]
    exact hc
  intro roots n hindex
  rw [h.index] at hindex
  split at hindex
  · rename_i hempty
    refine hother roots n hindex ?_
    intro heq
    exact (hr roots n hindex).2.1 (heq.trans hempty)
  · rename_i hempty
    rw [getElem?_insert_eq] at hindex
    split at hindex
    · rename_i heq
      cases hindex
      exact ⟨h.pos, heq ▸ hempty, _, header, hentry, hheader, heq⟩
    · rename_i hne
      exact hother roots n hindex (Ne.symm hne)

theorem indexed_reach (h : (system P).Reach (fun r op => overwrites P r op = false) r) :
    Indexed P r := by
  refine invariant ?_ ?_ h
  · intro hash time roots n hindex
    simp [start] at hindex
  · intro r op r' hok hcase hr
    cases hcase with
    | trim htrim => exact indexed_trim hr htrim
    | store hstores htrim hinsert =>
        obtain ⟨hin, hheader, hnumber, hprep⟩ := stores_eq_some hstores
        refine indexed_insertBlockerAt (indexed_trim hr htrim) hheader ?_
          (stored_of_insertBlockerAt hinsert)
        intro old oldHeader hold hholdHeader hindex
        simp only [overwrites, hstores, Option.any_some, hold, hholdHeader, hindex,
          beq_self_eq_true, Bool.true_and, bne_eq_false_iff_eq] at hok
        exact hok
    | body _ hbody => exact indexed_insertBody hr hbody

end Indexed

/-- **Along every run in which no operation stores a header over an indexed one
with other roots, every index entry leads to a header with its roots.  So
`insertBody` never runs off the buffer, and it attaches a body only to a header
with the roots of the body.** -/
theorem index_leads_to_header (P : Prims) {r : Request}
    (h : (system P).Reach (fun r op => overwrites P r op = false) r) :
    (∀ (roots : Header) (n : Nat), r.headerToNumber[roots]? = some n →
      ∃ (b : Blocker) (header : BlockHeader), r.blocks[n]? = some b ∧
        BlockHeader.ofHeader P b.head = some header ∧ header.roots = roots) ∧
    ∀ body, ∃ r', r.insertBody P body = .ok r' ∧
      ∀ (n : Nat) (b' : Blocker), r'.blocks[n]? = some b' → r.blocks[n]? = some b' ∨
        ∃ (b : Blocker) (header : BlockHeader), r.blocks[n]? = some b ∧
          b' = { b with body := body } ∧ BlockHeader.ofHeader P b.head = some header ∧
          header.roots = bodyRoots P body := by
  have hindexed := indexed_reach h
  constructor
  · intro roots n hindex
    exact (hindexed roots n hindex).2.2
  · intro body
    simp only [insertBody]
    cases hindex : r.headerToNumber[bodyRoots P body]? with
    | none => exact ⟨r, rfl, fun n b' hb' => .inl hb'⟩
    | some number =>
        obtain ⟨-, -, b, header, hb, hheader, hroots⟩ := hindexed _ number hindex
        simp only [hb]
        refine ⟨_, rfl, ?_⟩
        intro n b' hb'
        dsimp only at hb'
        rw [getElem?_insert_eq] at hb'
        split at hb'
        · rename_i heq
          cases hb'
          exact .inr ⟨b, header, heq ▸ hb, rfl, hheader, hroots⟩
        · exact .inl hb'

/-- A body finds the header it belongs to. -/
theorem index_leads_to_header_one :
    ∃ r, (system Prims.sample).Reach (fun r op => overwrites Prims.sample r op = false) r ∧
      r.headerToNumber[bodyRoots Prims.sample (sampleBody 1)]? = some 10 ∧
      ∃ b : Blocker, r.blocks[10]? = some b := by
  have hstart : (system Prims.sample).Reach (fun r op => overwrites Prims.sample r op = false)
      (start 7 0) := .init ⟨7, 0, rfl⟩
  obtain ⟨r, hreach, hindex⟩ := hstart.exists_of_check
    [.insertHead 100 1 (sampleHead 10 5 0 1),
      .insertHead 101 1 (sampleHead 11 6 (Prims.sample.sha3 (sampleHead 10 5 0 1)) 2)]
    (p := fun r => r.headerToNumber[bodyRoots Prims.sample (sampleBody 1)]? == some 10)
    (by decide +kernel) (by decide +kernel)
  rw [beq_iff_eq] at hindex
  obtain ⟨b, -, hb, -⟩ := (index_leads_to_header Prims.sample hreach).1 _ 10 hindex
  exact ⟨r, hreach, hindex, b, hb⟩

/-- A peer sends two blocks 10, the first with one transaction and the second with
two, and then the body of the first. -/
def staleIndexRun : List Event :=
  [.peerNewBlock (sampleEnv 100) 1 (some .unknownParent) (sampleNewBlock 10 5 1),
    .peerNewBlock (sampleEnv 200) 1 (some .unknownParent) (sampleNewBlock 10 6 2),
    .peerBlockBodies (sampleEnv 300) 1 [sampleBody 1]]

/-- The roots of the replaced block still lead to number 10, so its body is
attached to a header with other roots. -/
theorem stale_index_attaches_body :
    ∃ r, staleIndexRun.foldlM (onEvent Prims.sample) (start 7 0) = .ok r ∧
      (system Prims.sample).Reach (fun _ _ => True) r ∧
      r.headerToNumber[bodyRoots Prims.sample (sampleBody 1)]? = some 10 ∧
      ∃ (b : Blocker) (header : BlockHeader), r.blocks[10]? = some b ∧ b.body = sampleBody 1 ∧
        BlockHeader.ofHeader Prims.sample b.head = some header ∧
        header.roots ≠ bodyRoots Prims.sample (sampleBody 1) := by
  obtain ⟨r, hrun, hstale⟩ :=
    exists_ok (x := staleIndexRun.foldlM (onEvent Prims.sample) (start 7 0))
      (p := fun r => r.headerToNumber[bodyRoots Prims.sample (sampleBody 1)]? == some 10 &&
        r.blocks[10]?.any fun b => b.body == sampleBody 1 &&
          (BlockHeader.ofHeader Prims.sample b.head).any fun header =>
            header.roots != bodyRoots Prims.sample (sampleBody 1))
      (by decide +kernel)
  simp only [Bool.and_eq_true, beq_iff_eq, Option.any_eq_true, bne_iff_ne] at hstale
  obtain ⟨hindex, b, hb, hbody, header, hheader, hne⟩ := hstale
  exact ⟨r, hrun, reach_of_events hrun (.init ⟨7, 0, rfl⟩), hindex, b, header, hb, hbody, hheader,
    hne⟩

/-! ## Every missing body finds its header -/

/-- Every entry without a body can be found by its roots. -/
structure Findable (P : Prims) (r : Request) : Prop where
  /-- All entries but the genesis entry have a header. -/
  decodes : ∀ (n : Nat) (b : Blocker), n ≠ 0 → r.blocks[n]? = some b →
    ∃ header, BlockHeader.ofHeader P b.head = some header
  /-- The roots of a header without body lead to its number. -/
  found : ∀ (n : Nat) (b : Blocker) (header : BlockHeader), n ≠ 0 → r.blocks[n]? = some b →
    BlockHeader.ofHeader P b.head = some header → b.body.isNull = true →
    header.roots ≠ P.emptyRoots ∧ r.headerToNumber[header.roots]? = some n
  /-- Two headers share their roots only where both have their bodies. -/
  shared : ∀ (m n : Nat) (b c : Blocker) (bheader cheader : BlockHeader), m ≠ 0 → n ≠ 0 → m ≠ n →
    r.blocks[m]? = some b → r.blocks[n]? = some c → BlockHeader.ofHeader P b.head = some bheader →
    BlockHeader.ofHeader P c.head = some cheader → bheader.roots = cheader.roots →
    bheader.roots ≠ P.emptyRoots → b.body.isNull = false

/-- The operation stores a header beside another one with the same roots, where one
of the two has no body. -/
def duplicates (P : Prims) (r : Request) (op : Op) : Bool :=
  (stores P r op).any fun (r, number, b, header) =>
    header.roots != P.emptyRoots && r.blocks.toList.any fun (n, c) =>
      n != 0 && n != number && (b.body.isNull || c.body.isNull) &&
        (BlockHeader.ofHeader P c.head).any (·.roots == header.roots)

/-- The operation attaches an empty byte string. -/
def emptyBody : Op → Bool
  | .insertBody body => body.isNull
  | _ => false

section Findable

variable {P : Prims} {r r' : Request}

theorem Findable.of_empty (h : r.blocks = ∅) : Findable P r := by
  constructor
  · intro n b _ hb
    simp [h] at hb
  · intro n b _ _ hb
    simp [h] at hb
  · intro m n b c _ _ _ _ _ hb
    simp [h] at hb

/-- An entry replaced by one with the same header keeps the others findable, if it
does not lose its body. -/
theorem Findable.update (h : Findable P r) {n : Nat} {b b' : Blocker}
    (hb : r.blocks[n]? = some b) (hhead : b'.head = b.head)
    (hbody : b'.body.isNull = true → b.body.isNull = true) :
    Findable P { r with blocks := r.blocks.insert n b' } := by
  -- Every entry comes from one with the same header.
  have hfrom : ∀ (k : Nat) (c : Blocker), (r.blocks.insert n b')[k]? = some c →
      ∃ c' : Blocker, r.blocks[k]? = some c' ∧ c'.head = c.head ∧
        (c.body.isNull = true → c'.body.isNull = true) := by
    intro k c hc
    rw [getElem?_insert_eq] at hc
    split at hc
    · rename_i hk
      cases hc
      exact ⟨b, hk ▸ hb, hhead.symm, hbody⟩
    · exact ⟨c, hc, rfl, fun hnull => hnull⟩
  constructor
  · intro k c hk hc
    obtain ⟨c', hc', hhead', -⟩ := hfrom k c hc
    exact hhead' ▸ h.decodes k c' hk hc'
  · intro k c header hk hc hheader hnull
    obtain ⟨c', hc', hhead', hnull'⟩ := hfrom k c hc
    exact h.found k c' header hk hc' (hhead' ▸ hheader) (hnull' hnull)
  · intro m k c d cheader dheader hm hk hne hc hd hcheader hdheader hroots hempty
    obtain ⟨c', hc', hchead, hcnull⟩ := hfrom m c hc
    obtain ⟨d', hd', hdhead, -⟩ := hfrom k d hd
    have hfull := h.shared m k c' d' cheader dheader hm hk hne hc' hd' (hchead ▸ hcheader)
      (hdhead ▸ hdheader) hroots hempty
    rw [← Bool.not_eq_true] at hfull ⊢
    exact fun hnull => hfull (hcnull hnull)

theorem findable_removeEntry (h : Findable P r) {e : Nat × Blocker}
    (he : r.blocks[e.1]? = some e.2) : Findable P (r.removeEntry P e) := by
  have hkept : ∀ (k : Nat) (c : Blocker), (r.removeEntry P e).blocks[k]? = some c →
      e.1 ≠ k ∧ r.blocks[k]? = some c := by
    intro k c hc
    rw [removeEntry_blocks, getElem?_erase_eq] at hc
    split at hc
    · cases hc
    · rename_i hne
      exact ⟨hne, hc⟩
  constructor
  · intro k c hk hc
    exact h.decodes k c hk (hkept k c hc).2
  · intro k c header hk hc hheader hnull
    obtain ⟨hne, hold⟩ := hkept k c hc
    obtain ⟨hempty, hindex⟩ := h.found k c header hk hold hheader hnull
    refine ⟨hempty, ?_⟩
    -- The removed header has other roots, or this entry would have its body.
    rw [removeEntry_index_of_ne]
    · exact hindex
    · intro hzero eheader heheader hroots
      have hfull := h.shared k e.1 c e.2 header eheader hk hzero hne.symm hold he hheader
        heheader hroots.symm hempty
      rw [hnull] at hfull
      cases hfull
  · intro m k c d cheader dheader hm hk hne hc hd
    exact h.shared m k c d cheader dheader hm hk hne (hkept m c hc).2 (hkept k d hd).2

theorem findable_trim (h : Findable P r) (htrim : Trim P r r') : Findable P r' := by
  refine htrim.invariant h ?_ ?_ ?_
  · intro r e he hr
    exact findable_removeEntry hr he
  · intro r _
    exact .of_empty rfl
  · intro r e timeout he hr
    exact hr.update he rfl (fun hnull => hnull)

theorem findable_insertBody (h : Findable P r) {body : Rlp} (hnull : body.isNull = false)
    (hbody : r.insertBody P body = .ok r') : Findable P r' := by
  obtain rfl | ⟨n, b, hb, rfl⟩ := insertBody_cases hbody
  · exact h
  · refine h.update hb rfl ?_
    intro hnull'
    rw [hnull] at hnull'
    cases hnull'

/-- Storing a header keeps the others findable if none of them shares its roots
with one of the two lacking its body. -/
theorem findable_insertBlockerAt (hr : Findable P r) {number : Nat} {b : Blocker}
    {header : BlockHeader} (hheader : BlockHeader.ofHeader P b.head = some header)
    (hdup : ∀ (n : Nat) (c : Blocker) (cheader : BlockHeader), n ≠ 0 → n ≠ number →
      r.blocks[n]? = some c → BlockHeader.ofHeader P c.head = some cheader →
      cheader.roots = header.roots → header.roots ≠ P.emptyRoots →
      b.body.isNull = false ∧ c.body.isNull = false)
    (h : Stored P r number b header r') : Findable P r' := by
  obtain ⟨body, hentry, hempty, hsame⟩ := h.entry
  have hother : ∀ (k : Nat) (c : Blocker), k ≠ 0 → k ≠ number → r'.blocks[k]? = some c →
      r.blocks[k]? = some c := by
    intro k c hk hne hc
    rwa [h.others k hne, if_neg (fun hzero => hk hzero.1)] at hc
  constructor
  · intro k c hk hc
    by_cases hne : k = number
    · subst hne
      rw [hentry] at hc
      cases hc
      exact ⟨header, hheader⟩
    · exact hr.decodes k c hk (hother k c hk hne hc)
  · intro k c cheader hk hc hcheader hnull
    by_cases hne : k = number
    · subst hne
      rw [hentry] at hc
      cases hc
      cases hheader.symm.trans hcheader
      have hroots : header.roots ≠ P.emptyRoots := by
        intro heq
        have hfull := hempty heq
        rw [hnull] at hfull
        cases hfull
      refine ⟨hroots, ?_⟩
      rw [h.index, if_neg hroots, getElem?_insert_eq, if_pos rfl]
    · have hold := hother k c hk hne hc
      obtain ⟨hroots, hindex⟩ := hr.found k c cheader hk hold hcheader hnull
      refine ⟨hroots, ?_⟩
      rw [h.index]
      split
      · exact hindex
      · rename_i hstored
        rw [getElem?_insert_eq, if_neg]
        · exact hindex
        · intro heq
          have hfull := (hdup k c cheader hk hne hold hcheader heq.symm hstored).2
          rw [hnull] at hfull
          cases hfull
  · intro m k c d cheader dheader hm hk hmk hc hd hcheader hdheader hroots hne
    by_cases hmn : m = number
    · subst hmn
      rw [hentry] at hc
      cases hc
      cases hheader.symm.trans hcheader
      have hold := hother k d hk hmk.symm hd
      rw [hsame hne]
      exact (hdup k d dheader hk hmk.symm hold hdheader hroots.symm hne).1
    · have hold := hother m c hm hmn hc
      by_cases hkn : k = number
      · subst hkn
        rw [hentry] at hd
        cases hd
        cases hheader.symm.trans hdheader
        exact (hdup m c cheader hm hmn hold hcheader hroots (hroots ▸ hne)).2
      · exact hr.shared m k c d cheader dheader hm hk hmk hold (hother k d hk hkn hd) hcheader
          hdheader hroots hne

theorem findable_reach
    (h : (system P).Reach (fun r op => duplicates P r op = false ∧ emptyBody op = false) r) :
    Findable P r := by
  refine invariant ?_ ?_ h
  · intro hash time
    exact .of_empty rfl
  · rintro r op r' ⟨hdup, hbody⟩ hcase hr
    cases hcase with
    | trim htrim => exact findable_trim hr htrim
    | store hstores htrim hinsert =>
        obtain ⟨-, hheader, -⟩ := stores_eq_some hstores
        refine findable_insertBlockerAt (findable_trim hr htrim) hheader ?_
          (stored_of_insertBlockerAt hinsert)
        intro n c cheader hn hne hc hcheader hroots hempty
        simp only [duplicates, hstores, Option.any_some, Bool.and_eq_false_imp, bne_iff_ne,
          List.any_eq_false] at hdup
        rw [← Std.ExtTreeMap.mem_toList_iff_getElem?_eq_some] at hc
        have hpair := hdup hempty (n, c) hc
        simp only [hcheader, hroots, Option.any_some, beq_self_eq_true, Bool.and_true,
          Bool.and_eq_true, bne_iff_ne, hn, hne, ne_eq, not_false_eq_true, true_and,
          Bool.not_eq_true, Bool.or_eq_false_iff] at hpair
        exact hpair
    | body hop hinsert =>
        subst hop
        exact findable_insertBody hr hbody hinsert

/-- A hash that `requestBodys` asks for belongs to an entry without body. -/
theorem requestBodysLoop_hash {limit now number : Nat} {l : List (Nat × Blocker)}
    {bodys : List H256} {hash : H256}
    (h : hash ∈ (requestBodysLoop limit now number l bodys r).2) :
    hash ∈ bodys ∨ ∃ e ∈ l, e.2.hash = hash ∧ e.2.body.isNull = true := by
  induction l generalizing number bodys r with
  | nil => exact .inl h
  | cons e l ih =>
      simp only [requestBodysLoop] at h
      split at h
      · exact .inl h
      · split at h
        · obtain hmem | ⟨e', he', hhash⟩ := ih h
          · exact .inl hmem
          · exact .inr ⟨e', .tail _ he', hhash⟩
        · rename_i hbody
          obtain hmem | ⟨e', he', hhash⟩ := ih h
          · rcases List.mem_append.mp hmem with hmem | hmem
            · exact .inl hmem
            · refine .inr ⟨e, .head _, (List.mem_singleton.mp hmem).symm, ?_⟩
              simpa using hbody
          · exact .inr ⟨e', .tail _ he', hhash⟩

end Findable

/-- **Along every run in which no header is stored beside another one with the same
roots while one of the two has no body, and no empty byte string is attached, a
body with the roots of a header that lacks its body is attached to that header.
The hashes `requestBodys` gives belong to entries without body.** -/
theorem missing_bodies_deliverable (P : Prims) {r : Request}
    (h : (system P).Reach (fun r op => duplicates P r op = false ∧ emptyBody op = false) r) :
    (∀ (n : Nat) (b : Blocker), 1 ≤ n → r.blocks[n]? = some b → b.body.isNull = true →
      ∃ header, BlockHeader.ofHeader P b.head = some header ∧
        ∀ body, bodyRoots P body = header.roots →
          ∃ r', r.insertBody P body = .ok r' ∧ r'.blocks[n]? = some { b with body := body }) ∧
    ∀ limit now, ∀ hash ∈ (r.requestBodys limit now).2, ∃ (n : Nat) (b : Blocker),
      r.blocks[n]? = some b ∧ b.hash = hash ∧ b.body.isNull = true := by
  have hfindable := findable_reach h
  constructor
  · intro n b hn hb hnull
    have hpos : n ≠ 0 := by omega
    obtain ⟨header, hheader⟩ := hfindable.decodes n b hpos hb
    refine ⟨header, hheader, ?_⟩
    intro body hroots
    obtain ⟨-, hindex⟩ := hfindable.found n b header hpos hb hheader hnull
    simp only [insertBody]
    simp only [hroots, hindex, hb]
    exact ⟨_, rfl, getElem?_insert_eq.trans (if_pos rfl)⟩
  · intro limit now hash hmem
    obtain hnone | ⟨e, he, hhash, hnull⟩ := requestBodysLoop_hash hmem
    · cases hnone
    · rw [Std.ExtTreeMap.mem_toList_iff_getElem?_eq_some] at he
      exact ⟨e.1, e.2, he, hhash, hnull⟩

/-- Of two headers with different roots, the lower one gets its body. -/
theorem missing_bodies_deliverable_two :
    ∃ r, (system Prims.sample).Reach
        (fun r op => duplicates Prims.sample r op = false ∧ emptyBody op = false) r ∧
      ∃ r' b, r.insertBody Prims.sample (sampleBody 1) = .ok r' ∧ r'.blocks[10]? = some b ∧
        b.body = sampleBody 1 := by
  have hstart : (system Prims.sample).Reach
      (fun r op => duplicates Prims.sample r op = false ∧ emptyBody op = false) (start 7 0) :=
    .init ⟨7, 0, rfl⟩
  obtain ⟨r, hreach, hmissing⟩ := hstart.exists_of_check
    [.insertHead 100 1 (sampleHead 10 5 0 1),
      .insertHead 101 1 (sampleHead 11 6 (Prims.sample.sha3 (sampleHead 10 5 0 1)) 2)]
    (p := fun r => r.blocks[10]?.any fun b => b.body.isNull &&
      (BlockHeader.ofHeader Prims.sample b.head).all fun header =>
        bodyRoots Prims.sample (sampleBody 1) == header.roots)
    (by decide +kernel) (by decide +kernel)
  simp only [Bool.and_eq_true, Option.any_eq_true, Option.all_eq_true, beq_iff_eq] at hmissing
  obtain ⟨b, hb, hnull, hroots⟩ := hmissing
  obtain ⟨header, hheader, hdeliver⟩ :=
    (missing_bodies_deliverable Prims.sample hreach).1 10 b (by decide) hb hnull
  obtain ⟨r', hr', hb'⟩ := hdeliver (sampleBody 1) (hroots header hheader)
  exact ⟨r, hreach, r', _, hr', hb', rfl⟩

/-- A peer sends headers 10 and 11 with the same roots. -/
def sharedRootsRun : List Event :=
  [.peerBlockHeaders (sampleEnv 100) 1
    [sampleHead 10 5 0 1, sampleHead 11 6 (Prims.sample.sha3 (sampleHead 10 5 0 1)) 1]]

/-- The body of header 10 is attached to header 11. -/
theorem shared_roots_hide_header :
    ∃ r, sharedRootsRun.foldlM (onEvent Prims.sample) (start 7 0) = .ok r ∧
      (system Prims.sample).Reach (fun _ _ => True) r ∧
      ∃ (b : Blocker) (header : BlockHeader), r.blocks[10]? = some b ∧ b.body.isNull = true ∧
        BlockHeader.ofHeader Prims.sample b.head = some header ∧
        bodyRoots Prims.sample (sampleBody 1) = header.roots ∧
        ∃ r', r.insertBody Prims.sample (sampleBody 1) = .ok r' ∧ r'.blocks[10]? = some b := by
  obtain ⟨r, hrun, hhidden⟩ :=
    exists_ok (x := sharedRootsRun.foldlM (onEvent Prims.sample) (start 7 0))
      (p := fun r => r.blocks[10]?.any fun b => b.body.isNull &&
        (BlockHeader.ofHeader Prims.sample b.head).any fun header =>
          bodyRoots Prims.sample (sampleBody 1) == header.roots &&
          (r.insertBody Prims.sample (sampleBody 1)).toOption.any fun r' =>
            r'.blocks[10]? == some b)
      (by decide +kernel)
  rw [Option.any_eq_true] at hhidden
  obtain ⟨b, hb, hhidden⟩ := hhidden
  rw [Bool.and_eq_true, Option.any_eq_true] at hhidden
  obtain ⟨hnull, header, hheader, hhidden⟩ := hhidden
  rw [Bool.and_eq_true, beq_iff_eq] at hhidden
  obtain ⟨hroots, hinsert⟩ := hhidden
  obtain ⟨r', hr', hb'⟩ := exists_ok hinsert
  exact ⟨r, hrun, reach_of_events hrun (.init ⟨7, 0, rfl⟩), b, header, hb, hnull, hheader, hroots,
    r', hr', beq_iff_eq.mp hb'⟩

end Request

end CppSwc
