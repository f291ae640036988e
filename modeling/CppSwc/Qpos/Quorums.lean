import CppSwc.Lib.Quorum
import CppSwc.Lib.Tree
import CppSwc.Qpos.Handlers

/-!
# The signatures an importer counts

`checkBlockSign` stops at the first signature that makes up half of the miners,
so what it has in `signs` at that point depends on the order of the list.  The
verdict does not.  It is whether the miners with a valid signature anywhere in
the list are half of all.

For an odd number of miners half, rounded up, is a majority.  For an even number
it is not, and two lists that pass need not have a signer in common, although two
sets of votes that pass `voteBlockEnd` do.
-/

namespace CppSwc

open Lib

namespace Qpos

/-! ## Reading back a signature list -/

theorem toSign_signItem (e : NodeID × Signature) : toSign (signItem e) = some e := by
  simp only [signItem, toSign]
  rw [Rlp.toHashLax_ofHash 64, Rlp.toHashLax_ofHash 65]

theorem toSigns_map_signItem (l : List (NodeID × Signature)) :
    toSigns (.list (l.map signItem)) = some l := by
  simp only [toSigns, Rlp.items]
  induction l with
  | nil => rfl
  | cons e l ih => simp [toSign_signItem, ih]

/-! ## The set of counted signers -/

/-- What the loop of `checkBlockSign` holds in `signs` when it is left. -/
def countedSigns (P : Prims) (minerList : NodeSet) (hash : H256) :
    List (NodeID × Signature) → NodeSet → NodeSet
  | [], signs => signs
  | item :: rest, signs =>
      if !minerList.contains item.1 || !P.verify item.1 item.2 hash then
        countedSigns P minerList hash rest signs
      else if (minerList.size + 1) / 2 ≤ (signs.insert item.1).size then
        signs.insert item.1
      else
        countedSigns P minerList hash rest (signs.insert item.1)

/-- The entry is of a miner and its signature verifies. -/
def Counts (P : Prims) (miners : NodeSet) (hash : H256) (e : NodeID × Signature) : Prop :=
  e.1 ∈ miners ∧ P.verify e.1 e.2 hash = true

/-- The miners with a signature in the list that verifies. -/
def validSigners (P : Prims) (miners : NodeSet) (hash : H256) (l : List (NodeID × Signature)) :
    Finset NodeID :=
  (finset miners).filter fun id => ∃ e ∈ l, e.1 = id ∧ P.verify id e.2 hash = true

variable {P : Prims} {miners signs : NodeSet} {hash : H256} {l : List (NodeID × Signature)}
  {e : NodeID × Signature} {id : NodeID}

theorem mem_validSigners : id ∈ validSigners P miners hash l ↔
    ∃ e ∈ l, e.1 = id ∧ Counts P miners hash e := by
  rw [validSigners, Finset.mem_filter, mem_finset]
  constructor
  · rintro ⟨hid, e, he, rfl, hverify⟩
    exact ⟨e, he, rfl, hid, hverify⟩
  · rintro ⟨e, he, rfl, hid, hverify⟩
    exact ⟨hid, e, he, rfl, hverify⟩

theorem skips_iff : (!miners.contains e.1 || !P.verify e.1 e.2 hash) = true ↔
    ¬ Counts P miners hash e := by
  rw [Counts, ← Std.ExtTreeSet.contains_iff_mem]
  cases miners.contains e.1 <;> cases P.verify e.1 e.2 hash <;> simp

/-- An entry is skipped, completes the count, or is added to it. -/
theorem countSigns_cons : countSigns P miners hash (e :: l) signs = true ↔
    (¬ Counts P miners hash e ∧ countSigns P miners hash l signs = true) ∨
    (Counts P miners hash e ∧ ((miners.size + 1) / 2 ≤ (signs.insert e.1).size ∨
      countSigns P miners hash l (signs.insert e.1) = true)) := by
  simp only [countSigns]
  split
  · rename_i hskip
    simp [skips_iff.mp hskip]
  · rename_i hcounts
    rw [skips_iff, not_not] at hcounts
    split
    · rename_i henough
      simp [hcounts, henough]
    · rename_i hmore
      simp [hcounts, hmore]

/-- Beside the first signers the loop holds signers of the list only. -/
theorem mem_countedSigns (h : id ∈ countedSigns P miners hash l signs) :
    id ∈ signs ∨ id ∈ validSigners P miners hash l := by
  induction l generalizing signs with
  | nil => exact .inl h
  | cons e l ih =>
      have hrest : id ∈ validSigners P miners hash l →
          id ∈ validSigners P miners hash (e :: l) := by
        intro hid
        obtain ⟨e', he', hsame⟩ := mem_validSigners.mp hid
        exact mem_validSigners.mpr ⟨e', .tail _ he', hsame⟩
      simp only [countedSigns] at h
      split at h
      · exact (ih h).imp_right hrest
      · rename_i hcounts
        rw [skips_iff, not_not] at hcounts
        have hinsert : id ∈ signs.insert e.1 →
            id ∈ signs ∨ id ∈ validSigners P miners hash (e :: l) := by
          intro hid
          rcases mem_insert_iff.mp hid with rfl | hid
          · exact .inr (mem_validSigners.mpr ⟨e, .head _, rfl, hcounts⟩)
          · exact .inl hid
        split at h
        · exact hinsert h
        · exact (ih h).elim hinsert fun hid => .inr (hrest hid)

/-- A loop that returns true holds half of the miners. -/
theorem size_countedSigns (h : countSigns P miners hash l signs = true) :
    (miners.size + 1) / 2 ≤ (countedSigns P miners hash l signs).size := by
  induction l generalizing signs with
  | nil => cases h
  | cons e l ih =>
      simp only [countSigns, countedSigns] at h ⊢
      split at h
      · rename_i hskip
        rw [if_pos hskip]
        exact ih h
      · rename_i hcounts
        rw [if_neg hcounts]
        split at h
        · rename_i henough
          rw [if_pos henough]
          exact henough
        · rename_i hmore
          rw [if_neg hmore]
          exact ih h

/-- As long as fewer than half are counted, the verdict is whether those counted
and the valid signers of the list make up half. -/
theorem countSigns_iff (hmore : signs.size < (miners.size + 1) / 2) :
    countSigns P miners hash l signs = true ↔
      (miners.size + 1) / 2 ≤ (finset signs ∪ validSigners P miners hash l).card := by
  induction l generalizing signs with
  | nil =>
      have hnone : validSigners P miners hash [] = ∅ := by
        simp [validSigners]
      rw [hnone, Finset.union_empty, card_finset]
      constructor
      · intro h
        cases h
      · intro h
        omega
  | cons e l ih =>
      rw [countSigns_cons]
      by_cases hcounts : Counts P miners hash e
      · have hunion : finset signs ∪ validSigners P miners hash (e :: l) =
            finset (signs.insert e.1) ∪ validSigners P miners hash l := by
          ext id
          simp only [Finset.mem_union, mem_finset, mem_insert_iff, mem_validSigners,
            List.exists_mem_cons_iff]
          constructor
          · rintro (hid | ⟨rfl, -⟩ | hid)
            · exact .inl (.inr hid)
            · exact .inl (.inl rfl)
            · exact .inr hid
          · rintro ((rfl | hid) | hid)
            · exact .inr (.inl ⟨rfl, hcounts⟩)
            · exact .inl hid
            · exact .inr (.inr hid)
        rw [hunion]
        by_cases henough : (miners.size + 1) / 2 ≤ (signs.insert e.1).size
        · have hcard : (signs.insert e.1).size ≤
              (finset (signs.insert e.1) ∪ validSigners P miners hash l).card := by
            rw [← card_finset]
            exact Finset.card_le_card Finset.subset_union_left
          simp only [hcounts, henough, not_true_eq_false, false_and, false_or, true_and, true_or,
            true_iff]
          omega
        · simp only [hcounts, henough, not_true_eq_false, false_and, false_or, true_and]
          exact ih (by omega)
      · have hsame : validSigners P miners hash (e :: l) = validSigners P miners hash l := by
          ext id
          simp only [mem_validSigners, List.exists_mem_cons_iff]
          constructor
          · rintro (⟨-, h⟩ | hid)
            · exact absurd h hcounts
            · exact hid
          · exact .inr
        rw [hsame]
        simp only [hcounts, not_false_eq_true, true_and, false_and, or_false]
        exact ih hmore

/-! ## The verdict -/

/-- On a block of enough items whose list converts, the verdict is that of the
loop. -/
theorem checkBlockSign_eq {header : BlockHeader} {block : Rlp} (hminers : miners.size ≠ 0)
    (hlist : block.isList = true) (hitems : 4 ≤ block.itemCount)
    (hsigns : signList P block = some l) :
    checkBlockSign P miners header block =
      countSigns P miners (header.hashWithoutSeal P) l ∅ := by
  rw [checkBlockSign, if_neg hminers, if_neg (by simp [hlist, hitems]), hsigns]

/-- The signatures of a block that passes are those of a loop that returns true. -/
theorem exists_signList {header : BlockHeader} {block : Rlp} (hminers : miners.size ≠ 0)
    (h : checkBlockSign P miners header block = true) :
    ∃ l, signList P block = some l ∧
      countSigns P miners (header.hashWithoutSeal P) l ∅ = true := by
  rw [checkBlockSign, if_neg hminers] at h
  split at h
  · cases h
  · split at h
    · cases h
    · rename_i l hl
      exact ⟨l, hl, h⟩

/-- A block passes if and only if at least half of the miners have a valid
signature in its list. -/
theorem checkBlockSign_iff (P : Prims) {miners : NodeSet} {header : BlockHeader} {block : Rlp}
    {l : List (NodeID × Signature)} (hminers : 1 ≤ miners.size) (hlist : block.isList = true)
    (hitems : 4 ≤ block.itemCount) (hsigns : signList P block = some l) :
    checkBlockSign P miners header block = true ↔
      (miners.size + 1) / 2 ≤ (validSigners P miners (header.hashWithoutSeal P) l).card := by
  rw [checkBlockSign_eq (by omega) hlist hitems hsigns, countSigns_iff]
  · have hnone : finset (∅ : NodeSet) = ∅ := by
      ext id
      simp
    rw [hnone, Finset.empty_union]
  · rw [Std.ExtTreeSet.size_empty]
    omega

/-- The signatures of the given miners for a header. -/
def signaturesOf (P : Prims) (header : BlockHeader) (ids : List NodeID) :
    List (NodeID × Signature) :=
  ids.map fun id => (id, P.sign id (header.hashWithoutSeal P))

/-- A block of which only the fourth item says something. -/
def blockWithSigns (l : List (NodeID × Signature)) : Rlp :=
  .list [.null, .null, .null, .list [.null, .list (l.map signItem)]]

theorem signList_blockWithSigns : signList P (blockWithSigns l) = some l := by
  simp [signList, blockWithSigns, toSigns_map_signItem]

/-- The miners 1 and 2. -/
def twoMiners : NodeSet := Std.ExtTreeSet.ofList [(1 : NodeID), 2]

/-- The miners 1, 2 and 3. -/
def threeMiners : NodeSet := Std.ExtTreeSet.ofList [(1 : NodeID), 2, 3]

/-- The signatures of the given nodes for the sample header with that timestamp. -/
def sampleSigns (timestamp : Nat) (ids : List NodeID) : List (NodeID × Signature) :=
  signaturesOf Prims.sample (BlockHeader.sample 1 timestamp) ids

/-- Of three miners the first signs twice and the third once.  A bad signature of
the second and one of a stranger are in the list too. -/
theorem half_of_three_have_signed :
    2 ≤ (validSigners Prims.sample threeMiners
      ((BlockHeader.sample 1 5).hashWithoutSeal Prims.sample)
      ((2, 0) :: sampleSigns 5 [1, 1, 9, 3])).card := by
  have hminers : 1 ≤ threeMiners.size := by decide +kernel
  have hpass : checkBlockSign Prims.sample threeMiners (BlockHeader.sample 1 5)
      (blockWithSigns ((2, 0) :: sampleSigns 5 [1, 1, 9, 3])) = true := by
    decide +kernel
  have hsize : (threeMiners.size + 1) / 2 = 2 := by decide +kernel
  have h := (checkBlockSign_iff Prims.sample hminers rfl (le_refl 4)
    signList_blockWithSigns).mp hpass
  rw [hsize] at h
  exact h

/-! ## Quorums -/

/-- The importer's `signs` for a header and a signature list. -/
def countedSigners (P : Prims) (miners : NodeSet) (header : BlockHeader)
    (l : List (NodeID × Signature)) : NodeSet :=
  countedSigns P miners (header.hashWithoutSeal P) l ∅

/-- Two headers that pass with any signature lists share a counted signer. -/
def SharesSigner (P : Prims) (miners : NodeSet) (header₁ header₂ : BlockHeader) : Prop :=
  ∀ block₁ block₂ l₁ l₂, signList P block₁ = some l₁ → signList P block₂ = some l₂ →
    checkBlockSign P miners header₁ block₁ = true → checkBlockSign P miners header₂ block₂ = true →
    ∃ id ∈ miners, id ∈ countedSigners P miners header₁ l₁ ∧ id ∈ countedSigners P miners header₂ l₂

/-- What the importer counts are miners with a signature in the list. -/
theorem mem_countedSigners {header : BlockHeader} (h : id ∈ countedSigners P miners header l) :
    id ∈ miners ∧ ∃ sig, (id, sig) ∈ l := by
  have hvalid := (mem_countedSigns h).resolve_left Std.ExtTreeSet.not_mem_empty
  obtain ⟨e, he, rfl, hcounts⟩ := mem_validSigners.mp hvalid
  exact ⟨hcounts.1, e.2, he⟩

/-- If the number of miners is odd, what passes was signed by a majority. -/
theorem majority_countedSigners (hodd : miners.size % 2 = 1) {header : BlockHeader} {block : Rlp}
    (hl : signList P block = some l) (h : checkBlockSign P miners header block = true) :
    Majority (finset miners) (finset (countedSigners P miners header l)) := by
  obtain ⟨l', hl', hcount⟩ := exists_signList (by omega) h
  rw [hl] at hl'
  cases hl'
  apply Majority.of_odd
  · intro id hid
    exact mem_finset.mpr (mem_countedSigners (mem_finset.mp hid)).1
  · rw [card_finset]
    exact hodd
  · rw [card_finset, card_finset]
    exact size_countedSigns hcount

/-- Half of the miners can sign a header so that it passes. -/
theorem checkBlockSign_signaturesOf {header : BlockHeader} {Q : Finset NodeID}
    (hsign : ∀ id ∈ miners, ∀ hash, P.verify id (P.sign id hash) hash = true)
    (hminers : 1 ≤ miners.size) (hsub : Q ⊆ finset miners)
    (hcard : (miners.size + 1) / 2 ≤ Q.card) :
    checkBlockSign P miners header (blockWithSigns (signaturesOf P header Q.toList)) = true := by
  rw [checkBlockSign_iff P hminers rfl (le_refl 4) signList_blockWithSigns]
  refine hcard.trans (Finset.card_le_card ?_)
  intro id hid
  have hmem := mem_finset.mp (hsub hid)
  apply mem_validSigners.mpr
  exact ⟨_, List.mem_map_of_mem (Finset.mem_toList.mpr hid), rfl, hmem, hsign id hmem _⟩

/-- The lists that pass share a counted signer, whatever the headers, if and only
if the number of miners is odd. -/
theorem sharesSigner_iff_odd (P : Prims) {miners : NodeSet} (hminers : 1 ≤ miners.size)
    (hsign : ∀ id ∈ miners, ∀ hash, P.verify id (P.sign id hash) hash = true)
    (header₁ header₂ : BlockHeader) :
    SharesSigner P miners header₁ header₂ ↔ miners.size % 2 = 1 := by
  constructor
  · intro hshare
    by_contra hodd
    have heven : (finset miners).card % 2 = 0 := by
      rw [card_finset]
      omega
    obtain ⟨Q₁, Q₂, hsub₁, hsub₂, hdisjoint, hcard₁, hcard₂⟩ := exists_disjoint_halves heven
    rw [card_finset] at hcard₁ hcard₂
    obtain ⟨id, -, h₁, h₂⟩ := hshare _ _ _ _ signList_blockWithSigns signList_blockWithSigns
      (checkBlockSign_signaturesOf hsign hminers hsub₁ (by omega))
      (checkBlockSign_signaturesOf hsign hminers hsub₂ (by omega))
    have hsigner : ∀ {header : BlockHeader} {Q : Finset NodeID},
        id ∈ countedSigners P miners header (signaturesOf P header Q.toList) → id ∈ Q := by
      intro header Q hid
      obtain ⟨-, sig, hsig⟩ := mem_countedSigners hid
      obtain ⟨id', hid', heq⟩ := List.mem_map.mp hsig
      cases heq
      exact Finset.mem_toList.mp hid'
    exact Finset.disjoint_left.mp hdisjoint (hsigner h₁) (hsigner h₂)
  · intro hodd block₁ block₂ l₁ l₂ hl₁ hl₂ hpass₁ hpass₂
    obtain ⟨id, h₁, h₂⟩ := (majority_countedSigners hodd hl₁ hpass₁).common
      (majority_countedSigners hodd hl₂ hpass₂)
    rw [mem_finset] at h₁ h₂
    exact ⟨id, (mem_countedSigners h₁).1, h₁, h₂⟩

/-- The only signer of a list is the only one counted. -/
theorem signer_of_mem {timestamp : Nat} {signer : NodeID} {header : BlockHeader}
    (h : id ∈ countedSigners Prims.sample miners header (sampleSigns timestamp [signer])) :
    id = signer := by
  obtain ⟨-, sig, hsig⟩ := mem_countedSigners h
  rw [sampleSigns, signaturesOf, List.map_singleton, List.mem_singleton] at hsig
  exact congrArg Prod.fst hsig

/-- Any two lists that pass with three miners share a signer. -/
theorem sharesSigner_three :
    SharesSigner Prims.sample threeMiners (BlockHeader.sample 1 5) (BlockHeader.sample 1 6) := by
  have hsign : ∀ id ∈ threeMiners, ∀ hash,
      Prims.sample.verify id (Prims.sample.sign id hash) hash = true := by
    intro id hid hash
    have hne : (id != 0) = true := by
      rw [threeMiners, Std.ExtTreeSet.mem_ofList, List.contains_iff_mem] at hid
      simp only [List.mem_cons, List.not_mem_nil, or_false] at hid
      rcases hid with rfl | rfl | rfl <;> decide +kernel
    simp only [Prims.sample, hne, beq_self_eq_true, Bool.and_self]
  exact (sharesSigner_iff_odd Prims.sample (by decide +kernel) hsign _ _).mpr (by decide +kernel)

/-- Each of two miners alone makes a header pass, and the two headers of one number
share no signer. -/
theorem two_miners_share_no_signer :
    (BlockHeader.sample 1 5).number = (BlockHeader.sample 1 6).number ∧ 1 ≤ twoMiners.size ∧
      ¬ SharesSigner Prims.sample twoMiners (BlockHeader.sample 1 5) (BlockHeader.sample 1 6) := by
  refine ⟨rfl, by decide +kernel, ?_⟩
  intro hshare
  have hpass₁ : checkBlockSign Prims.sample twoMiners (BlockHeader.sample 1 5)
      (blockWithSigns (sampleSigns 5 [1])) = true := by
    decide +kernel
  have hpass₂ : checkBlockSign Prims.sample twoMiners (BlockHeader.sample 1 6)
      (blockWithSigns (sampleSigns 6 [2])) = true := by
    decide +kernel
  obtain ⟨id, -, h₁, h₂⟩ := hshare _ _ _ _ signList_blockWithSigns signList_blockWithSigns
    hpass₁ hpass₂
  have hone : id = 1 := signer_of_mem h₁
  have htwo : id = 2 := signer_of_mem h₂
  exact absurd (hone.symm.trans htwo) (by decide +kernel)

end Qpos

end CppSwc
