import CppSwc.Lib.Quorum
import CppSwc.Qpos.World

/-!
# Agreement of certificates

Two certified blocks of one number are the same block if the signers of the two
certificates overlap and no node signs two blocks of one number.  The code
secures neither.  `checkBlockSign` is content with `(n + 1) / 2` signatures, which
for an even number of miners is one half, although `voteBlockEnd` waits for more
than half.  And a node signs every proposal it gets, so a later proposal of the
same number gets a second signature, be it with a no.

With an odd number of miners, and along the runs in which no node is made to sign
a second block of one number, certificates agree.
-/

namespace CppSwc

open Lib

namespace Qpos

/-! ## Certificates of a run -/

/-- Node `id` has signed the header. -/
def Signed (P : Prims) (w : World) (id : NodeID) (header : BlockHeader) : Prop :=
  ∃ r ∈ w.trace, r.node = id ∧ .sign header ∈ (r.before.handle P r.node r.input).2

/-- Some node has made the signature. -/
def Emitted (P : Prims) (w : World) (sig : Signature) : Prop :=
  ∃ id header, Signed P w id header ∧ sig = P.sign id (header.hashWithoutSeal P)

/-- The block passes `checkBlockSign`, and the signatures that count for it were
made in the run. -/
structure Certificate (P : Prims) (w : World) (miners : NodeSet) (header : BlockHeader)
    (block : Rlp) : Prop where
  decodes : BlockHeader.ofBlock P block = some header
  accepted : checkBlockSign P miners header block = true
  emitted : ∀ l, signList P block = some l → ∀ e ∈ l, e.1 ∈ miners →
    P.verify e.1 e.2 (header.hashWithoutSeal P) = true → Emitted P w e.2

/-- Signatures cannot be forged: a signature made in the run that verifies for a
miner and the header was made by that miner, for a header of that content. -/
def Unforged (P : Prims) (w : World) (miners : NodeSet) (header : BlockHeader) : Prop :=
  ∀ id ∈ miners, ∀ sig, Emitted P w sig → P.verify id sig (header.hashWithoutSeal P) = true →
    ∃ header', Signed P w id header' ∧ header'.rlpWithoutSeal = header.rlpWithoutSeal

/-- The input does not make the node sign a header if it has signed another one
with the same number. -/
def SignsOnce (P : Prims) (w : World) (i : NodeID) (input : Input) : Prop :=
  ∀ header ∈ (w.node i).signs P input, ∀ r ∈ w.trace, r.node = i →
    ∀ header' ∈ r.before.signs P r.input, header'.number = header.number →
      header'.hashWithoutSeal P = header.hashWithoutSeal P

instance (P : Prims) (w : World) (i : NodeID) (input : Input) :
    Decidable (SignsOnce P w i input) :=
  inferInstanceAs (Decidable (∀ header ∈ (w.node i).signs P input, ∀ r ∈ w.trace, r.node = i →
    ∀ header' ∈ r.before.signs P r.input, header'.number = header.number →
      header'.hashWithoutSeal P = header.hashWithoutSeal P))

variable {P : Prims} {miners : NodeSet} {w : World}

theorem signed_iff {id : NodeID} {header : BlockHeader} :
    Signed P w id header ↔ ∃ r ∈ w.trace, r.node = id ∧ r.before.signs P r.input = some header := by
  simp only [Signed, sign_mem_iff]

/-! ## The signers of a certificate -/

/-- With an odd number of miners a majority has signed a certified block. -/
theorem majority_of_certificate (hodd : miners.size % 2 = 1) {header : BlockHeader} {block : Rlp}
    (h : Certificate P w miners header block) (hun : Unforged P w miners header) :
    ∃ Q, Majority (finset miners) Q ∧ ∀ id ∈ Q, ∃ header', Signed P w id header' ∧
      header'.rlpWithoutSeal = header.rlpWithoutSeal := by
  obtain ⟨l, hl, -⟩ := exists_signList (by omega) h.accepted
  refine ⟨_, majority_countedSigners hodd hl h.accepted, ?_⟩
  intro id hid
  have hvalid := (mem_countedSigns (mem_finset.mp hid)).resolve_left Std.ExtTreeSet.not_mem_empty
  obtain ⟨e, he, rfl, hmem, hverify⟩ := mem_validSigners.mp hvalid
  exact hun e.1 hmem e.2 (h.emitted l hl e he hmem hverify) hverify

/-! ## Runs -/

/-- The hash that node `id` has signed at a height. -/
def Backs (P : Prims) (w : World) (height : Nat) (id : NodeID) (hash : H256) : Prop :=
  ∃ header, Signed P w id header ∧ header.number = height ∧ header.hashWithoutSeal P = hash

/-- Along these runs a node signs one hash per height. -/
theorem backs_unique {ids : List NodeID}
    (h : (network P ids miners).system.Reach ((network P ids miners).Guard (SignsOnce P)) w) :
    ∀ height id hash hash', Backs P w height id hash → Backs P w height id hash' →
      hash = hash' := by
  refine Protocol.invariant (I := fun w => ∀ height id hash hash', Backs P w height id hash →
    Backs P w height id hash' → hash = hash') ?_ ?_ h
  · rintro height id hash hash' ⟨header, ⟨r, hr, -⟩, -⟩
    cases hr
  · rintro w rest i input - - - hok hw height id hash hash' ⟨header, hsigned, rfl, rfl⟩
      ⟨header', hsigned', hnumber, rfl⟩
    obtain ⟨r, hr, hnode, hsigns⟩ := signed_iff.mp hsigned
    obtain ⟨r', hr', hnode', hsigns'⟩ := signed_iff.mp hsigned'
    rcases Protocol.mem_trace_log.mp hr with hr | rfl
    · rcases Protocol.mem_trace_log.mp hr' with hr' | rfl
      · exact hw header.number id _ _ ⟨header, signed_iff.mpr ⟨r, hr, hnode, hsigns⟩, rfl, rfl⟩
          ⟨header', signed_iff.mpr ⟨r', hr', hnode', hsigns'⟩, hnumber, rfl⟩
      · -- The new step signs the second header.
        cases hnode'
        exact hok header' hsigns' r hr hnode header hsigns hnumber.symm
    · cases hnode
      rcases Protocol.mem_trace_log.mp hr' with hr' | rfl
      · exact (hok header hsigns r' hr' hnode' header' hsigns' hnumber).symm
      · cases hsigns.symm.trans hsigns'
        rfl

/-- **With an odd number of miners, and along every run in which no input makes a
node sign a second header of one number, two certified blocks of one number have
the same hash.** -/
theorem certificates_agree (P : Prims) (ids : List NodeID) (miners : NodeSet)
    (hodd : miners.size % 2 = 1) {w : World}
    (h : (network P ids miners).system.Reach ((network P ids miners).Guard (SignsOnce P)) w)
    {header₁ header₂ : BlockHeader} {block₁ block₂ : Rlp}
    (h₁ : Certificate P w miners header₁ block₁) (h₂ : Certificate P w miners header₂ block₂)
    (hun₁ : Unforged P w miners header₁) (hun₂ : Unforged P w miners header₂)
    (hnumber : header₁.number = header₂.number) :
    header₁.hashWithoutSeal P = header₂.hashWithoutSeal P := by
  obtain ⟨Q₁, hQ₁, hsigned₁⟩ := majority_of_certificate hodd h₁ hun₁
  obtain ⟨Q₂, hQ₂, hsigned₂⟩ := majority_of_certificate hodd h₂ hun₂
  have hbacks : ∀ {Q : Finset NodeID} {header : BlockHeader}, header.number = header₁.number →
      (∀ id ∈ Q, ∃ header', Signed P w id header' ∧
        header'.rlpWithoutSeal = header.rlpWithoutSeal) →
      ∀ id ∈ Q, Backs P w header₁.number id (header.hashWithoutSeal P) := by
    intro Q header hheight hsigned id hid
    obtain ⟨header', hsigned', hcontent⟩ := hsigned id hid
    refine ⟨header', hsigned', ?_, ?_⟩
    · rw [BlockHeader.number_eq_of_rlpWithoutSeal hcontent, hheight]
    · rw [BlockHeader.hashWithoutSeal, hcontent, BlockHeader.hashWithoutSeal]
  exact hQ₁.agree hQ₂ (Backs P w header₁.number) (fun id => backs_unique h header₁.number id _ _)
    (hbacks rfl hsigned₁) (hbacks hnumber.symm hsigned₂)

/-! ## Evaluated runs -/

/-- Whether every signature of the run that verifies for a miner and the header was
made by that miner for that content. -/
def unforged (P : Prims) (w : World) (miners : NodeSet) (header : BlockHeader) : Bool :=
  w.trace.all fun r => (r.before.signs P r.input).all fun header' =>
    miners.toList.all fun id =>
      !P.verify id (P.sign r.node (header'.hashWithoutSeal P)) (header.hashWithoutSeal P) ||
        r.node == id && header'.rlpWithoutSeal == header.rlpWithoutSeal

theorem unforged_of_check {header : BlockHeader} (h : unforged P w miners header = true) :
    Unforged P w miners header := by
  rintro id hid sig ⟨id', header', hsigned, rfl⟩ hverify
  obtain ⟨r, hr, rfl, hsigns⟩ := signed_iff.mp hsigned
  have hall := List.all_eq_true.mp h r hr
  rw [hsigns, Option.all_some, List.all_eq_true] at hall
  have hsame := hall id (Std.ExtTreeSet.mem_toList.mpr hid)
  simp only [hverify, Bool.not_true, Bool.false_or, Bool.and_eq_true, beq_iff_eq] at hsame
  exact ⟨header', hsame.1 ▸ hsigned, hsame.2⟩

/-- Whether the given nodes have all signed block 1 with the given timestamp. -/
def signedBy (w : World) (timestamp : Nat) (signers : List NodeID) : Bool :=
  signers.all fun id => w.trace.any fun r =>
    r.node == id && r.before.signs Prims.sample r.input == some (BlockHeader.sample 1 timestamp)

theorem certificate_of_check {timestamp : Nat} {signers : List NodeID}
    (hblock : BlockHeader.ofBlock Prims.sample (signedBlock timestamp signers) =
      some (BlockHeader.sample 1 timestamp))
    (haccepted : checkBlockSign Prims.sample miners (BlockHeader.sample 1 timestamp)
      (signedBlock timestamp signers) = true)
    (hlist : signList Prims.sample (signedBlock timestamp signers) =
      some (signers.map fun id => (id, sampleSign timestamp id)))
    (hsigned : signedBy w timestamp signers = true) :
    Certificate Prims.sample w miners (BlockHeader.sample 1 timestamp)
      (signedBlock timestamp signers) := by
  refine ⟨hblock, haccepted, ?_⟩
  intro l hl e he _ _
  rw [hlist] at hl
  cases hl
  obtain ⟨id, hid, rfl⟩ := List.mem_map.mp he
  obtain ⟨r, hr, hsigns⟩ := List.any_eq_true.mp (List.all_eq_true.mp hsigned id hid)
  rw [Bool.and_eq_true, beq_iff_eq, beq_iff_eq] at hsigns
  exact ⟨id, _, signed_iff.mpr ⟨r, hr, hsigns⟩, rfl⟩

/-- Nodes 1 and 3 of three sign block 1.  Nothing certifies another block 1. -/
theorem certificates_agree_three :
    ∃ w, threeNodes.system.Reach (threeNodes.Guard (SignsOnce Prims.sample)) w ∧
      Certificate Prims.sample w threeMiners (BlockHeader.sample 1 5) (signedBlock 5 [1, 3]) ∧
      ∀ block, ¬ Certificate Prims.sample w threeMiners (BlockHeader.sample 1 6) block := by
  have hrun : ∃ w, threeNodes.system.Reach (threeNodes.Guard (SignsOnce Prims.sample)) w ∧
      (signedBy w 5 [1, 3] && unforged Prims.sample w threeMiners (BlockHeader.sample 1 5) &&
        unforged Prims.sample w threeMiners (BlockHeader.sample 1 6)) = true :=
    System.Reach.exists_of_check (proposalRun ++ [.deliver 2 (20000004, 0)]) (.init rfl)
      (by decide +kernel) (by decide +kernel)
  obtain ⟨w, hw, hchecks⟩ := hrun
  rw [Bool.and_eq_true, Bool.and_eq_true] at hchecks
  have hcert : Certificate Prims.sample w threeMiners (BlockHeader.sample 1 5)
      (signedBlock 5 [1, 3]) :=
    certificate_of_check (by decide +kernel) (by decide +kernel) (by decide +kernel) hchecks.1.1
  refine ⟨w, hw, hcert, ?_⟩
  intro block hblock
  have hsame := certificates_agree Prims.sample [1, 2, 3] threeMiners (by decide +kernel) hw hcert
    hblock (unforged_of_check hchecks.1.2) (unforged_of_check hchecks.2) rfl
  revert hsame
  decide +kernel

/-- Node 1 is elected in view 1 and proposes a block 1.  Before the proposal
arrives, node 2 is elected in view 2 and proposes another block 1.  Each signs its
own block only, and one signature of two miners is enough for `checkBlockSign`. -/
theorem two_leaders_certify_two_blocks :
    ∃ w, twoNodes.system.Reach (twoNodes.Guard fun _ _ _ => True) w ∧
      Certificate Prims.sample w twoMiners (BlockHeader.sample 1 5) (signedBlock 5 [1]) ∧
      Certificate Prims.sample w twoMiners (BlockHeader.sample 1 6) (signedBlock 6 [2]) ∧
      Unforged Prims.sample w twoMiners (BlockHeader.sample 1 5) ∧
      Unforged Prims.sample w twoMiners (BlockHeader.sample 1 6) ∧
      sampleHash 5 ≠ sampleHash 6 := by
  have hrun : ∃ w, twoNodes.system.Reach (twoNodes.Guard fun _ _ _ => True) w ∧
      (signedBy w 5 [1] && signedBy w 6 [2] &&
        unforged Prims.sample w twoMiners (BlockHeader.sample 1 5) &&
        unforged Prims.sample w twoMiners (BlockHeader.sample 1 6)) = true :=
    System.Reach.exists_of_check
      [.input 1 (.reportBlockSelf 0), .input 1 (.tick 20000000), .deliver 0 (20000001, 0),
        .deliver 0 (20000002, 0), .input 1 (.generateSeal (.sampleBlock 1 5)),
        .input 1 (.tick 20000003), .input 2 (.reportBlockSelf 20000004),
        .input 2 (.tick 40000000), .deliver 1 (40000001, 0), .deliver 1 (40000002, 0),
        .input 2 (.generateSeal (.sampleBlock 1 6)), .input 2 (.tick 40000003)]
      (.init rfl) (by decide +kernel) (by decide +kernel)
  obtain ⟨w, hw, hchecks⟩ := hrun
  rw [Bool.and_eq_true, Bool.and_eq_true, Bool.and_eq_true] at hchecks
  obtain ⟨⟨⟨hsigned₁, hsigned₂⟩, hun₁⟩, hun₂⟩ := hchecks
  refine ⟨w, hw, ?_, ?_, unforged_of_check hun₁, unforged_of_check hun₂, by decide +kernel⟩
  · exact certificate_of_check (by decide +kernel) (by decide +kernel) (by decide +kernel) hsigned₁
  · exact certificate_of_check (by decide +kernel) (by decide +kernel) (by decide +kernel) hsigned₂

end Qpos

end CppSwc
