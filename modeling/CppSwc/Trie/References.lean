import Mathlib.Algebra.BigOperators.Fin
import CppSwc.Trie.RefCounts

/-!
# The trie leaks no nodes

The references of a trie object are found by a walk from its root through the database, as
`descendKey` makes it.  Every hash is counted as often as the walk meets it, so what has a
positive count is just what can be reached.

This is proved for counts that are natural numbers.  The counts of the code follow those as long
as no string has 2^32 references at once, also for a moment within a call.  To say this the run
is made with counts that remember the highest value they had (`Peaked`).
-/

namespace CppSwc.Trie

open Lib Std

/-! ## The walk -/

mutual

/-- The hashes that an entry of a node refers to, inlined nodes included: `descendEntry` and
`descendList`. -/
def linked : Rlp → List H256
  | .null => []
  | .data bs => if bs.length = 32 then [BitVec.ofNat 256 (fromBigEndian bs)] else []
  | .list items => linkedItems items

/-- The two forms of a list. -/
def linkedItems : List Rlp → List H256
  | [] => []
  | [hpe, next] => if isTerminated hpe.toBytes then [] else linked next
  | item :: items => linked item ++ linkedUpTo 15 items

/-- The hashes of the first entries of a branch. -/
def linkedUpTo : ℕ → List Rlp → List H256
  | n + 1, item :: items => linked item ++ linkedUpTo n items
  | _, _ => []

end

section

variable {N : Type} [RefCount N]

/-- The hashes that a walk through the nodes meets, as often as it meets them, down to some
depth: `descendKey`. -/
def walk (db : MemoryDB N) : ℕ → H256 → List H256
  | 0, _ => []
  | depth + 1, h => h :: (linked (db.lookup h)).flatMap (walk db depth)

/-- A node can be reached from the root. -/
inductive Reaches (db : MemoryDB N) (root : H256) : H256 → Prop where
  | root : Reaches db root root
  | step {h h' : H256} : Reaches db root h → h' ∈ linked (db.lookup h) → Reaches db root h'

/-- **No leaks.**  A hash has a positive count just if it is the root or stands in a node that can
be reached from the root, and the count is the number of times that a walk from the root meets
it.  No walk down keys of `n` bytes goes deeper than `2 * n + 1` nodes. -/
def CountsReferences (value : N → ℕ) (n : ℕ) (g : GenericTrieDB N) : Prop :=
  ∀ h, (0 < value (g.m_db.count h) ↔ h = g.m_root ∨
      ∃ h', Reaches g.m_db g.m_root h' ∧ h ∈ linked (g.m_db.lookup h')) ∧
    ∀ depth, 2 * n < depth → value (g.m_db.count h) = (walk g.m_db depth g.m_root).count h

variable {db : MemoryDB N} {root h h' : H256} {depth : ℕ}

theorem reaches_of_mem_walk {x : H256} (hx : Reaches db root x) (h : h' ∈ walk db depth x) :
    Reaches db root h' := by
  induction depth generalizing x with
  | zero => cases h
  | succ depth ih =>
      rcases List.mem_cons.mp h with rfl | h
      · exact hx
      · obtain ⟨y, hy, h⟩ := List.mem_flatMap.mp h
        exact ih (hx.step hy) h

/-- One depth more meets what a node met refers to. -/
theorem mem_walk_succ {x : H256} (hx : h ∈ walk db depth x) (hlink : h' ∈ linked (db.lookup h)) :
    h' ∈ walk db (depth + 1) x := by
  induction depth generalizing x with
  | zero => cases hx
  | succ depth ih =>
      rw [walk]
      refine List.mem_cons_of_mem x (List.mem_flatMap.mpr ?_)
      rcases List.mem_cons.mp hx with rfl | hx
      · exact ⟨h', hlink, List.mem_cons_self⟩
      · obtain ⟨y, hy, hx⟩ := List.mem_flatMap.mp hx
        exact ⟨y, hy, ih hx⟩

/-- What can be reached is met by every walk that is deep enough. -/
theorem Reaches.mem_walk (hr : Reaches db root h) :
    ∃ least, ∀ depth, least ≤ depth → h ∈ walk db depth root := by
  induction hr with
  | root =>
      refine ⟨1, fun depth hle => ?_⟩
      obtain ⟨depth, rfl⟩ : ∃ d, depth = d + 1 := ⟨depth - 1, by omega⟩
      exact List.mem_cons_self
  | step _ hlink ih =>
      obtain ⟨least, ih⟩ := ih
      refine ⟨least + 1, fun depth hle => ?_⟩
      obtain ⟨depth, rfl⟩ : ∃ d, depth = d + 1 := ⟨depth - 1, by omega⟩
      exact mem_walk_succ (ih depth (by omega)) hlink

end

/-! ## The references of a trie -/

theorem linkedUpTo_append (xs ys : List Rlp) :
    linkedUpTo xs.length (xs ++ ys) = xs.flatMap linked := by
  induction xs with
  | nil => cases ys <;> rfl
  | cons x xs ih => rw [List.cons_append, List.length_cons, linkedUpTo, ih, List.flatMap_cons]

/-- The hashes of a branch are those of its sixteen entries. -/
theorem linked_seventeen (f : Fin 16 → Rlp) :
    linked (.list (seventeen f)) = (List.finRange 16).flatMap fun i => linked (f i) := by
  have hitems : linked (.list (seventeen f)) = (List.ofFn f).flatMap linked := by
    have htail := linkedUpTo_append (List.ofFn fun i : Fin 15 => f i.succ) [.data []]
    rw [List.length_ofFn] at htail
    rw [linked, seventeen, List.ofFn_succ, List.flatMap_cons, ← htail]
    rfl
  rw [hitems, List.ofFn_eq_map, List.flatMap_map]

theorem linked_pair (k : Nibbles) (leaf : Bool) (r : Rlp) :
    linked (pair k leaf r) = if leaf then [] else linked r := by
  rw [pair, linked, linkedItems, Rlp.toBytes, isTerminated_hexPrefixEncode]

theorem linked_ofHash (h : H256) : linked (.ofHash 32 h) = [h] := by
  have hhash := toHash_ofHash h
  rw [Rlp.ofHash, toHash, if_neg (by simp), Option.some.injEq] at hhash
  rw [Rlp.ofHash, linked, if_pos (by simp), hhash]

theorem coe_flatMap {α β : Type} (xs : List α) (g : α → List β) :
    ((xs.flatMap g : List β) : Multiset β) = (xs.map fun x => (g x : Multiset β)).sum := by
  induction xs with
  | nil => rfl
  | cons x xs ih =>
      rw [List.flatMap_cons, ← Multiset.coe_add, ih, List.map_cons, List.sum_cons]

section

variable {sha3 : Rlp → H256} {S : Ground} {t c : Map} {M : Multiset H256} {db : MemoryDB}
  {n depth : ℕ}

/-- What a walk meets from the reference to a node on, if it meets the references in the node
from there on. -/
theorem walk_ref (hinj : Set.InjOn sha3 S.nodes) (hmem : node sha3 c ∈ S.nodes)
    (hdb : Holds sha3 S db (held sha3 c + M))
    (hin : ∀ d, depth ≤ d → ((linked (node sha3 c)).flatMap (walk db d) : Multiset H256) =
      refs sha3 c) {d : ℕ} (hd : depth < d) :
    ((linked (ref sha3 (node sha3 c))).flatMap (walk db d) : Multiset H256) = held sha3 c := by
  rcases ref_cases sha3 c with ⟨rfl, heq⟩ | ⟨-, hsize, heq, hown⟩ | ⟨-, hsize, heq, hown⟩
  · rw [heq, held_empty]
    rfl
  · rw [heq, hin d hd.le, held, hown, zero_add]
  · obtain ⟨d, rfl⟩ : ∃ e, d = e + 1 := ⟨d - 1, by omega⟩
    rw [heq, linked_ofHash, List.flatMap_singleton, walk, hdb.lookup_child hinj hmem hsize,
      ← Multiset.cons_coe, hin d (by omega), held, hown, Multiset.singleton_add]

/-- From a node on a walk meets the references in it. -/
theorem walk_node (hinj : Set.InjOn sha3 S.nodes) (hslot : Patricia.Slot n t)
    (hw : Within sha3 S n t) {d : ℕ} (hdb : Holds sha3 S db (refs sha3 t + M))
    (hd : n ≤ d) : ((linked (node sha3 t)).flatMap (walk db d) : Multiset H256) = refs sha3 t := by
  induction t generalizing n M d with
  | empty => rfl
  | leaf k v =>
      rw [node, linked_pair, if_pos rfl]
      rfl
  | ext k c ih =>
      obtain ⟨cs, m, rfl, hne, hn, hb⟩ := hslot.of_ext
      have hslot' : Patricia.Slot m (.branch cs) := fun _ => hb
      have hwc : Within sha3 S m (.branch cs) :=
        hw.below hn fun l => (Patricia.lookup_ext_append k l _).symm
      have hpos : 0 < k.length := List.length_pos_of_ne_nil hne
      rw [node, linked_pair, if_neg Bool.false_ne_true]
      exact walk_ref hinj (hwc.node_mem hslot') hdb
        (fun d hd => ih hslot' hwc hdb.of_held hd) (by omega)
  | branch cs ih =>
      obtain ⟨m, rfl, -, hcs⟩ := hslot.of_branch
      rw [node, linked_seventeen, List.flatMap_assoc, coe_flatMap]
      have hchild : ∀ i, ((linked (ref sha3 (node sha3 (cs i)))).flatMap (walk db d) :
          Multiset H256) = held sha3 (cs i) := by
        intro i
        have hwc : Within sha3 S m (cs i) := hw.below (p := [i]) (Nat.add_comm 1 m) fun _ => rfl
        have hdb' := hdb
        rw [refs_branch cs i, add_assoc] at hdb'
        exact walk_ref hinj (hwc.node_mem (hcs i)) hdb'
          (fun d hd => ih i (hcs i) hwc hdb'.of_held hd) (by omega)
      simp only [hchild]
      exact (Fin.sum_univ_def _).symm

/-- The counts of a database are what the walk from the root meets. -/
theorem Represents.count_eq {g : GenericTrieDB} {m : BytesMap} (hinj : Set.InjOn sha3 S.nodes)
    (hg : Represents sha3 S n g m t) (hd : 2 * n < depth) (h : H256) :
    g.m_db.count h = (walk g.m_db depth g.m_root).count h + S.rest h := by
  obtain ⟨depth, rfl⟩ : ∃ d, depth = d + 1 := ⟨depth - 1, by omega⟩
  have hholds := hg.holds
  rw [add_comm] at hholds
  have hwalk := walk_node (d := depth) hinj hg.slot hg.within hholds (by omega)
  rw [walk, hg.lookup_root hinj, hg.holds.count, ← Multiset.coe_count, ← Multiset.cons_coe, hwalk,
    hg.root, Multiset.singleton_add]

end

/-! ## From `init` on -/

/-- A count that remembers the highest value it had. -/
structure Peaked where
  refs : ℕ
  peak : ℕ

instance : RefCount Peaked where
  zero := ⟨0, 0⟩
  inc c := ⟨c.refs + 1, max c.peak (c.refs + 1)⟩
  dec c := ⟨c.refs - 1, c.peak⟩
  isPos c := 0 < c.refs

/-- In the run no string ever has 2^32 references at once. -/
def Countable (sha3 : Rlp → H256) (enforceRefs : Bool) (ops : List Op) : Prop :=
  ∀ g, (GenericTrieDB.init sha3 ({ m_enforceRefs := enforceRefs } : MemoryDB Peaked)).bind
    (runOps sha3 ops) = some g → ∀ h, (g.m_db.count h).peak < 2 ^ 32

/-- Remembering the highest value changes nothing. -/
theorem counts_peaked (enforceRefs : Bool) :
    Counts enforceRefs (fun (n : ℕ) (c : Peaked) => c.refs = n) fun _ => False where
  zero := rfl
  inc h := .inr (congrArg (· + 1) h)
  killed := by
    rintro _ c rfl
    rw [MemoryDB.killed_eq, MemoryDB.killed]
    split
    · rfl
    · next hpos =>
        have hzero : c.refs = 0 := by simpa [RefCount.isPos] using hpos
        rw [hzero]
  isPos _ _ _ h := congrArg (fun n => decide (0 < n)) h.symm
  over_inc := id
  over_killed := id

theorem isPos_unsigned {c : Peaked} {x : BitVec 32} (h : x.toNat = c.refs) :
    RefCount.isPos x = RefCount.isPos c := by
  show decide (0 < x) = decide (0 < c.refs)
  rw [decide_eq_decide, ← h]
  rfl

/-- A count of the code is exact until a count gets to 2^32. -/
theorem counts_unsigned (enforceRefs : Bool) :
    Counts enforceRefs (fun (c : Peaked) (x : BitVec 32) => x.toNat = c.refs ∧ c.refs ≤ c.peak)
      fun c => 2 ^ 32 ≤ c.peak where
  zero := ⟨rfl, le_rfl⟩
  inc := by
    rintro c x ⟨heq, hle⟩
    by_cases hover : 2 ^ 32 ≤ max c.peak (c.refs + 1)
    · exact .inl hover
    · refine .inr ⟨?_, le_max_right _ _⟩
      have hfits : c.refs + 1 < 2 ^ 32 := by omega
      show (x + 1).toNat = c.refs + 1
      rw [BitVec.toNat_add, heq]
      exact Nat.mod_eq_of_lt hfits
  killed := by
    rintro c x ⟨heq, hle⟩
    rw [MemoryDB.killed, MemoryDB.killed, isPos_unsigned heq]
    split
    · next hpos =>
        have hrefs : 0 < c.refs := of_decide_eq_true hpos
        refine ⟨?_, (Nat.sub_le _ _).trans hle⟩
        show (x - 1).toNat = c.refs - 1
        have hx := x.isLt
        have hone : (1 : BitVec 32).toNat = 1 := rfl
        rw [BitVec.toNat_sub, hone, heq]
        omega
    · exact ⟨heq, hle⟩
  isPos := by
    rintro _ c x ⟨heq, -⟩
    exact (isPos_unsigned heq).symm
  over_inc h := Nat.le_trans h (le_max_left _ _)
  over_killed := by
    intro c h
    rw [MemoryDB.killed]
    split <;> exact h

variable {sha3 : Rlp → H256} {n : ℕ} {ops : List Op}

/-- After any run from `init` on an empty database with keys of one length, natural numbers count
the references. -/
theorem countsReferences_run {db : MemoryDB} (hdb : db.m_main = ∅)
    (hlength : ∀ op ∈ ops, op.key.length = n) (hinj : Set.InjOn sha3 (involved sha3 ops)) :
    ∃ g, (GenericTrieDB.init sha3 db).bind (runOps sha3 ops) = some g ∧
      CountsReferences id n g := by
  have hget : ∀ h : H256, db.m_main[h]? = none := by
    intro h
    rw [hdb]
    exact ExtTreeMap.getElem?_empty
  have hfiled : db.Filed sha3 := by
    intro h v c hentry
    rw [hget] at hentry
    cases hentry
  have hnodes : db.nodes = ∅ := by
    refine Set.eq_empty_of_forall_notMem ?_
    rintro v ⟨h, c, hentry⟩
    rw [hget] at hentry
    cases hentry
  have hinj' : Set.InjOn sha3 (ground sha3 db ops).nodes := by
    rwa [ground, hnodes, Set.empty_union]
  obtain ⟨g, t, hrun, hg⟩ := represents_run hfiled hlength hinj'
  have hcount : ∀ h depth, 2 * n < depth →
      g.m_db.count h = (walk g.m_db depth g.m_root).count h := by
    intro h depth hd
    have hrest : (ground sha3 db ops).rest h = 0 := by
      show db.count h = 0
      rw [MemoryDB.count, hget]
      rfl
    rw [hg.count_eq hinj' hd, hrest, Nat.add_zero]
  refine ⟨g, hrun, fun h => ⟨?_, hcount h⟩⟩
  have hreaches : 0 < g.m_db.count h ↔ Reaches g.m_db g.m_root h := by
    constructor
    · intro hpos
      rw [hcount h (2 * n + 1) (by omega)] at hpos
      exact reaches_of_mem_walk .root (List.count_pos_iff.mp hpos)
    · intro hr
      obtain ⟨least, hleast⟩ := hr.mem_walk
      rw [hcount h (max least (2 * n + 1)) (by omega)]
      exact List.count_pos_iff.mpr (hleast _ (le_max_left _ _))
  rw [id, hreaches]
  constructor
  · intro hr
    cases hr with
    | root => exact .inl rfl
    | step hr hlink => exact .inr ⟨_, hr, hlink⟩
  · rintro (rfl | ⟨h', hr, hlink⟩)
    · exact .root
    · exact hr.step hlink

section

variable {K L : Type} [RefCount K] [RefCount L] {g : GenericTrieDB K} {g' : GenericTrieDB L}
  {value : K → ℕ} {value' : L → ℕ}

theorem walk_congr {db : MemoryDB K} {db' : MemoryDB L} (h : ∀ x, db'.lookup x = db.lookup x)
    (depth : ℕ) (root : H256) : walk db' depth root = walk db depth root := by
  induction depth generalizing root with
  | zero => rfl
  | succ depth ih => rw [walk, walk, h, funext ih]

theorem Reaches.congr {db : MemoryDB K} {db' : MemoryDB L} (h : ∀ x, db'.lookup x = db.lookup x)
    {root x : H256} (hr : Reaches db root x) : Reaches db' root x := by
  induction hr with
  | root => exact .root
  | step _ hlink ih => exact ih.step (by rwa [h])

/-- Counts that stand for the same numbers count the same references. -/
theorem CountsReferences.congr (hg : CountsReferences value n g) (hroot : g'.m_root = g.m_root)
    (hlookup : ∀ x, g'.m_db.lookup x = g.m_db.lookup x)
    (hcount : ∀ x, value' (g'.m_db.count x) = value (g.m_db.count x)) :
    CountsReferences value' n g' := by
  intro h
  obtain ⟨hpos, hwalk⟩ := hg h
  simp only [hroot, hlookup, hcount, walk_congr hlookup]
  refine ⟨hpos.trans (or_congr_right (exists_congr fun h' => and_congr_left fun _ => ?_)), hwalk⟩
  exact ⟨.congr hlookup, .congr fun x => (hlookup x).symm⟩

end

/-- **The trie leaks no nodes and loses none**, as long as its counts of 32 bits suffice: after
any run from `init` on an empty database with keys of one length in which no string ever has 2^32
references. -/
theorem references_counted {db : MemoryDB (BitVec 32)} (hdb : db.m_main = ∅)
    (hlength : ∀ op ∈ ops, op.key.length = n) (hinj : Set.InjOn sha3 (involved sha3 ops))
    (hcountable : Countable sha3 db.m_enforceRefs ops) :
    ∃ g, (GenericTrieDB.init sha3 db).bind (runOps sha3 ops) = some g ∧
      CountsReferences BitVec.toNat n g := by
  let natural : MemoryDB := { m_enforceRefs := db.m_enforceRefs }
  let peaked : MemoryDB Peaked := { m_enforceRefs := db.m_enforceRefs }
  have hnone : natural.m_main = ∅ := rfl
  have hnone' : peaked.m_main = ∅ := rfl
  have hpeaked := counts_peaked db.m_enforceRefs
  have hunsigned := counts_unsigned db.m_enforceRefs
  obtain ⟨g, hrun, hg⟩ := countsReferences_run hnone hlength hinj
  rcases run_of_alike hpeaked sha3 (alike_empty hnone hnone' rfl rfl) hrun with
    ⟨_, _, _, hfalse⟩ | ⟨p, hrunp, hroot, hp⟩
  · exact absurd hfalse id
  · rcases run_of_alike hunsigned sha3 (alike_empty rfl hdb rfl rfl) hrunp with
      ⟨h, c, hentry, hover⟩ | ⟨g', hrun', hroot', hg'⟩
    · have hlt := hcountable p hrunp h
      rw [MemoryDB.count, hentry] at hlt
      exact absurd hover (Nat.not_le_of_lt hlt)
    · refine ⟨g', hrun', hg.congr (hroot'.trans hroot) (fun x => ?_) fun x => ?_⟩
      · rw [← hg'.lookup hunsigned, ← hp.lookup hpeaked]
      · exact (hg'.count hunsigned x).1.trans (hp.count hpeaked x)

/-- `Countable` by the entries that a run leaves. -/
theorem countable_of_all {enforceRefs : Bool}
    (h : ((GenericTrieDB.init sha3 ({ m_enforceRefs := enforceRefs } : MemoryDB Peaked)).bind
      (runOps sha3 ops)).all fun g => g.m_db.m_main.toList.all fun e => e.2.2.peak < 2 ^ 32) :
    Countable sha3 enforceRefs ops := by
  intro g hrun x
  rw [hrun, Option.all_some, List.all_eq_true] at h
  rw [MemoryDB.count]
  rcases hentry : g.m_db.m_main[x]? with - | e
  · exact Nat.two_pow_pos 32
  · exact of_decide_eq_true (h (x, e) (ExtTreeMap.mem_toList_iff_getElem?_eq_some.mpr hentry))

theorem references_counted_twoKeys :
    ∃ g, (GenericTrieDB.init smallHash ({} : MemoryDB (BitVec 32))).bind
        (runOps smallHash twoKeys) = some g ∧ CountsReferences BitVec.toNat 1 g :=
  references_counted rfl (by decide)
    ((injOn_involved (by decide +kernel)).mono Set.subset_union_right)
    (countable_of_all (by decide +kernel))

end CppSwc.Trie
