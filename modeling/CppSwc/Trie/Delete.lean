import CppSwc.Trie.Merge

/-!
# Deletion writes the new trie

`deleteAt` gives the node of the trie without the key, or nothing if the key is not there.  A
branch that is left with one child becomes a pair, and a pair above a pair is grafted onto it.
-/

namespace CppSwc.Trie

open Lib

section

variable {sha3 : Rlp → H256} {S : Ground} {t c : Map} {cs : Fin 16 → Map}
  {k p : Nibbles} {i : Fin 16} {n fuel : ℕ} {M : Multiset H256} {db : MemoryDB} {r : Rlp}

/-! ## Reading a child -/

/-- A node that is referred to by its hash is found. -/
theorem Holds.lookup_own (hinj : Set.InjOn sha3 S.nodes) (hmem : r ∈ S.nodes) (hsize : ¬size r < 32)
    (hdb : Holds sha3 S db (own sha3 r + M)) : db.lookup (sha3 r) = r := by
  rw [own, if_neg hsize] at hdb
  exact hdb.lookup hinj hmem

/-- A child that is referred to is found. -/
theorem Holds.lookup_child (hinj : Set.InjOn sha3 S.nodes) (hmem : node sha3 c ∈ S.nodes)
    (hsize : ¬size (node sha3 c) < 32) (hdb : Holds sha3 S db (held sha3 c + M)) :
    db.lookup (sha3 (node sha3 c)) = node sha3 c := by
  rw [held, add_assoc] at hdb
  exact hdb.lookup_own hinj hmem hsize

theorem isData_of_isList (h : r.isList = true) : isData r = false := by
  cases r with
  | null => rfl
  | data bs => cases h
  | list xs => rfl

theorem isTwoItemNode_of_isList (hinj : Set.InjOn sha3 S.nodes) (hr : r.isList = true)
    (hmem : r ∈ S.nodes) (hdb : Holds sha3 S db (own sha3 r + M)) :
    isTwoItemNode (ref sha3 r) db = some (decide (r.itemCount = 2)) := by
  rcases ref_or_hash sha3 r with ⟨-, heq, -⟩ | ⟨hsize, heq, -⟩
  · rw [heq, isTwoItemNode, isData_of_isList hr]
    rfl
  · rw [heq, isTwoItemNode, toHash_ofHash]
    simp only [Rlp.ofHash, isData, if_true, Option.map_some]
    rw [hdb.lookup_own hinj hmem hsize]
/-- `graft` joins the key of a pair with that of the pair below, and kills that. -/
theorem turns_graft_of_pair (hinj : Set.InjOn sha3 S.nodes) (hr : r.isList = true)
    (hcount : r.itemCount = 2) (hmem : r ∈ S.nodes) (p : Nibbles) :
    Turns sha3 S (graft (pair p false (ref sha3 r))) (own sha3 r)
      (pair (p ++ keyOfNode r) (isLeaf r) (entry r 1)) 0 := by
  intro db M hdb
  rw [zero_add]
  rcases ref_or_hash sha3 r with ⟨-, heq, hown⟩ | ⟨hsize, heq, hown⟩
  · refine ⟨db, ?_, by rwa [hown, zero_add] at hdb⟩
    rw [graft, entry_pair_one, heq, hr]
    simp only [if_true, Option.bind_eq_bind, Option.bind_some, hcount, keyOfNode_pair]
  · have hlookup := hdb.lookup_own hinj hmem hsize
    refine ⟨db.kill (sha3 r), ?_, ?_⟩
    · rw [graft, entry_pair_one, heq, toHash_ofHash]
      simp only [Rlp.ofHash, Rlp.isList, Option.map_some, Option.bind_eq_bind, hlookup, hcount,
        keyOfNode_pair, Bool.false_eq_true, if_false, if_true, Option.bind_some]
    · rw [hown] at hdb
      exact hdb.kill

/-- `graft` joins the key of a pair with that of the pair below. -/
theorem turns_graft (hinj : Set.InjOn sha3 S.nodes) (hpair : IsPair c)
    (hmem : node sha3 c ∈ S.nodes) :
    Turns sha3 S (graft (pair p false (ref sha3 (node sha3 c)))) (held sha3 c)
      (node sha3 (Patricia.join p c)) (refs sha3 (Patricia.join p c)) := by
  have hc : c ≠ .empty := by
    rintro rfl
    exact hpair
  have hjoin : pair (p ++ keyOfNode (node sha3 c)) (isLeaf (node sha3 c)) (entry (node sha3 c) 1) =
      node sha3 (Patricia.join p c) ∧ refs sha3 (Patricia.join p c) = refs sha3 c := by
    cases c with
    | empty => cases hpair
    | branch cs => cases hpair
    | leaf k v => simp [node, Patricia.join, refs]
    | ext k c => simp [node, Patricia.join, refs]
  have hgraft := (turns_graft_of_pair hinj (isList_node sha3 hc) ((itemCount_node sha3 c).mpr hpair)
    hmem p).frame (refs sha3 c)
  rw [hjoin.2, held]
  rwa [hjoin.1, zero_add] at hgraft

/-- What is left of a node with one child: it is grafted if the child is a pair. -/
theorem graftOver_ref (hinj : Set.InjOn sha3 S.nodes) (hr : r.isList = true) (hmem : r ∈ S.nodes)
    (hdb : Holds sha3 S db (own sha3 r + M)) (p : Nibbles) :
    graftOver (ref sha3 r) (pair p false (ref sha3 r)) db =
      if r.itemCount = 2 then graft (pair p false (ref sha3 r)) db
      else some (pair p false (ref sha3 r), db) := by
  simp only [graftOver, isTwoItemNode_of_isList hinj hr hmem hdb, Option.bind_eq_bind,
    Option.bind_some, decide_eq_true_eq]

theorem turns_graftOver (hinj : Set.InjOn sha3 S.nodes) (hp : p ≠ []) (hc : c ≠ .empty)
    (hmem : node sha3 c ∈ S.nodes) :
    Turns sha3 S
      (graftOver (ref sha3 (node sha3 c)) (pair p false (ref sha3 (node sha3 c))))
      (held sha3 c) (node sha3 (Patricia.join p c)) (refs sha3 (Patricia.join p c)) := by
  intro db M hdb
  have hown := hdb
  rw [held, add_assoc] at hown
  rw [graftOver_ref hinj (isList_node sha3 hc) hmem hown]
  by_cases hpair : IsPair c
  · rw [if_pos ((itemCount_node sha3 c).mpr hpair)]
    exact turns_graft hinj hpair hmem db M hdb
  · rw [if_neg fun h => hpair ((itemCount_node sha3 c).mp h)]
    cases c with
    | empty => exact absurd rfl hc
    | leaf k v => exact absurd trivial hpair
    | ext k c => exact absurd trivial hpair
    | branch cs =>
        rw [Patricia.join, Patricia.prepend_of_ne hp]
        exact ⟨db, rfl, hdb⟩

/-! ## Going down -/

variable (sha3 S) in
/-- The step finds no key and changes nothing, or it gives the trie without the key. -/
def Deletes (f : MemoryDB → Option (Option Rlp × MemoryDB)) (t : Map) (k : Nibbles)
    (x : Map → Rlp) (B : Map → Multiset H256) : Prop :=
  (t.lookup k = none → Turns sha3 S f (held sha3 t) none (held sha3 t)) ∧
    (t.lookup k ≠ none →
      Turns sha3 S f (held sha3 t) (some (x (t.erase k))) (B (t.erase k)))

variable (sha3) in
/-- What `deleteAtAux` does with the result from below. -/
def streamIf : Option Rlp → MemoryDB → Option (Option Rlp × MemoryDB)
  | none, db => some (none, db)
  | some b, db => some (some (streamNode sha3 b db).1, (streamNode sha3 b db).2)

/-- What `deleteAtAux` does below a reference to a node. -/
theorem deleteAtAux_ref (hinj : Set.InjOn sha3 S.nodes) (hr : r.isList = true)
    (hempty : isEmpty r = false) (hmem : r ∈ S.nodes) (hdb : Holds sha3 S db (own sha3 r + M))
    (m : DeleteAt) (k : Nibbles) :
    deleteAtAux sha3 m (ref sha3 r) k db = (m r k db).bind fun q => streamIf sha3 q.1 q.2 := by
  rw [deleteAtAux]
  simp only [Option.bind_eq_bind]
  rcases ref_or_hash sha3 r with ⟨-, heq, -⟩ | ⟨hsize, heq, -⟩
  · rw [heq, hempty, hr, if_neg Bool.false_ne_true, if_pos rfl]
    congr 1
    funext q
    rcases q with ⟨- | b, db'⟩ <;> rfl
  · rw [heq, isEmpty_ofHash, toHash_ofHash]
    simp only [Rlp.ofHash, Rlp.isList, Bool.false_eq_true, if_false, Option.bind_some]
    rw [hdb.lookup_own hinj hmem hsize]
    congr 1
    funext q
    rcases q with ⟨- | b, db'⟩ <;> rfl

/-- Deleting below a node. -/
theorem deletes_deleteAtAux (hinj : Set.InjOn sha3 S.nodes) {m : DeleteAt}
    (hmem : t ≠ .empty → node sha3 t ∈ S.nodes) (hmem' : node sha3 (t.erase k) ∈ S.nodes)
    (hm : t ≠ .empty → Deletes sha3 S (m (node sha3 t) k) t k (node sha3) (refs sha3)) :
    Deletes sha3 S (deleteAtAux sha3 m (ref sha3 (node sha3 t)) k) t k
      (fun t => ref sha3 (node sha3 t)) (held sha3) := by
  have hnext : t ≠ .empty → Deletes sha3 S (fun db => (m (node sha3 t) k db).bind
      fun q => streamIf sha3 q.1 q.2) t k (fun t => ref sha3 (node sha3 t)) (held sha3) := by
    intro ht
    refine ⟨fun hnone => ((hm ht).1 hnone).bind (g := streamIf sha3) Turns.pure,
      fun hsome => ((hm ht).2 hsome).bind (g := streamIf sha3) ?_⟩
    intro db M hdb
    obtain ⟨heq, hdb'⟩ := hdb.streamNode hmem'
    refine ⟨(streamNode sha3 (node sha3 (t.erase k)) db).2, ?_, by rwa [held, add_assoc]⟩
    exact congrArg (fun r => some (some r, (streamNode sha3 (node sha3 (t.erase k)) db).2)) heq
  have hrun : ∀ db M, Holds sha3 S db (held sha3 t + M) → t ≠ .empty →
      deleteAtAux sha3 m (ref sha3 (node sha3 t)) k db =
        (m (node sha3 t) k db).bind fun q => streamIf sha3 q.1 q.2 := by
    intro db M hdb ht
    rw [held, add_assoc] at hdb
    exact deleteAtAux_ref hinj (isList_node sha3 ht)
      (Bool.eq_false_iff.mpr fun h => ht ((isEmpty_node t).mp h)) (hmem ht) hdb m k
  by_cases ht : t = .empty
  · subst ht
    refine ⟨fun _ => ?_, fun h => absurd rfl h⟩
    refine Turns.congr (fun db => ?_) Turns.pure
    rw [deleteAtAux, node, ref_RLPNull]
    rfl
  · constructor
    · intro hnone db M hdb
      rw [hrun db M hdb ht]
      exact (hnext ht).1 hnone db M hdb
    · intro hsome db M hdb
      rw [hrun db M hdb ht]
      exact (hnext ht).2 hsome db M hdb

/-! ## Pairs and branches -/

/-- What `deleteAt` does at a pair. -/
theorem deleteAt_pair (key k : Nibbles) (leaf : Bool) (r : Rlp) (db : MemoryDB) :
    deleteAt sha3 (fuel + 1) (pair key leaf r) k db =
      if key = k ∧ leaf then some (some RLPNull, killNode sha3 (pair key leaf r) db)
      else if key <+: k then
        (deleteAtAux sha3 (deleteAt sha3 fuel) r (k.drop key.length) db).bind fun q =>
          match q.1 with
          | none => some (none, q.2)
          | some r' =>
              (graftOver r' (pair key leaf r') (killNode sha3 (pair key leaf r) q.2)).bind
                fun b => some (some b.1, b.2)
      else some (none, db) := by
  have hpair : ∀ r', Rlp.list [entry (pair key leaf r) 0, r'] = pair key leaf r' := fun _ => rfl
  cases k <;> simp only [deleteAt, isEmpty_pair, itemCount_pair, keyOfNode_pair, isLeaf_pair,
    entry_pair_one, Bool.false_eq_true, if_false, if_true, hpair] <;> rfl

/-- What `deleteAt` does at a branch. -/
theorem deleteAt_withLast (f : Fin 16 → Rlp) (last : Rlp) (i : Fin 16) (k : Nibbles)
    (db : MemoryDB) :
    deleteAt sha3 (fuel + 1) (.list (withLast f last)) (i :: k) db =
      (deleteAtAux sha3 (deleteAt sha3 fuel) (f i) k db).bind fun q =>
        match q.1 with
        | none => some (none, q.2)
        | some r =>
            let rlp := .list ((withLast f last).set i r)
            match uniqueInUse rlp 255 with
            | none => some (some rlp, killNode sha3 (.list (withLast f last)) q.2)
            | some used =>
                (graftOver (entry rlp used) (merge rlp used)
                  (killNode sha3 (.list (withLast f last)) q.2)).bind
                    fun b => some (some b.1, b.2) := by
  simp only [deleteAt, isEmpty_withLast, itemCount_withLast, entry_withLast, Bool.false_eq_true,
    if_false, Nat.reduceEqDiff, if_true]
  rfl

/-! ## The entry in use -/

/-- An entry of a branch is in use, apart from one that is not asked for. -/
def InUse (orig : Rlp) (except j : ℕ) : Prop :=
  j < 17 ∧ j ≠ except ∧ isEmpty (entry orig j) = false

theorem mem_filter_inUse (orig : Rlp) (except j : ℕ) :
    j ∈ (List.range 17).filter (fun i => i ≠ except ∧ ¬isEmpty (entry orig i)) ↔
      InUse orig except j := by
  rw [List.mem_filter, List.mem_range, decide_eq_true_iff, Bool.not_eq_true]
  rfl

/-- `uniqueInUse` finds the entry if it is the only one. -/
theorem uniqueInUse_eq_some {orig : Rlp} {except j : ℕ} (h : ∀ l, InUse orig except l ↔ l = j) :
    uniqueInUse orig except = some j := by
  have hsingle : (List.range 17).filter (fun i => i ≠ except ∧ ¬isEmpty (entry orig i)) = [j] := by
    refine List.perm_singleton.mp ((List.perm_ext_iff_of_nodup
      (List.nodup_range.filter _) (List.nodup_singleton _)).mpr fun l => ?_)
    rw [mem_filter_inUse, List.mem_singleton, h]
  rw [uniqueInUse, hsingle]

theorem uniqueInUse_eq_none {orig : Rlp} {except : ℕ}
    (h : ¬∃ j, ∀ l, InUse orig except l ↔ l = j) : uniqueInUse orig except = none := by
  rw [uniqueInUse]
  split
  · next used hsingle =>
      refine absurd ⟨used, fun l => ?_⟩ h
      rw [← mem_filter_inUse, hsingle, List.mem_singleton]
  · rfl

theorem inUse_withLast (f : Fin 16 → Rlp) (last : Rlp) (except j : ℕ) :
    InUse (.list (withLast f last)) except j ↔
      j ≠ except ∧ ((∃ i : Fin 16, j = i ∧ isEmpty (f i) = false) ∨
        j = 16 ∧ isEmpty last = false) := by
  rw [InUse]
  constructor
  · rintro ⟨hlt, hexcept, hne⟩
    refine ⟨hexcept, ?_⟩
    rcases Nat.lt_or_ge j 16 with hj | hj
    · have hentry := entry_withLast f last ⟨j, hj⟩
      rw [show (⟨j, hj⟩ : Fin 16).val = j from rfl] at hentry
      exact .inl ⟨⟨j, hj⟩, rfl, hentry ▸ hne⟩
    · obtain rfl : j = 16 := by omega
      exact .inr ⟨rfl, by rwa [entry_withLast_last] at hne⟩
  · rintro ⟨hexcept, ⟨i, rfl, hi⟩ | ⟨rfl, hlast⟩⟩
    · exact ⟨by omega, hexcept, by rwa [entry_withLast]⟩
    · exact ⟨by omega, hexcept, by rwa [entry_withLast_last]⟩

/-- `merge` puts the digit of the child in front of it. -/
theorem merge_withLast (f : Fin 16 → Rlp) (last : Rlp) (i : Fin 16) :
    merge (.list (withLast f last)) i.val = pair [i] false (f i) := by
  have hofNat : nibbleOf i.val = i := Fin.ext (Nat.mod_eq_of_lt i.isLt)
  rw [merge, if_pos (by omega), entry_withLast, hofNat]

variable (sha3) in
/-- The entries in use are those of the children. -/
theorem inUse_branch (cs : Fin 16 → Map) (j : ℕ) :
    InUse (node sha3 (.branch cs)) 255 j ↔ ∃ i : Fin 16, j = i ∧ cs i ≠ .empty := by
  rw [node, seventeen_eq, inUse_withLast]
  constructor
  · rintro ⟨-, ⟨i, rfl, hi⟩ | ⟨-, hlast⟩⟩
    · exact ⟨i, rfl, fun he => Bool.false_ne_true (hi.symm.trans ((isEmpty_ref _).mpr he))⟩
    · cases hlast
  · rintro ⟨i, rfl, hi⟩
    refine ⟨by omega, .inl ⟨i, rfl, ?_⟩⟩
    rw [Bool.eq_false_iff, ne_eq, isEmpty_ref]
    exact hi

theorem uniqueInUse_of_only (hi : cs i ≠ .empty) (h : ∀ j, cs j ≠ .empty → j = i) :
    uniqueInUse (node sha3 (.branch cs)) 255 = some i.val := by
  refine uniqueInUse_eq_some fun l => ?_
  rw [inUse_branch]
  constructor
  · rintro ⟨j, rfl, hj⟩
    rw [h j hj]
  · rintro rfl
    exact ⟨i, rfl, hi⟩

theorem uniqueInUse_of_forks (h : Patricia.Forks cs) :
    uniqueInUse (node sha3 (.branch cs)) 255 = none := by
  obtain ⟨i, j, hij, hi, hj⟩ := h
  refine uniqueInUse_eq_none ?_
  rintro ⟨used, hused⟩
  have hmem : ∀ l, cs l ≠ .empty → l.val = used := fun l hl =>
    (hused l.val).mp ((inUse_branch sha3 cs l.val).mpr ⟨l, rfl, hl⟩)
  exact hij (Fin.ext ((hmem i hi).trans (hmem j hj).symm))

/-- The branch without a key below one child: merged if only one child is left. -/
theorem turns_squash (hinj : Set.InjOn sha3 S.nodes) (hi : cs i ≠ .empty)
    (hmem : ∀ j, cs j ≠ .empty → node sha3 (cs j) ∈ S.nodes) :
    Turns sha3 S (fun db =>
        match uniqueInUse (node sha3 (.branch cs)) 255 with
        | none => some (some (node sha3 (.branch cs)), db)
        | some used => (graftOver (entry (node sha3 (.branch cs)) used)
            (merge (node sha3 (.branch cs)) used) db).bind fun b => some (some b.1, b.2))
      (refs sha3 (.branch cs)) (some (node sha3 (Patricia.squash cs)))
      (refs sha3 (Patricia.squash cs)) := by
  rcases Patricia.only_or_forks hi with honly | hforks
  · have hentry : entry (node sha3 (.branch cs)) i.val = ref sha3 (node sha3 (cs i)) :=
      entry_seventeen _ i
    have hmerge : merge (node sha3 (.branch cs)) i.val =
        pair [i] false (ref sha3 (node sha3 (cs i))) := merge_withLast _ _ i
    have hrefs : refs sha3 (.branch cs) = held sha3 (cs i) := by
      rw [refs_branch cs i, others, Finset.sum_eq_zero, add_zero]
      intro j hj
      rw [not_not.mp fun hne => Finset.ne_of_mem_erase hj (honly j hne), held_empty]
    simp only [uniqueInUse_of_only hi honly, hentry, hmerge, hrefs,
      Patricia.squash_of_only hi honly]
    exact (turns_graftOver hinj (List.cons_ne_nil i []) hi (hmem i hi)).bind
      (g := fun b db => some (some b, db)) Turns.pure
  · simp only [uniqueInUse_of_forks hforks, Patricia.squash_of_forks hforks]
    exact Turns.pure

/-- An extension is kept over what is left below it, or joined with it. -/
theorem deletes_ext (hinj : Set.InjOn sha3 S.nodes) (hp : p ≠ []) (hc : c.erase k ≠ .empty)
    (hmem : node sha3 (c.erase k) ∈ S.nodes)
    (haux : Deletes sha3 S (deleteAtAux sha3 (deleteAt sha3 fuel) (ref sha3 (node sha3 c)) k) c k
      (fun t => ref sha3 (node sha3 t)) (held sha3)) :
    Deletes sha3 S (deleteAt sha3 (fuel + 1) (node sha3 (.ext p c)) (p ++ k)) (.ext p c) (p ++ k)
      (node sha3) (refs sha3) := by
  have hheld : held sha3 (.ext p c) = held sha3 c + own sha3 (node sha3 (.ext p c)) :=
    add_comm _ _
  rw [Deletes, Patricia.lookup_ext_append, Patricia.erase_ext_append, hheld]
  constructor
  · intro h db M hdb
    rw [add_assoc] at hdb ⊢
    obtain ⟨db', hrun, hdb'⟩ := haux.1 h db _ hdb
    refine ⟨db', ?_, hdb'⟩
    rw [node, deleteAt_pair, if_neg fun h => Bool.false_ne_true h.2,
      if_pos (List.prefix_append p k), List.drop_left, hrun]
    rfl
  · intro h db M hdb
    rw [add_assoc] at hdb
    obtain ⟨db₁, hrun, hdb₁⟩ := haux.2 h db _ hdb
    rw [add_left_comm] at hdb₁
    obtain ⟨db₂, hrun', hdb₂⟩ := turns_graftOver hinj hp hc hmem _ M hdb₁.killNode
    refine ⟨db₂, ?_, hdb₂⟩
    rw [node] at hrun'
    rw [node, deleteAt_pair, if_neg fun h => Bool.false_ne_true h.2,
      if_pos (List.prefix_append p k), List.drop_left, hrun, Option.bind_some]
    simp only [hrun', Option.bind_some]

/-- A branch is kept over what is left below it, or merged. -/
theorem deletes_branch (hinj : Set.InjOn sha3 S.nodes) (hforks : Patricia.Forks cs)
    (hmem : ∀ j, cs j ≠ .empty → node sha3 (cs j) ∈ S.nodes)
    (hmem' : node sha3 ((cs i).erase k) ∈ S.nodes)
    (haux : Deletes sha3 S (deleteAtAux sha3 (deleteAt sha3 fuel) (ref sha3 (node sha3 (cs i))) k)
      (cs i) k (fun t => ref sha3 (node sha3 t)) (held sha3)) :
    Deletes sha3 S (deleteAt sha3 (fuel + 1) (node sha3 (.branch cs)) (i :: k)) (.branch cs)
      (i :: k) (node sha3) (refs sha3) := by
  have hheld : held sha3 (.branch cs) =
      held sha3 (cs i) + (others sha3 cs i + own sha3 (node sha3 (.branch cs))) := by
    rw [held, refs_branch cs i, add_comm, add_assoc]
  rw [Deletes, Patricia.lookup_branch_cons, Patricia.erase_branch_cons, hheld]
  constructor
  · intro h db M hdb
    rw [add_assoc] at hdb ⊢
    obtain ⟨db', hrun, hdb'⟩ := haux.1 h db _ hdb
    refine ⟨db', ?_, hdb'⟩
    rw [node, seventeen_eq, deleteAt_withLast, hrun]
    rfl
  · intro h db M hdb
    rw [add_assoc] at hdb
    obtain ⟨db₁, hrun, hdb₁⟩ := haux.2 h db _ hdb
    -- a child other than the one at `i` is still there
    obtain ⟨j, hji, hj⟩ := hforks.exists_other i
    set cs' := Function.update cs i ((cs i).erase k) with hcs'
    have hj' : cs' j ≠ .empty := by rwa [hcs', Function.update_of_ne hji]
    have hall : ∀ j, cs' j ≠ .empty → node sha3 (cs' j) ∈ S.nodes := by
      intro l hl
      rcases eq_or_ne l i with rfl | hli
      · rwa [hcs', Function.update_self]
      · rw [hcs', Function.update_of_ne hli] at hl ⊢
        exact hmem l hl
    have hkilled : Holds sha3 S (killNode sha3 (node sha3 (.branch cs)) db₁)
        (refs sha3 (.branch cs') + M) := by
      refine Holds.killNode ?_
      rw [hcs', refs_update]
      rwa [← add_assoc, ← add_assoc, add_comm _ (own sha3 (node sha3 (.branch cs))), add_assoc]
        at hdb₁
    obtain ⟨db₂, hrun', hdb₂⟩ := turns_squash hinj hj' hall _ M hkilled
    refine ⟨db₂, ?_, hdb₂⟩
    rw [hcs', node_update] at hrun'
    rw [node, seventeen_eq, deleteAt_withLast, hrun, Option.bind_some]
    exact hrun'

/-! ## Deletion -/

/-- `deleteAt` deletes. -/
theorem deletes_deleteAt (hinj : Set.InjOn sha3 S.nodes) (hslot : Patricia.Slot n t)
    (hk : k.length = n) (hw : Within sha3 S n t) (hw' : Within sha3 S n (t.erase k)) (hfuel : n + 1 ≤ fuel) :
    Deletes sha3 S (deleteAt sha3 fuel (node sha3 t) k) t k (node sha3) (refs sha3) := by
  obtain ⟨fuel, rfl⟩ : ∃ f, fuel = f + 1 := ⟨fuel - 1, by omega⟩
  induction t generalizing n k fuel with
  | empty =>
      refine ⟨fun _ => ?_, fun h => absurd rfl h⟩
      refine Turns.congr (fun db => ?_) Turns.pure
      cases k <;> rfl
  | leaf k₀ w =>
      have hn : k₀.length = n := hslot.of_leaf
      rcases eq_or_ne k₀ k with rfl | hne
      · refine ⟨fun h => by simp at h, fun _ => ?_⟩
        have herase : (Patricia.leaf k₀ w).erase k₀ = .empty := if_pos rfl
        rw [herase]
        refine Turns.congr (fun db => ?_) (turns_killNode (node sha3 (.leaf k₀ w)) (some RLPNull))
        rw [node, deleteAt_pair, if_pos ⟨rfl, rfl⟩]
      · have hnone : (Patricia.leaf k₀ w).lookup k = none := if_neg hne.symm
        refine ⟨fun _ => ?_, fun h => absurd hnone h⟩
        refine Turns.congr (fun db => ?_) Turns.pure
        rw [node, deleteAt_pair, if_neg fun h => hne h.1,
          if_neg fun h => hne (h.eq_of_length (hn.trans hk.symm))]
  | ext k₀ c ih =>
      obtain ⟨cs, m, rfl, hne, hn, hb⟩ := hslot.of_ext
      by_cases hp : k₀ <+: k
      · obtain ⟨k, rfl⟩ := hp
        rw [List.length_append] at hk
        have hslot' : Patricia.Slot m (.branch cs) := fun _ => hb
        have hwc : Within sha3 S m (.branch cs) :=
          hw.below hn fun k => (Patricia.lookup_ext_append k₀ k _).symm
        have hwc' : Within sha3 S m ((Patricia.branch cs).erase k) := by
          refine hw'.below hn fun l => ?_
          rw [Patricia.erase_ext_append, Patricia.lookup_join, Patricia.lookup_prepend_append]
        have hmem := hwc'.node_mem (hslot'.erase k)
        have hpos : 0 < k₀.length := List.length_pos_of_ne_nil hne
        obtain ⟨fuel, rfl⟩ : ∃ f, fuel = f + 1 := ⟨fuel - 1, by omega⟩
        have hchild := ih hslot' (k := k) (by omega) hwc hwc' fuel (by omega)
        exact deletes_ext hinj hne ((hb.erase k).2 cs rfl) hmem
          (deletes_deleteAtAux hinj (fun _ => hwc.node_mem hslot') hmem fun _ => hchild)
      · have hnone : (Patricia.ext k₀ (.branch cs)).lookup k = none :=
          Patricia.lookup_ext_apart hp
        refine ⟨fun _ => ?_, fun h => absurd hnone h⟩
        refine Turns.congr (fun db => ?_) Turns.pure
        rw [node, deleteAt_pair, if_neg fun h => Bool.false_ne_true h.2, if_neg hp]
  | branch cs ih =>
      obtain ⟨m, rfl, hforks, hcs⟩ := hslot.of_branch
      cases k with
      | nil => cases hk
      | cons i k =>
          have hkm : k.length = m := Nat.succ.inj hk
          have hwc : ∀ j, Within sha3 S m (cs j) := fun j =>
            hw.below (p := [j]) (Nat.add_comm 1 m) fun _ => rfl
          have hwc' : Within sha3 S m ((cs i).erase k) := by
            refine hw'.below (p := [i]) (Nat.add_comm 1 m) fun l => ?_
            rw [Patricia.erase_branch_cons, Patricia.lookup_squash, List.singleton_append,
              Patricia.lookup_branch_cons, Function.update_self]
          have hmem := hwc'.node_mem ((hcs i).erase k)
          obtain ⟨fuel, rfl⟩ : ∃ f, fuel = f + 1 := ⟨fuel - 1, by omega⟩
          have hchild := ih i (hcs i) (k := k) hkm (hwc i) hwc' fuel (by omega)
          exact deletes_branch hinj hforks (fun j _ => (hwc j).node_mem (hcs j)) hmem
            (deletes_deleteAtAux hinj (fun _ => (hwc i).node_mem (hcs i)) hmem fun _ => hchild)

end

end CppSwc.Trie
