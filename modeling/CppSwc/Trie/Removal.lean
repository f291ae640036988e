import CppSwc.Trie.AnyKeys

/-!
# Removing a key touches nothing else

`GenericTrieDB::remove` on tries with keys of any length.  Two slips in `deleteAt` show with keys
that are prefixes of each other, and a third one with the key that ends at a branch.  A leaf is
entered like an extension when the key goes on behind it, so that its value is read as a
reference.  When only the value of a branch is left, it is read as a reference too.  And where a
branch has no value, the key that ends there has no next digit.  `Removable` says that none of
this comes up.
-/

namespace CppSwc.Trie

open Lib Std

/-! ## When the deletion goes well -/

/-- No value is read as a reference on the way, or what is read is harmless: there is nothing
behind a leaf unless its value is empty, a branch at which the key ends has a value, and a value
that is left alone in its branch leads to no pair. -/
def Removable (db : MemoryDB) : AnyMap → Nibbles → Prop
  | .empty, _ => True
  | .leaf k₀ v, k => k₀ <+: k → k₀ = k ∨ v = []
  | .ext k₀ c, k => k₀ <+: k → Removable db c (k.drop k₀.length)
  | .branch cs v, k => match k with
      | [] => v ≠ none
      | i :: k => Removable db (cs i) k ∧
          ∀ w, v = some w → (∃ w', cs i = .leaf k w') → (∀ j, j ≠ i → cs j = .empty) →
            isTwoItemNode (.data w) db = some false

section

variable {sha3 : Rlp → H256} {S : Ground} {t c : AnyMap} {cs : Fin 16 → AnyMap}
  {v : Option Bytes} {w : Bytes} {k p : Nibbles} {i : Fin 16} {fuel : ℕ} {M : Multiset H256}
  {db : MemoryDB}

/-! ## What is left of a branch -/

/-- A pair over a trie takes its key in. -/
theorem turns_graftOver_join (hinj : Set.InjOn sha3 S.nodes) (hc : c ≠ .empty)
    (hmem : nodeOf sha3 c ∈ S.nodes) (p : Nibbles) :
    Turns sha3 S (graftOver (ref sha3 (nodeOf sha3 c)) (pair p false (ref sha3 (nodeOf sha3 c))))
      (heldOf sha3 c) (nodeOf sha3 (c.join p)) (refsOf sha3 (c.join p)) := by
  intro db M hdb
  have hlist := isList_nodeOf sha3 hc
  rw [graftOver_ref hinj hlist hmem hdb.own_of_heldOf]
  cases c with
  | empty => exact absurd rfl hc
  | branch cs v =>
      rw [if_neg (by simp [nodeOf])]
      exact ⟨db, rfl, hdb⟩
  | leaf k w =>
      obtain ⟨db', hrun, hdb'⟩ := turns_graft_of_pair hinj hlist rfl hmem p db _ hdb.own_of_heldOf
      rw [nodeOf, keyOfNode_pair, isLeaf_pair, entry_pair_one] at hrun
      exact ⟨db', hrun, by rwa [zero_add] at hdb'⟩
  | ext k c =>
      obtain ⟨db', hrun, hdb'⟩ := turns_graft_of_pair hinj hlist rfl hmem p db _ hdb.own_of_heldOf
      rw [nodeOf, keyOfNode_pair, isLeaf_pair, entry_pair_one] at hrun
      exact ⟨db', hrun, by rwa [zero_add] at hdb'⟩

/-- What `deleteAt` makes of a branch: the only entry in use, or the branch `kept`. -/
def mergeUnique (orig kept : Rlp) (except : ℕ) (db : MemoryDB) :
    Option (Option Rlp × MemoryDB) :=
  match uniqueInUse orig except with
  | none => some (some kept, db)
  | some used => (graftOver (entry orig used) (merge orig used) db).bind
      fun b => some (some b.1, b.2)

/-- Where only children are in use, one of them may be the only one. -/
theorem turns_mergeUnique_children (hinj : Set.InjOn sha3 S.nodes)
    (hmem : ∀ j, cs j ≠ .empty → nodeOf sha3 (cs j) ∈ S.nodes) {last : Rlp} {except : ℕ}
    (huse : ∀ j, InUse (.list (withLast (fun i => ref sha3 (nodeOf sha3 (cs i))) last)) except j ↔
      ∃ i : Fin 16, j = i ∧ cs i ≠ .empty) :
    Turns sha3 S (mergeUnique (.list (withLast (fun i => ref sha3 (nodeOf sha3 (cs i))) last))
        (nodeOf sha3 (.branch cs none)) except)
      (refsOf sha3 (.branch cs none)) (some (nodeOf sha3 (Radix.squash cs none)))
      (refsOf sha3 (Radix.squash cs none)) := by
  by_cases hex : ∃ i, cs i ≠ .empty ∧ ∀ j, cs j ≠ .empty → j = i
  · obtain ⟨i, hi, hall⟩ := hex
    have hused : uniqueInUse (.list (withLast (fun i => ref sha3 (nodeOf sha3 (cs i))) last))
        except = some i.val := by
      refine uniqueInUse_eq_some fun l => ?_
      rw [huse]
      constructor
      · rintro ⟨j, rfl, hj⟩
        rw [hall j hj]
      · rintro rfl
        exact ⟨i, rfl, hi⟩
    have hrefs : refsOf sha3 (.branch cs none) = heldOf sha3 (cs i) := by
      rw [refsOf_branch cs none i, othersOf, Finset.sum_eq_zero, add_zero]
      intro j hj
      rw [not_not.mp fun hne => Finset.ne_of_mem_erase hj (hall j hne), heldOf_empty]
    rw [Radix.squash_of_only hi hall, hrefs]
    refine Turns.congr (fun db => ?_) ((turns_graftOver_join hinj hi (hmem i hi) [i]).bind
      (g := fun b db => some (some b, db)) Turns.pure)
    rw [mergeUnique, hused]
    simp only [entry_withLast, merge_withLast]
  · have hused : uniqueInUse (.list (withLast (fun i => ref sha3 (nodeOf sha3 (cs i))) last))
        except = none := by
      refine uniqueInUse_eq_none ?_
      rintro ⟨used, hused⟩
      obtain ⟨i, rfl, hi⟩ := (huse used).mp ((hused used).mpr rfl)
      exact hex ⟨i, hi, fun j hj => Fin.ext ((hused j).mp ((huse j).mpr ⟨j, rfl, hj⟩))⟩
    rw [Radix.squash_of_not_only hex]
    refine Turns.congr (fun db => ?_) Turns.pure
    rw [mergeUnique, hused]

/-- A branch with a value and a child stays. -/
theorem mergeUnique_of_both (hw : w ≠ []) (hi : cs i ≠ .empty) (kept : Rlp) (db : MemoryDB) :
    mergeUnique (nodeOf sha3 (.branch cs (some w))) kept 255 db = some (some kept, db) := by
  have huse := inUse_nodeOf sha3 cs (v := some w) (fun w' h => Option.some.inj h ▸ hw) 255
  have hused : uniqueInUse (nodeOf sha3 (.branch cs (some w))) 255 = none := by
    refine uniqueInUse_eq_none ?_
    rintro ⟨used, hused⟩
    have hchild := (hused i).mp ((huse i).mpr ⟨by omega, .inl ⟨i, rfl, hi⟩⟩)
    have hvalue := (hused 16).mp ((huse 16).mpr ⟨by omega, .inr ⟨rfl, by simp⟩⟩)
    omega
  rw [mergeUnique, hused]

/-- A value that is left alone is read as a reference. -/
theorem mergeUnique_of_alone (hw : w ≠ []) (hall : ∀ i, cs i = .empty) (kept : Rlp)
    (db : MemoryDB) :
    mergeUnique (nodeOf sha3 (.branch cs (some w))) kept 255 db =
      (graftOver (.data w) (nodeOf sha3 (.leaf [] w)) db).bind fun b => some (some b.1, b.2) := by
  have hused : uniqueInUse (nodeOf sha3 (.branch cs (some w))) 255 = some 16 := by
    refine uniqueInUse_eq_some fun l => ?_
    rw [inUse_nodeOf sha3 cs fun w' h => Option.some.inj h ▸ hw]
    constructor
    · rintro ⟨-, ⟨i, -, hi⟩ | ⟨rfl, -⟩⟩
      · exact absurd (hall i) hi
      · rfl
    · rintro rfl
      exact ⟨by omega, .inr ⟨rfl, by simp⟩⟩
  have hentry : entry (nodeOf sha3 (.branch cs (some w))) 16 = .data w := entry_withLast_last _ _
  rw [mergeUnique, hused]
  simp only [merge, hentry, ne_eq, not_true_eq_false, if_false]
  rfl

/-- It becomes a leaf if it reads as no reference to a pair. -/
theorem graftOver_of_no_pair {r s : Rlp} (h : isTwoItemNode r db = some false) :
    graftOver r s db = some (s, db) := by
  rw [graftOver, h]
  rfl

/-! ## Databases that lose nodes -/

/-- What is killed is found as before, or no longer. -/
theorem lookup_kill (db : MemoryDB) (h h' : H256) :
    (db.kill h).lookup h' = db.lookup h' ∨ (db.kill h).lookup h' = .null := by
  simp only [MemoryDB.lookup_eq, MemoryDB.getElem?_kill, MemoryDB.m_enforceRefs_kill]
  by_cases heq : h = h'
  · subst heq
    rw [if_pos rfl]
    rcases db.m_main[h]? with - | ⟨v, refs⟩
    · exact .inl rfl
    · simp only [Option.map_some, Option.elim_some, MemoryDB.killed]
      by_cases hpos : RefCount.isPos refs
      · simp only [hpos, Bool.or_true, if_true]
        exact (em _).imp (fun h => if_pos h) fun h => if_neg h
      · exact .inl (by rw [if_neg hpos])
  · exact .inl (by rw [if_neg heq])

/-- So what is no pair does not become one. -/
theorem isTwoItemNode_kill {r : Rlp} {h : H256} (hr : isTwoItemNode r db = some false) :
    isTwoItemNode r (db.kill h) = some false := by
  rw [isTwoItemNode] at hr ⊢
  split at hr
  · next hdata =>
      rw [if_pos hdata]
      cases hhash : toHash r with
      | none =>
          rw [hhash] at hr
          cases hr
      | some h' =>
          rw [hhash, Option.map_some, Option.some.injEq] at hr
          rw [Option.map_some, Option.some.injEq]
          rcases lookup_kill db h h' with heq | heq
          · rw [heq, hr]
          · rw [heq]
            rfl
  · next hdata => rwa [if_neg hdata]

theorem isTwoItemNode_killNode {r n : Rlp} (hr : isTwoItemNode r db = some false) :
    isTwoItemNode r (killNode sha3 n db) = some false := by
  rw [killNode, killNodeAt]
  split
  · exact isTwoItemNode_kill hr
  · exact hr

/-! ## Keys that are absent -/

/-- What `deleteAt` does at a branch where the key ends. -/
theorem deleteAt_withLast_nil (f : Fin 16 → Rlp) (last : Rlp) (db : MemoryDB) :
    deleteAt sha3 (fuel + 1) (.list (withLast f last)) [] db =
      if isEmpty last then none
      else mergeUnique (.list (withLast f last)) (.list (withLast f (.data []))) 16
        (killNode sha3 (.list (withLast f last)) db) := by
  have hset : (Rlp.list (withLast f last)).items.set 16 (.data []) = withLast f (.data []) :=
    withLast_set_last f last _
  simp only [deleteAt, isEmpty_withLast, itemCount_withLast, entry_withLast_last, hset,
    Bool.false_eq_true, if_false, Nat.reduceEqDiff, if_true, mergeUnique]
  cases uniqueInUse (.list (withLast f last)) 16 <;> rfl

/-- Nothing happens below a reference to a trie without the key. -/
theorem deleteAtAux_absent (hinj : Set.InjOn sha3 S.nodes) (hmem : nodeOf sha3 t ∈ S.nodes)
    (hdb : Holds sha3 S db (heldOf sha3 t + M)) {m : DeleteAt}
    (hm : t ≠ .empty → m (nodeOf sha3 t) k db = some (none, db)) :
    deleteAtAux sha3 m (ref sha3 (nodeOf sha3 t)) k db = some (none, db) := by
  by_cases ht : t = .empty
  · subst ht
    rw [nodeOf, ref_RLPNull]
    rfl
  · rw [deleteAtAux_ref hinj (isList_nodeOf sha3 ht) (isEmpty_nodeOf_eq_false ht) hmem
      hdb.own_of_heldOf, hm ht]
    rfl

/-- A key that is absent is not found. -/
theorem deleteAt_absent (hinj : Set.InjOn sha3 S.nodes) (hlegal : Legal t)
    (hparts : ∀ u ∈ t.parts, nodeOf sha3 u ∈ S.nodes) (hfuel : k.length < fuel)
    (hok : Removable db t k) (hnone : t.lookup k = none)
    (hdb : Holds sha3 S db (refsOf sha3 t + M)) :
    deleteAt sha3 fuel (nodeOf sha3 t) k db = some (none, db) := by
  obtain ⟨fuel, rfl⟩ : ∃ f, fuel = f + 1 := ⟨fuel - 1, by omega⟩
  induction hlegal generalizing k fuel M with
  | empty => cases k <;> rfl
  | leaf k₀ w =>
      have hne : k₀ ≠ k := by
        rintro rfl
        simp at hnone
      rw [nodeOf, deleteAt_pair, if_neg fun h => hne h.1]
      split
      · next hp =>
          -- the key goes on behind the leaf, whose value is empty
          obtain rfl : w = [] := (hok hp).resolve_left hne
          rfl
      · rfl
  | @ext k₀ cs v hne hb ih =>
      rw [nodeOf, deleteAt_pair, if_neg fun h => Bool.false_ne_true h.2]
      by_cases hp : k₀ <+: k
      · obtain ⟨k, rfl⟩ := hp
        have hparts' := fun u hu => hparts u (Radix.parts_ext_subset k₀ _ hu)
        have hpos : 0 < k₀.length := List.length_pos_of_ne_nil hne
        have hok' := hok (List.prefix_append k₀ k)
        rw [List.drop_left] at hok'
        rw [Radix.lookup_ext_append] at hnone
        rw [List.length_append] at hfuel
        obtain ⟨fuel, rfl⟩ : ∃ f, fuel = f + 1 := ⟨fuel - 1, by omega⟩
        have hdb' : Holds sha3 S db (heldOf sha3 (.branch cs v) + M) := hdb
        have hbelow := ih hparts' hok' hnone hdb'.of_heldOf fuel (by omega)
        rw [if_pos (List.prefix_append k₀ k), List.drop_left,
          deleteAtAux_absent hinj (hparts' _ (Radix.self_mem_parts _)) hdb' fun _ => hbelow]
        rfl
      · rw [if_neg hp]
  | @branch cs v hv hcs ih =>
      cases k with
      | nil => exact absurd hnone hok
      | cons i k =>
          have hparts' := fun u hu => hparts u (Radix.parts_branch_subset cs v i hu)
          rw [List.length_cons] at hfuel
          obtain ⟨fuel, rfl⟩ : ∃ f, fuel = f + 1 := ⟨fuel - 1, by omega⟩
          rw [refsOf_branch cs v i, add_assoc] at hdb
          have hbelow := ih i hparts' hok.1 hnone hdb.of_heldOf fuel (by omega)
          rw [nodeOf, deleteAt_withLast,
            deleteAtAux_absent hinj (hparts' _ (Radix.self_mem_parts _)) hdb fun _ => hbelow]
          rfl

/-! ## Keys that are present -/

/-- Below a reference to a trie with the key stands the reference to the trie without it. -/
theorem deleteAtAux_present (hinj : Set.InjOn sha3 S.nodes) (hmem : nodeOf sha3 t ∈ S.nodes)
    (hmem' : nodeOf sha3 (t.erase k) ∈ S.nodes) (ht : t ≠ .empty)
    (hdb : Holds sha3 S db (heldOf sha3 t + M)) {m : DeleteAt}
    (hm : ∃ db', m (nodeOf sha3 t) k db = some (some (nodeOf sha3 (t.erase k)), db') ∧
      Holds sha3 S db' (refsOf sha3 (t.erase k) + M)) :
    ∃ db', deleteAtAux sha3 m (ref sha3 (nodeOf sha3 t)) k db =
        some (some (ref sha3 (nodeOf sha3 (t.erase k))), db') ∧
      Holds sha3 S db' (heldOf sha3 (t.erase k) + M) := by
  obtain ⟨db₁, hrun, hdb₁⟩ := hm
  obtain ⟨heq, hdb₂⟩ := hdb₁.streamNode hmem'
  refine ⟨(streamNode sha3 (nodeOf sha3 (t.erase k)) db₁).2, ?_, by rwa [heldOf, add_assoc]⟩
  rw [deleteAtAux_ref hinj (isList_nodeOf sha3 ht) (isEmpty_nodeOf_eq_false ht) hmem
    hdb.own_of_heldOf, hrun, ← heq]
  rfl

/-- A leaf goes away, and nothing else changes. -/
theorem deleteAtAux_leaf (hinj : Set.InjOn sha3 S.nodes)
    (hmem : nodeOf sha3 (.leaf k w) ∈ S.nodes)
    (hdb : Holds sha3 S db (heldOf sha3 (.leaf k w) + M)) :
    deleteAtAux sha3 (deleteAt sha3 (fuel + 1)) (ref sha3 (nodeOf sha3 (.leaf k w))) k db =
      some (some RLPNull, killNode sha3 (nodeOf sha3 (.leaf k w)) db) := by
  rw [deleteAtAux_ref hinj rfl rfl hmem hdb.own_of_heldOf, nodeOf, deleteAt_pair,
    if_pos ⟨rfl, rfl⟩, Option.bind_some, streamIf, streamNode, if_pos (by simp)]

/-- What `deleteAt` makes of a branch with another child. -/
theorem deleteAt_branch_step {db₁ : MemoryDB}
    (hrun : deleteAtAux sha3 (deleteAt sha3 fuel) (ref sha3 (nodeOf sha3 (cs i))) k db =
      some (some (ref sha3 (nodeOf sha3 c)), db₁)) :
    deleteAt sha3 (fuel + 1) (nodeOf sha3 (.branch cs v)) (i :: k) db =
      mergeUnique (nodeOf sha3 (.branch (Function.update cs i c) v))
        (nodeOf sha3 (.branch (Function.update cs i c) v)) 255
        (killNode sha3 (nodeOf sha3 (.branch cs v)) db₁) := by
  rw [nodeOf_update, nodeOf, deleteAt_withLast, hrun, Option.bind_some]
  rfl

/-- A branch loses a key below a child. -/
theorem deleteAt_branch_present (hinj : Set.InjOn sha3 S.nodes)
    (hlegal : Legal (.branch cs v))
    (hparts : ∀ u ∈ (Radix.branch cs v).parts, nodeOf sha3 u ∈ S.nodes)
    (hmem' : nodeOf sha3 ((cs i).erase k) ∈ S.nodes) (hok : Removable db (.branch cs v) (i :: k))
    (hsome : (cs i).lookup k ≠ none) (hdb : Holds sha3 S db (heldOf sha3 (.branch cs v) + M))
    (hbelow : ∀ N, Holds sha3 S db (heldOf sha3 (cs i) + N) →
      ∃ db', deleteAt sha3 (fuel + 1) (nodeOf sha3 (cs i)) k db =
          some (some (nodeOf sha3 ((cs i).erase k)), db') ∧
        Holds sha3 S db' (refsOf sha3 ((cs i).erase k) + N)) :
    ∃ db', deleteAt sha3 (fuel + 2) (nodeOf sha3 (.branch cs v)) (i :: k) db =
        some (some (nodeOf sha3 ((Radix.branch cs v).erase (i :: k))), db') ∧
      Holds sha3 S db' (refsOf sha3 ((Radix.branch cs v).erase (i :: k)) + M) := by
  cases hlegal with
  | branch hv hcs =>
  have hparts' := fun j u hu => hparts u (Radix.parts_branch_subset cs v j hu)
  have hi : cs i ≠ .empty := by
    intro he
    rw [he] at hsome
    exact hsome rfl
  have hmem := hparts' i _ (Radix.self_mem_parts _)
  have hdb₀ := hdb
  rw [heldOf, refsOf_branch cs v i, add_comm (own _ _), add_assoc, add_assoc] at hdb₀
  obtain ⟨db₁, hrun, hdb₁⟩ := deleteAtAux_present hinj hmem hmem' hi hdb₀ (hbelow _ hdb₀)
  set cs' := Function.update cs i ((cs i).erase k) with hcs'
  have hdb₂ : Holds sha3 S (killNode sha3 (nodeOf sha3 (.branch cs v)) db₁)
      (refsOf sha3 (.branch cs' v) + M) := by
    refine Holds.killNode ?_
    rw [hcs', refsOf_update]
    rwa [← add_assoc, ← add_assoc, add_comm _ (own sha3 (nodeOf sha3 (.branch cs v))), add_assoc]
      at hdb₁
  rw [Radix.erase_branch_cons, deleteAt_branch_step hrun, ← hcs']
  cases v with
  | none =>
      have hall : ∀ j, cs' j ≠ .empty → nodeOf sha3 (cs' j) ∈ S.nodes := by
        intro j _
        rcases eq_or_ne j i with rfl | hji
        · rwa [hcs', Function.update_self]
        · rw [hcs', Function.update_of_ne hji]
          exact hparts' j _ (Radix.self_mem_parts _)
      refine turns_mergeUnique_children hinj hall (fun j => ?_) _ M hdb₂
      refine (inUse_nodeOf sha3 cs' (by simp) 255 j).trans ⟨?_, ?_⟩
      · rintro ⟨-, h | ⟨-, h⟩⟩
        · exact h
        · exact absurd rfl h
      · rintro ⟨j, rfl, hj⟩
        exact ⟨by omega, .inl ⟨j, rfl, hj⟩⟩
  | some w =>
      by_cases halone : ∀ j, cs' j = .empty
      · -- only the value is left
        have herase : (cs i).erase k = .empty := by
          have := halone i
          rwa [hcs', Function.update_self] at this
        obtain ⟨w', hleaf⟩ := (hcs i).eq_leaf_of_erase hsome herase
        have hothers : ∀ j, j ≠ i → cs j = .empty := by
          intro j hji
          have := halone j
          rwa [hcs', Function.update_of_ne hji] at this
        have hpair := hok.2 w rfl ⟨w', hleaf⟩ hothers
        have hfound : db₁ = killNode sha3 (nodeOf sha3 (cs i)) db := by
          rw [hleaf] at hmem hdb₀ hrun ⊢
          rw [deleteAtAux_leaf hinj hmem hdb₀] at hrun
          exact (Prod.mk.inj (Option.some.inj hrun)).2.symm
        rw [mergeUnique_of_alone (hv w rfl) halone, graftOver_of_no_pair
          (isTwoItemNode_killNode (hfound ▸ isTwoItemNode_killNode hpair)),
          Radix.squash_of_alone halone]
        refine ⟨_, rfl, ?_⟩
        have hrefs : refsOf sha3 (.branch cs' (some w)) = 0 := by
          rw [refsOf, Finset.sum_eq_zero]
          intro j _
          rw [halone j]
          exact heldOf_empty
        rwa [hrefs] at hdb₂
      · obtain ⟨j, hj⟩ := not_forall.mp halone
        rw [mergeUnique_of_both (hv w rfl) hj, Radix.squash_of_not_alone halone]
        exact ⟨_, rfl, hdb₂⟩

/-- An extension loses a key below it. -/
theorem deleteAt_ext_present (hinj : Set.InjOn sha3 S.nodes) (hc : c ≠ .empty)
    (hmem : nodeOf sha3 c ∈ S.nodes) (hmem' : nodeOf sha3 (c.erase k) ∈ S.nodes)
    (hne : c.erase k ≠ .empty) (hdb : Holds sha3 S db (heldOf sha3 (.ext p c) + M))
    (hbelow : ∀ N, Holds sha3 S db (heldOf sha3 c + N) →
      ∃ db', deleteAt sha3 fuel (nodeOf sha3 c) k db = some (some (nodeOf sha3 (c.erase k)), db') ∧
        Holds sha3 S db' (refsOf sha3 (c.erase k) + N)) :
    ∃ db', deleteAt sha3 (fuel + 1) (nodeOf sha3 (.ext p c)) (p ++ k) db =
        some (some (nodeOf sha3 ((Radix.ext p c).erase (p ++ k))), db') ∧
      Holds sha3 S db' (refsOf sha3 ((Radix.ext p c).erase (p ++ k)) + M) := by
  have hheld : heldOf sha3 (.ext p c) = heldOf sha3 c + own sha3 (nodeOf sha3 (.ext p c)) :=
    add_comm _ _
  rw [hheld, add_assoc] at hdb
  obtain ⟨db₁, hrun, hdb₁⟩ := deleteAtAux_present hinj hmem hmem' hc hdb (hbelow _ hdb)
  rw [add_left_comm] at hdb₁
  obtain ⟨db₂, hrun', hdb₂⟩ := turns_graftOver_join hinj hne hmem' p _ M hdb₁.killNode
  refine ⟨db₂, ?_, by rwa [Radix.erase_ext_append]⟩
  rw [nodeOf] at hrun'
  rw [Radix.erase_ext_append, nodeOf, deleteAt_pair, if_neg fun h => Bool.false_ne_true h.2,
    if_pos (List.prefix_append p k), List.drop_left, hrun, Option.bind_some]
  simp only [hrun', Option.bind_some]

/-- A key that is present is deleted. -/
theorem deleteAt_present (hinj : Set.InjOn sha3 S.nodes) (hlegal : Legal t)
    (hparts : ∀ u ∈ t.parts, nodeOf sha3 u ∈ S.nodes)
    (hremains : ∀ u ∈ t.remains k, nodeOf sha3 u ∈ S.nodes) (hfuel : k.length < fuel)
    (hok : Removable db t k) (hsome : t.lookup k ≠ none)
    (hdb : Holds sha3 S db (heldOf sha3 t + M)) :
    ∃ db', deleteAt sha3 fuel (nodeOf sha3 t) k db = some (some (nodeOf sha3 (t.erase k)), db') ∧
      Holds sha3 S db' (refsOf sha3 (t.erase k) + M) := by
  obtain ⟨fuel, rfl⟩ : ∃ f, fuel = f + 1 := ⟨fuel - 1, by omega⟩
  induction hlegal generalizing k fuel M with
  | empty => exact absurd rfl hsome
  | leaf k₀ w =>
      obtain rfl : k = k₀ := by
        by_contra hne
        exact hsome (if_neg hne)
      have herase : (Radix.leaf k w).erase k = .empty := if_pos rfl
      rw [herase]
      refine ⟨_, ?_, hdb.own_of_heldOf.killNode⟩
      have hnode : nodeOf sha3 (.leaf k w) = pair k true (.data w) := rfl
      rw [hnode, deleteAt_pair, if_pos ⟨rfl, rfl⟩]
      rfl
  | @ext k₀ cs v hne hb ih =>
      by_cases hp : k₀ <+: k
      · obtain ⟨k, rfl⟩ := hp
        have hparts' := fun u hu => hparts u (Radix.parts_ext_subset k₀ _ hu)
        have hremains' := fun u hu => hremains u (Radix.remains_ext_append k₀ k _ hu)
        have hpos : 0 < k₀.length := List.length_pos_of_ne_nil hne
        have hok' := hok (List.prefix_append k₀ k)
        rw [List.drop_left] at hok'
        rw [Radix.lookup_ext_append] at hsome
        rw [List.length_append] at hfuel
        obtain ⟨fuel, rfl⟩ : ∃ f, fuel = f + 1 := ⟨fuel - 1, by omega⟩
        exact deleteAt_ext_present hinj (by simp) (hparts' _ (Radix.self_mem_parts _))
          (hremains' _ (Radix.erase_mem_remains _ k)) (Radix.erase_branch_ne_empty cs v k) hdb
          fun N hN => ih hparts' hremains' hok' hsome hN fuel (by omega)
      · exact absurd (Radix.lookup_ext_apart hp) hsome
  | @branch cs v hv hcs ih =>
      cases k with
      | nil =>
          obtain ⟨w, rfl⟩ := Option.ne_none_iff_exists'.mp hok
          have hfilled : isEmpty (.data w) = false := by
            cases w with
            | nil => exact absurd rfl (hv [] rfl)
            | cons b w => rfl
          have hmem := fun j (_ : cs j ≠ .empty) =>
            hparts _ (Radix.parts_branch_subset cs (some w) j (Radix.self_mem_parts _))
          have huse : ∀ j, InUse (nodeOf sha3 (.branch cs (some w))) 16 j ↔
              ∃ i : Fin 16, j = i ∧ cs i ≠ .empty := by
            intro j
            rw [inUse_nodeOf sha3 cs hv]
            constructor
            · rintro ⟨hne, h | ⟨h, -⟩⟩
              · exact h
              · exact absurd h hne
            · rintro ⟨j, rfl, hj⟩
              exact ⟨by omega, .inl ⟨j, rfl, hj⟩⟩
          obtain ⟨db', hrun, hdb'⟩ := turns_mergeUnique_children hinj hmem huse _ M
            hdb.own_of_heldOf.killNode
          refine ⟨db', ?_, hdb'⟩
          rw [nodeOf, deleteAt_withLast_nil, Option.getD_some, hfilled, if_neg Bool.false_ne_true]
          exact hrun
      | cons i k =>
          have hparts' := fun u hu => hparts u (Radix.parts_branch_subset cs v i hu)
          have hremains' := fun u hu => hremains u (Radix.remains_branch_cons cs v i k hu)
          rw [List.length_cons] at hfuel
          obtain ⟨fuel, rfl⟩ : ∃ f, fuel = f + 1 := ⟨fuel - 1, by omega⟩
          exact deleteAt_branch_present hinj (.branch hv hcs) hparts
            (hremains' _ (Radix.erase_mem_remains _ k)) hok hsome hdb
            fun N hN => ih i hparts' hremains' hok.1 hsome hN fuel (by omega)

/-! ## Where the deletion throws -/

/-- No value of the trie reads as the hash of a string in the database. -/
def Unread (db : MemoryDB) (t : AnyMap) : Prop :=
  ∀ (k : Nibbles) (w : Bytes) (h : H256), t.lookup k = some w → w ≠ [] →
    toHash (.data w) = some h → db.lookup h = .null

theorem deleteAt_null (fuel : ℕ) (k : Nibbles) (db : MemoryDB) :
    deleteAt sha3 fuel .null k db = none := by
  cases fuel with
  | zero => rfl
  | succ fuel => cases k <;> rfl

/-- A value that is read as a reference leads nowhere. -/
theorem deleteAtAux_value (hw : w ≠ [])
    (hread : ∀ h, toHash (.data w) = some h → db.lookup h = .null) :
    deleteAtAux sha3 (deleteAt sha3 fuel) (.data w) k db = none := by
  have hfilled : isEmpty (.data w) = false := by
    cases w with
    | nil => exact absurd rfl hw
    | cons b w => rfl
  rw [deleteAtAux, hfilled]
  simp only [Rlp.isList, Bool.false_eq_true, if_false, Option.bind_eq_bind]
  cases hhash : toHash (.data w) with
  | none => rfl
  | some h =>
      rw [Option.bind_some, hread h hhash, deleteAt_null]
      rfl

theorem isTwoItemNode_value (hread : ∀ h, toHash (.data w) = some h → db.lookup h = .null)
    (h : isTwoItemNode (.data w) db ≠ some false) (db' : MemoryDB) :
    isTwoItemNode (.data w) db' = none := by
  rw [isTwoItemNode, isData, if_pos rfl] at h ⊢
  cases hhash : toHash (.data w) with
  | none => rfl
  | some h' =>
      rw [hhash, Option.map_some, hread h' hhash] at h
      exact absurd rfl h

/-- What `Removable` excludes throws. -/
theorem deleteAt_of_not_removable (hinj : Set.InjOn sha3 S.nodes) (hlegal : Legal t)
    (hparts : ∀ u ∈ t.parts, nodeOf sha3 u ∈ S.nodes) (hfuel : k.length < fuel)
    (hunread : Unread db t) (hdb : Holds sha3 S db (refsOf sha3 t + M))
    (hnot : ¬Removable db t k) : deleteAt sha3 fuel (nodeOf sha3 t) k db = none := by
  obtain ⟨fuel, rfl⟩ : ∃ f, fuel = f + 1 := ⟨fuel - 1, by omega⟩
  induction hlegal generalizing k fuel M with
  | empty => exact absurd trivial hnot
  | leaf k₀ w =>
      rw [Removable, Classical.not_imp, not_or] at hnot
      obtain ⟨hp, hne, hw⟩ := hnot
      rw [nodeOf, deleteAt_pair, if_neg fun h => hne h.1, if_pos hp,
        deleteAtAux_value hw fun h => hunread k₀ w h (if_pos rfl) hw]
      rfl
  | @ext k₀ cs v hne hb ih =>
      rw [Removable, Classical.not_imp] at hnot
      obtain ⟨⟨k, rfl⟩, hnot⟩ := hnot
      rw [List.drop_left] at hnot
      have hparts' := fun u hu => hparts u (Radix.parts_ext_subset k₀ _ hu)
      have hpos : 0 < k₀.length := List.length_pos_of_ne_nil hne
      have hunread' : Unread db (.branch cs v) := fun l w h hl =>
        hunread (k₀ ++ l) w h ((Radix.lookup_ext_append k₀ l _).trans hl)
      rw [List.length_append] at hfuel
      obtain ⟨fuel, rfl⟩ : ∃ f, fuel = f + 1 := ⟨fuel - 1, by omega⟩
      have hdb' : Holds sha3 S db (heldOf sha3 (.branch cs v) + M) := hdb
      rw [nodeOf, deleteAt_pair, if_neg fun h => Bool.false_ne_true h.2,
        if_pos (List.prefix_append k₀ k), List.drop_left,
        deleteAtAux_ref hinj rfl (isEmpty_nodeOf_eq_false (by simp))
          (hparts' _ (Radix.self_mem_parts _)) hdb'.own_of_heldOf,
        ih hparts' hunread' hdb'.of_heldOf hnot fuel (by omega)]
      rfl
  | @branch cs v hv hcs ih =>
      cases k with
      | nil =>
          obtain rfl : v = none := not_not.mp hnot
          rw [nodeOf, deleteAt_withLast_nil]
          rfl
      | cons i k =>
          have hparts' := fun u hu => hparts u (Radix.parts_branch_subset cs v i hu)
          have hmem := hparts' _ (Radix.self_mem_parts _)
          rw [List.length_cons] at hfuel
          obtain ⟨fuel, rfl⟩ : ∃ f, fuel = f + 1 := ⟨fuel - 1, by omega⟩
          rw [refsOf_branch cs v i, add_assoc] at hdb
          by_cases hok : Removable db (cs i) k
          · -- the leaf goes away, and then the value of the branch is read
            rw [Removable, not_and, not_forall] at hnot
            obtain ⟨w, hnot⟩ := hnot hok
            simp only [Classical.not_imp] at hnot
            obtain ⟨rfl, ⟨w', hleaf⟩, hothers, hpair⟩ := hnot
            have hread := isTwoItemNode_value (fun h => hunread [] w h rfl (hv w rfl)) hpair
            have halone : ∀ j, Function.update cs i .empty j = .empty := by
              intro j
              rcases eq_or_ne j i with rfl | hji
              · exact Function.update_self ..
              · rw [Function.update_of_ne hji, hothers j hji]
            rw [hleaf] at hmem hdb
            have hnull : ref sha3 (nodeOf sha3 .empty) = RLPNull := ref_RLPNull
            have hrun : deleteAtAux sha3 (deleteAt sha3 (fuel + 1))
                (ref sha3 (nodeOf sha3 (cs i))) k db = some (some (ref sha3 (nodeOf sha3 .empty)),
                  killNode sha3 (nodeOf sha3 (.leaf k w')) db) := by
              rw [hleaf, hnull]
              exact deleteAtAux_leaf hinj hmem hdb
            rw [deleteAt_branch_step hrun, mergeUnique_of_alone (hv w rfl) halone,
              graftOver, hread]
            rfl
          · have hi : cs i ≠ .empty := by
              intro he
              rw [he] at hok
              exact hok trivial
            have hunread' : Unread db (cs i) := fun l w h hl => hunread (i :: l) w h hl
            rw [nodeOf, deleteAt_withLast, deleteAtAux_ref hinj (isList_nodeOf sha3 hi)
              (isEmpty_nodeOf_eq_false hi) hmem hdb.own_of_heldOf,
              ih i hparts' hunread' hdb.of_heldOf hok fuel (by omega)]
            rfl

end

/-! ## The trie object -/

/-- The trie object stands for the trie `t`: the root is the hash of its node, strings are found
under their hashes, and the references to nodes are counted. -/
structure Stands (sha3 : Rlp → H256) (g : GenericTrieDB) (t : AnyMap) : Prop where
  legal : Legal t
  root : g.m_root = sha3 (nodeOf sha3 t)
  filed : g.m_db.Filed sha3
  counted : ∀ h, ({sha3 (nodeOf sha3 t)} + refsOf sha3 t).count h ≤ g.m_db.count h

/-- The strings that a removal may meet: those in the database, and the nodes of the trie, of
what is left of it, and of what is left of the tries on the way. -/
def met (sha3 : Rlp → H256) (g : GenericTrieDB) (t : AnyMap) (k : Nibbles) : Set Rlp :=
  g.m_db.nodes ∪
    { r | ∃ u, (u ∈ t.parts ∨ u ∈ t.remains k ∨ u ∈ (t.erase k).parts) ∧ nodeOf sha3 u = r }

section

variable (sha3 : Rlp → H256) (g : GenericTrieDB) (t : AnyMap) (k : Nibbles)

theorem nodes_subset_met : g.m_db.nodes ⊆ met sha3 g t k := Set.subset_union_left

variable {t} {u : AnyMap}

theorem mem_met_of_parts (hu : u ∈ t.parts) : nodeOf sha3 u ∈ met sha3 g t k :=
  .inr ⟨u, .inl hu, rfl⟩

theorem mem_met_of_remains (hu : u ∈ t.remains k) : nodeOf sha3 u ∈ met sha3 g t k :=
  .inr ⟨u, .inr (.inl hu), rfl⟩

theorem mem_met_of_erased (hu : u ∈ (t.erase k).parts) : nodeOf sha3 u ∈ met sha3 g t k :=
  .inr ⟨u, .inr (.inr hu), rfl⟩

end

/-- Removing the key touches nothing else: nothing is thrown, the root stays if the key is absent,
and otherwise its value goes and the others stay. -/
def RemovesOnly (sha3 : Rlp → H256) (g : GenericTrieDB) (t : AnyMap) (key : Bytes) : Prop :=
  (t.lookup (asNibbles key) = none →
    ∃ g', g.remove sha3 key = some g' ∧ g'.m_root = g.m_root) ∧
  (t.lookup (asNibbles key) ≠ none →
    ∃ g', g.remove sha3 key = some g' ∧ g'.at? key = some [] ∧
      ∀ other, other ≠ key → g'.at? other = g.at? other)

section

variable {sha3 : Rlp → H256} {S : Ground} {g : GenericTrieDB} {t : AnyMap} {key : Bytes}
  {nodes : Set Rlp}

/-- The references that are not the trie's are those of others. -/
def groundOf (sha3 : Rlp → H256) (g : GenericTrieDB) (t : AnyMap) (nodes : Set Rlp) : Ground :=
  ⟨nodes, fun h => g.m_db.count h - ({sha3 (nodeOf sha3 t)} + refsOf sha3 t).count h⟩

theorem Stands.holds (hg : Stands sha3 g t) (hnodes : g.m_db.nodes ⊆ nodes) :
    Holds sha3 (groundOf sha3 g t nodes) g.m_db ({sha3 (nodeOf sha3 t)} + refsOf sha3 t) where
  sound := fun hget => ⟨hg.filed _ _ _ hget, hnodes ⟨_, _, hget⟩⟩
  count := fun h => (Nat.add_sub_cancel' (hg.counted h)).symm

theorem stands_of_holds (hlegal : Legal t) (hroot : g.m_root = sha3 (nodeOf sha3 t))
    (hdb : Holds sha3 S g.m_db ({sha3 (nodeOf sha3 t)} + refsOf sha3 t)) : Stands sha3 g t where
  legal := hlegal
  root := hroot
  filed := fun _ _ _ hget => (hdb.sound hget).1
  counted := fun h => by
    rw [hdb.count]
    exact Nat.le_add_right _ _

/-- The root as a reference that the trie holds. -/
theorem held_of_holds {r : Rlp} {A : Multiset H256} {db : MemoryDB}
    (hdb : Holds sha3 S db ({sha3 r} + A)) :
    Holds sha3 S db (own sha3 r + A + rootLeft sha3 r) := by
  rwa [add_right_comm, own_add_rootLeft]

theorem lookup_root_of_holds (hinj : Set.InjOn sha3 S.nodes) (hmem : nodeOf sha3 t ∈ S.nodes)
    (hroot : g.m_root = sha3 (nodeOf sha3 t))
    (hdb : Holds sha3 S g.m_db ({sha3 (nodeOf sha3 t)} + refsOf sha3 t)) :
    g.m_db.lookup g.m_root = nodeOf sha3 t := by
  rw [hroot]
  exact hdb.lookup hinj hmem

/-- `at` gives what the trie has. -/
theorem at?_of_holds (hinj : Set.InjOn sha3 S.nodes) (hlegal : Legal t)
    (hparts : ∀ u ∈ t.parts, nodeOf sha3 u ∈ S.nodes) (hroot : g.m_root = sha3 (nodeOf sha3 t))
    (hdb : Holds sha3 S g.m_db ({sha3 (nodeOf sha3 t)} + refsOf sha3 t)) (key : Bytes) :
    g.at? key = some ((t.lookup (asNibbles key)).getD []) := by
  rw [GenericTrieDB.at?,
    lookup_root_of_holds hinj (hparts t (Radix.self_mem_parts t)) hroot hdb]
  rw [add_comm] at hdb
  exact atAux_nodeOf hinj hlegal hparts (Nat.lt_succ_self _) hdb

/-- Removing an absent key leaves the trie object as it is. -/
theorem Stands.remove_absent (hg : Stands sha3 g t)
    (hinj : Set.InjOn sha3 (met sha3 g t (asNibbles key)))
    (hok : Removable g.m_db t (asNibbles key)) (hnone : t.lookup (asNibbles key) = none) :
    g.remove sha3 key = some g := by
  have hdb := hg.holds (nodes_subset_met sha3 g t (asNibbles key))
  have hparts := fun u => mem_met_of_parts sha3 g (asNibbles key) (t := t) (u := u)
  have hrefs := hdb
  rw [add_comm] at hrefs
  rw [GenericTrieDB.remove,
    lookup_root_of_holds hinj (hparts t (Radix.self_mem_parts t)) hg.root hdb]
  simp only [deleteAt_absent hinj hg.legal hparts (Nat.lt_succ_self _) hok hnone hrefs,
    Option.map_some]

/-- Removing a present key leaves the rest. -/
theorem Stands.remove_present (hg : Stands sha3 g t)
    (hinj : Set.InjOn sha3 (met sha3 g t (asNibbles key)))
    (hok : Removable g.m_db t (asNibbles key)) (hsome : t.lookup (asNibbles key) ≠ none) :
    ∃ g', g.remove sha3 key = some g' ∧ Stands sha3 g' (t.erase (asNibbles key)) ∧
      ∀ other, g'.at? other =
        some (((t.erase (asNibbles key)).lookup (asNibbles other)).getD []) := by
  set k := asNibbles key with hk
  have hdb := hg.holds (nodes_subset_met sha3 g t k)
  have hparts := fun u => mem_met_of_parts sha3 g k (t := t) (u := u)
  have hremains := fun u => mem_met_of_remains sha3 g k (t := t) (u := u)
  have hparts' := fun u => mem_met_of_erased sha3 g k (t := t) (u := u)
  obtain ⟨db', hrun, hdb'⟩ := deleteAt_present hinj hg.legal hparts hremains (Nat.lt_succ_self _)
    hok hsome (held_of_holds hdb)
  have hlegal := hg.legal.erase k
  have hnew := hdb'.replaceRoot hg.root (hparts' _ (Radix.self_mem_parts _))
  refine ⟨g.replaceRoot sha3 (nodeOf sha3 t) (nodeOf sha3 (t.erase k)) db', ?_,
    stands_of_holds hlegal rfl hnew, at?_of_holds hinj hlegal hparts' rfl hnew⟩
  rw [GenericTrieDB.remove,
    lookup_root_of_holds hinj (hparts t (Radix.self_mem_parts t)) hg.root hdb]
  simp only [← hk, hrun, Option.map_some]

/-- `at` gives what the trie has, before the removal. -/
theorem Stands.at?_eq (hg : Stands sha3 g t) {k : Nibbles} (hinj : Set.InjOn sha3 (met sha3 g t k))
    (other : Bytes) : g.at? other = some ((t.lookup (asNibbles other)).getD []) :=
  at?_of_holds hinj hg.legal (fun _ => mem_met_of_parts sha3 g k) hg.root
    (hg.holds (nodes_subset_met sha3 g t k)) other

/-- What `Removable` excludes throws. -/
theorem Stands.remove_throws (hg : Stands sha3 g t)
    (hinj : Set.InjOn sha3 (met sha3 g t (asNibbles key))) (hunread : Unread g.m_db t)
    (hnot : ¬Removable g.m_db t (asNibbles key)) : g.remove sha3 key = none := by
  have hdb := hg.holds (nodes_subset_met sha3 g t (asNibbles key))
  have hparts := fun u => mem_met_of_parts sha3 g (asNibbles key) (t := t) (u := u)
  have hrefs := hdb
  rw [add_comm] at hrefs
  rw [GenericTrieDB.remove,
    lookup_root_of_holds hinj (hparts t (Radix.self_mem_parts t)) hg.root hdb]
  simp only [deleteAt_of_not_removable hinj hg.legal hparts (Nat.lt_succ_self _) hunread hrefs hnot,
    Option.map_none]

/-- **Removing a key touches nothing else just if nothing is read as a reference.**  For every
trie object with keys of any length the removal does what it should if `Removable` holds, and
where no value of the trie is the hash of a string in the database it does so only then. -/
theorem removesOnly_iff_removable (hg : Stands sha3 g t)
    (hinj : Set.InjOn sha3 (met sha3 g t (asNibbles key))) :
    (Removable g.m_db t (asNibbles key) → RemovesOnly sha3 g t key) ∧
      (Unread g.m_db t →
        (RemovesOnly sha3 g t key ↔ Removable g.m_db t (asNibbles key))) := by
  have hright : Removable g.m_db t (asNibbles key) → RemovesOnly sha3 g t key := by
    intro hok
    refine ⟨fun hnone => ⟨g, hg.remove_absent hinj hok hnone, rfl⟩, fun hsome => ?_⟩
    obtain ⟨g', hrun, -, hat⟩ := hg.remove_present hinj hok hsome
    refine ⟨g', hrun, ?_, fun other hne => ?_⟩
    · rw [hat, Radix.lookup_erase, if_pos rfl]
      rfl
    · rw [hat, hg.at?_eq hinj, Radix.lookup_erase, if_neg fun h => hne (asNibbles_injective h)]
  refine ⟨hright, fun hunread => ⟨fun h => ?_, hright⟩⟩
  by_contra hnot
  have hthrows := hg.remove_throws hinj hunread hnot
  by_cases hnone : t.lookup (asNibbles key) = none
  · obtain ⟨g', hrun, -⟩ := h.1 hnone
    rw [hthrows] at hrun
    cases hrun
  · obtain ⟨g', hrun, -⟩ := h.2 hnone
    rw [hthrows] at hrun
    cases hrun

end

/-! ## Keys that are prefixes of each other -/

/-- What is behind `ab`. -/
def leafAB : AnyMap := .leaf [nibbleOf 2] (List.replicate 33 3)

/-- What is behind `a`, with a value of its own. -/
def branchA : AnyMap := .lone (nibbleOf 6) leafAB (some [2])

/-- What is behind the first nibble. -/
def extA : AnyMap := .ext [nibbleOf 1] branchA

/-- The trie with values under the empty key, `a` and `ab`. -/
def prefixKeys : AnyMap := .lone (nibbleOf 6) extA (some [1])

/-- What the branch of `a` gives way to without its value. -/
def leafA : AnyMap := .leaf [nibbleOf 6, nibbleOf 2] (List.replicate 33 3)

/-- That leaf behind the first nibble. -/
def leafOnly : AnyMap := .leaf [nibbleOf 1, nibbleOf 6, nibbleOf 2] (List.replicate 33 3)

/-- What is left of the trie without `a`: `ab` is in a single leaf. -/
def withoutA : AnyMap := .lone (nibbleOf 6) leafOnly (some [1])

/-- The insertions that make it. -/
def threeInserts : Option GenericTrieDB :=
  (GenericTrieDB.init smallHash ({} : MemoryDB)).bind (runOps smallHash
    [.insert [] [1], .insert [0x61] [2], .insert [0x61, 0x62] (List.replicate 33 3)])

/-- The references of the trie, with that to its root. -/
def prefixRefs : List H256 :=
  [prefixKeys, extA, branchA, leafAB].map fun t => smallHash (nodeOf smallHash t)

/-- The strings that the removal of `a` may meet. -/
def prefixMet (g : GenericTrieDB) : List Rlp :=
  g.m_db.m_main.toList.map (·.2.1) ++
    [prefixKeys, extA, branchA, leafAB, .empty, leafA, leafOnly, withoutA].map (nodeOf smallHash)

theorem refs_prefixKeys :
    {smallHash (nodeOf smallHash prefixKeys)} + refsOf smallHash prefixKeys =
      (prefixRefs : Multiset H256) := by
  have hsize : [extA, branchA, leafAB].all fun t => ¬size (nodeOf smallHash t) < 32 := by
    decide +kernel
  have hown : ∀ t ∈ [extA, branchA, leafAB],
      own smallHash (nodeOf smallHash t) = {smallHash (nodeOf smallHash t)} :=
    fun t ht => if_neg (of_decide_eq_true (List.all_eq_true.mp hsize t ht))
  have hleaf : heldOf smallHash leafAB = {smallHash (nodeOf smallHash leafAB)} := by
    rw [heldOf, hown leafAB (by simp)]
    exact add_zero _
  have hext : refsOf smallHash extA =
      {smallHash (nodeOf smallHash branchA)} + {smallHash (nodeOf smallHash leafAB)} := by
    rw [extA, refsOf, hown branchA (by simp), ← hleaf, branchA, refsOf_lone]
  have hroot : refsOf smallHash prefixKeys = heldOf smallHash extA := refsOf_lone 6 extA _
  rw [hroot, heldOf, hown extA (by simp), hext]
  simp only [prefixRefs, List.map_cons, List.map_nil, ← Multiset.cons_coe, Multiset.coe_nil,
    Multiset.singleton_add, Multiset.cons_zero]

/-- The branch without its value gives way to the leaf. -/
theorem erase_branchA : branchA.erase [] = leafA :=
  Radix.erase_lone_nil (by simp [leafAB])

theorem erase_extA : extA.erase [nibbleOf 1] = leafOnly := by
  have hext : extA.erase ([nibbleOf 1] ++ []) = (branchA.erase []).join [nibbleOf 1] :=
    Radix.erase_ext_append []
  rw [List.append_nil, erase_branchA] at hext
  exact hext

theorem erase_prefixKeys : prefixKeys.erase [nibbleOf 6, nibbleOf 1] = withoutA := by
  rw [prefixKeys, Radix.erase_lone_cons (by simp [erase_extA, leafOnly]), erase_extA]
  rfl

theorem met_subset_prefixMet (g : GenericTrieDB) :
    met smallHash g prefixKeys (asNibbles [0x61]) ⊆ { r | r ∈ prefixMet g } := by
  show met smallHash g prefixKeys [nibbleOf 6, nibbleOf 1] ⊆ _
  rintro r (⟨h, c, hget⟩ | ⟨u, hu, rfl⟩)
  · refine List.mem_append_left _ (List.mem_map.mpr ⟨(h, r, c), ?_, rfl⟩)
    exact ExtTreeMap.mem_toList_iff_getElem?_eq_some.mpr hget
  · refine List.mem_append_right _ (List.mem_map_of_mem ?_)
    rcases hu with hu | hu | hu
    · rcases Radix.mem_parts_lone hu with rfl | rfl | rfl | hu
      · simp [prefixKeys]
      · simp
      · simp [extA]
      rcases Radix.mem_parts_lone hu with rfl | rfl | rfl
      · simp [branchA]
      · simp
      · simp [leafAB]
    · rcases hu with heq | heq | heq | hu
      · rw [heq.trans erase_prefixKeys]
        simp
      · rw [heq.trans erase_extA]
        simp
      · rw [heq.trans erase_branchA]
        simp
      · cases hu
    · rw [erase_prefixKeys] at hu
      rcases Radix.mem_parts_lone hu with rfl | rfl | rfl
      · simp [withoutA]
      · simp
      · simp [leafOnly]

theorem values_prefixKeys {k : Nibbles} {w : Bytes} (h : prefixKeys.lookup k = some w) :
    w = [1] ∨ w = [2] ∨ w = List.replicate 33 3 := by
  rcases Radix.exists_of_lookup_lone h with heq | ⟨l, hext⟩
  · exact .inl (Option.some.inj heq).symm
  rw [extA, Radix.lookup] at hext
  split at hext
  · rcases Radix.exists_of_lookup_lone hext with heq | ⟨l, hleaf⟩
    · exact .inr (.inl (Option.some.inj heq).symm)
    · rw [leafAB, Radix.lookup_leaf] at hleaf
      split at hleaf
      · exact .inr (.inr (Option.some.inj hleaf).symm)
      · cases hleaf
  · cases hext

theorem stands_prefixKeys : ∃ g, threeInserts = some g ∧ Stands smallHash g prefixKeys ∧
    Set.InjOn smallHash (met smallHash g prefixKeys (asNibbles [0x61])) ∧
    Unread g.m_db prefixKeys := by
  obtain ⟨g, hrun⟩ : ∃ g, threeInserts = some g :=
    Option.isSome_iff_exists.mp (by decide +kernel)
  have hroot : threeInserts.all fun g => g.m_root = smallHash (nodeOf smallHash prefixKeys) := by
    decide +kernel
  have hfiled : threeInserts.all fun g => g.m_db.m_main.toList.all fun e =>
      smallHash e.2.1 = e.1 := by decide +kernel
  have hcounted : threeInserts.all fun g => prefixRefs.all fun h => g.m_db.count h = 1 := by
    decide +kernel
  have hinj : threeInserts.all fun g => (prefixMet g).all fun r => (prefixMet g).all fun r' =>
      smallHash r ≠ smallHash r' ∨ r = r' := by decide +kernel
  have hunread : threeInserts.all fun g => g.m_db.lookup 1 = .null ∧ g.m_db.lookup 2 = .null := by
    decide +kernel
  rw [hrun] at hroot hfiled hcounted hinj hunread
  simp only [Option.all_some, List.all_eq_true, decide_eq_true_eq] at hroot hfiled hcounted
  simp only [Option.all_some, List.all_eq_true, decide_eq_true_eq] at hinj hunread
  refine ⟨g, hrun, ⟨?_, hroot, ?_, ?_⟩, ?_, ?_⟩
  · have hleaf : Legal leafAB := .leaf _ _
    have hext : Legal extA := .ext (List.cons_ne_nil _ _) (hleaf.lone (by simp))
    exact hext.lone (by simp)
  · intro h v c hget
    exact hfiled (h, v, c) (ExtTreeMap.mem_toList_iff_getElem?_eq_some.mpr hget)
  · intro h
    rw [refs_prefixKeys, Multiset.coe_count]
    by_cases hmem : h ∈ prefixRefs
    · have hnodup : prefixRefs.Nodup := by decide +kernel
      rw [hcounted h hmem, List.count_eq_one_of_mem hnodup hmem]
    · rw [List.count_eq_zero_of_not_mem hmem]
      exact Nat.zero_le _
  · intro r hr r' hr' heq
    have hr := met_subset_prefixMet g hr
    have hr' := met_subset_prefixMet g hr'
    exact (hinj r hr r' hr').resolve_left (not_not_intro heq)
  · intro k w h hk _ hhash
    rcases values_prefixKeys hk with rfl | rfl | rfl
    · obtain rfl : 1 = h := Option.some.inj hhash
      exact hunread.1
    · obtain rfl : 2 = h := Option.some.inj hhash
      exact hunread.2
    · cases hhash

theorem removesOnly_iff_removable_prefixKeys : ∃ g, threeInserts = some g ∧
    RemovesOnly smallHash g prefixKeys [0x61] ∧
      (RemovesOnly smallHash g prefixKeys [0x61] ↔
        Removable g.m_db prefixKeys (asNibbles [0x61])) := by
  obtain ⟨g, hrun, hg, hinj, hunread⟩ := stands_prefixKeys
  have hremovable : Removable g.m_db prefixKeys [6, 1] := by
    have hext : Removable g.m_db extA [1] := fun _ => by simp [branchA, Radix.lone, Removable]
    exact ⟨hext, fun w _ hleaf => by obtain ⟨w', hleaf⟩ := hleaf; cases hleaf⟩
  have hiff := removesOnly_iff_removable hg hinj
  exact ⟨g, hrun, hiff.1 hremovable, hiff.2 hunread⟩

/-! ## Keys of one length -/

/-- A trie with keys of one length among those with keys of any length. -/
def ofMap : Map → AnyMap
  | .empty => .empty
  | .leaf k v => .leaf k v
  | .ext k c => .ext k (ofMap c)
  | .branch cs => .branch (fun i => ofMap (cs i)) none

section

variable {sha3 : Rlp → H256} {S : Ground} {g : GenericTrieDB} {m : BytesMap} {t : Map}
  {k : Nibbles} {n : ℕ} {db : MemoryDB}

variable (sha3) in
@[simp] theorem nodeOf_ofMap (t : Map) : nodeOf sha3 (ofMap t) = node sha3 t := by
  induction t with
  | empty => rfl
  | leaf k v => rfl
  | ext k c ih => rw [ofMap, nodeOf, node, ih]
  | branch cs ih =>
      rw [ofMap, nodeOf, node, seventeen_eq]
      simp only [ih]
      rfl

variable (sha3) in
@[simp] theorem refsOf_ofMap (t : Map) : refsOf sha3 (ofMap t) = refs sha3 t := by
  induction t with
  | empty => rfl
  | leaf k v => rfl
  | ext k c ih => rw [ofMap, refsOf, refs, ih, nodeOf_ofMap]
  | branch cs ih =>
      rw [ofMap, refsOf, refs]
      simp only [ih, nodeOf_ofMap]

theorem legal_ofMap (hslot : Patricia.Slot n t) : Legal (ofMap t) := by
  induction t generalizing n with
  | empty => exact .empty
  | leaf k v => exact .leaf k v
  | ext k c ih =>
      obtain ⟨cs, m, rfl, hne, -, hb⟩ := hslot.of_ext
      exact .ext hne (ih fun _ => hb)
  | branch cs ih =>
      obtain ⟨m, rfl, -, hcs⟩ := hslot.of_branch
      exact .branch (by simp) fun i => ih i (hcs i)

/-- The runs with keys of one length reach such trie objects. -/
theorem Represents.stands (hg : Represents sha3 S n g m t) : Stands sha3 g (ofMap t) := by
  have hroot := hg.root
  have hholds := hg.holds
  rw [← nodeOf_ofMap] at hroot hholds
  rw [← refsOf_ofMap] at hholds
  exact stands_of_holds (legal_ofMap hg.slot) hroot hholds

end

/-! ## A single leaf -/

/-- A leaf with one byte behind the key of one byte. -/
def oneLeaf : AnyMap := .leaf (asNibbles [0x61]) [1]

/-- The insertion that makes it. -/
def intoEmpty : Option GenericTrieDB :=
  (GenericTrieDB.init smallHash ({} : MemoryDB)).bind fun g => g.insert smallHash [0x61] [1]

theorem stands_oneLeaf : ∃ g, intoEmpty = some g ∧ Stands smallHash g oneLeaf := by
  set ops : List Op := [.insert [0x61] [1]]
  have hinj : Set.InjOn smallHash (({} : MemoryDB).nodes ∪ involved smallHash ops) :=
    injOn_involved (by decide +kernel)
  obtain ⟨g₀, hinit, hg₀⟩ := represents_init ops filed_empty hinj 1
  have hcovered : Covered smallHash (ground smallHash ({} : MemoryDB) ops)
      ((Op.insert [0x61] [1]).write ∅) := fun p r hr => .inr ⟨ops, p, List.prefix_rfl, hr⟩
  have hw := hcovered.within (hg₀.keyLength.write (o := .insert [0x61] [1]) rfl)
    (hg₀.agrees.insert hg₀.slot rfl)
  obtain ⟨g, hrun, hg⟩ := hg₀.insert hinj rfl hw
  exact ⟨g, by rw [intoEmpty, hinit, Option.bind_some, hrun], hg.stands⟩

/-- The key goes on behind the leaf, whose value is read as a reference. -/
theorem remove_behind_leaf_throws : ∃ g, intoEmpty = some g ∧ Stands smallHash g oneLeaf ∧
    oneLeaf.lookup (asNibbles [0x61, 0x62]) = none ∧ g.remove smallHash [0x61, 0x62] = none ∧
    ¬RemovesOnly smallHash g oneLeaf [0x61, 0x62] := by
  obtain ⟨g, hrun, hg⟩ := stands_oneLeaf
  have habsent : oneLeaf.lookup (asNibbles [0x61, 0x62]) = none := by decide
  have hthrows : g.remove smallHash [0x61, 0x62] = none := by
    have hall : intoEmpty.map (fun g => (g.remove smallHash [0x61, 0x62]).isNone) = some true := by
      decide +kernel
    rw [hrun, Option.map_some, Option.some.injEq, Option.isNone_iff_eq_none] at hall
    exact hall
  refine ⟨g, hrun, hg, habsent, hthrows, fun h => ?_⟩
  obtain ⟨g', hremoved, -⟩ := h.1 habsent
  rw [hthrows] at hremoved
  cases hremoved

end CppSwc.Trie
