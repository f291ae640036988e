import CppSwc.Trie.Node

/-!
# Insertion writes the new trie

`mergeAt` gives the node of the trie with the value, and the references that the old trie took
are turned into those of the new one.  A leaf or an extension whose key parts from the new key
is split by `cleve` and `branch`, and then the value is put into an empty place of the branch.
-/

namespace CppSwc.Trie

open Lib

section

variable {sha3 : Rlp → H256} {S : Ground} {t t' c c' : Map} {cs : Fin 16 → Map}
  {k p r s : Nibbles} {a b i : Fin 16} {v w : Bytes} {n fuel : ℕ} {inLine : Bool}
  {M : Multiset H256} {db : MemoryDB}

/-! ## Placing a value -/

theorem turns_place_empty :
    Turns sha3 S (place sha3 RLPNull k v) 0 (node sha3 (.leaf k v)) 0 := by
  intro db M hdb
  have hkill : killNode sha3 RLPNull db = db := by simp [killNode, killNodeAt]
  exact ⟨db, by rw [place, hkill]; rfl, hdb⟩

theorem turns_place_leaf : Turns sha3 S (place sha3 (node sha3 (.leaf k w)) k v)
    (held sha3 (.leaf k w)) (node sha3 (.leaf k v)) 0 :=
  Turns.congr (fun _ => rfl) (turns_killNode (node sha3 (.leaf k w)) (node sha3 (.leaf k v)))

/-! ## Going down -/

/-- Merging below a node: the node below is read from the database if it is not inlined, and
the new one is streamed. -/
theorem turns_mergeAtAux (hinj : Set.InjOn sha3 S.nodes) {m : MergeAt}
    (hmem : t ≠ .empty → node sha3 t ∈ S.nodes) (hmem' : node sha3 t' ∈ S.nodes)
    (hm : ∀ inLine, (inLine = true → size (node sha3 t) < 32) →
      Turns sha3 S (m (node sha3 t) (sha3 (node sha3 t)) k v inLine) (held sha3 t)
        (node sha3 t') (refs sha3 t')) :
    Turns sha3 S (mergeAtAux sha3 m (ref sha3 (node sha3 t)) k v) (held sha3 t)
      (ref sha3 (node sha3 t')) (held sha3 t') := by
  have hstream : ∀ inLine, (inLine = true → size (node sha3 t) < 32) → Turns sha3 S
      (fun db => (m (node sha3 t) (sha3 (node sha3 t)) k v inLine db).bind
        fun p => some (streamNode sha3 p.1 p.2)) (held sha3 t)
      (ref sha3 (node sha3 t')) (held sha3 t') :=
    fun inLine hin => (hm inLine hin).bind (g := fun b db => some (streamNode sha3 b db))
      (turns_streamNode hmem')
  rcases ref_cases sha3 t with ⟨rfl, heq⟩ | ⟨ht, hsize, heq, -⟩ | ⟨ht, hsize, heq, hown⟩
  · refine Turns.congr (fun db => ?_) (hstream true fun _ => by simp [node])
    rw [heq]
    rfl
  · refine Turns.congr (fun db => ?_) (hstream true fun _ => hsize)
    rw [heq, mergeAtAux, isList_node sha3 ht]
    rfl
  · intro db M hdb
    have hlookup : db.lookup (sha3 (node sha3 t)) = node sha3 t := by
      rw [held, hown, add_assoc] at hdb
      exact hdb.lookup hinj (hmem ht)
    obtain ⟨db', hrun, hdb'⟩ := hstream false (by simp) db M hdb
    refine ⟨db', ?_, hdb'⟩
    rw [← hrun, heq, mergeAtAux, isEmpty_ofHash, toHash_ofHash]
    simp only [Rlp.ofHash, Rlp.isList, Option.map_some]
    rw [← hlookup]
    simp [hlookup]

/-- What a caller of `mergeAt` hands over: the node itself only if it is to be killed. -/
def taken (sha3 : Rlp → H256) (inLine : Bool) (t : Map) : Multiset H256 :=
  if inLine then refs sha3 t else held sha3 t

theorem held_eq_taken (h : inLine = true → size (node sha3 t) < 32) :
    held sha3 t = taken sha3 inLine t := by
  cases inLine with
  | false => rfl
  | true => rw [taken, if_pos rfl, held, own, if_pos (h rfl), zero_add]

theorem Holds.killTaken (hdb : Holds sha3 S db (taken sha3 inLine t + M)) :
    Holds sha3 S (if inLine then db else killNodeAt (node sha3 t) (sha3 (node sha3 t)) db)
      (refs sha3 t + M) := by
  cases inLine with
  | true => exact hdb
  | false =>
      rw [taken, if_neg Bool.false_ne_true, held, add_assoc] at hdb
      exact hdb.killNode

/-- What `mergeAt` does at a pair. -/
theorem mergeAt_pair (key k : Nibbles) (leaf : Bool) (r : Rlp) (h : H256) (db : MemoryDB) :
    mergeAt sha3 (fuel + 1) (pair key leaf r) h k v inLine db =
      if key = k ∧ leaf then place sha3 (pair key leaf r) k v db
      else if key <+: k ∧ leaf = false then
        (mergeAtAux sha3 (mergeAt sha3 fuel) r (k.drop key.length) v
          (if inLine then db else killNodeAt (pair key leaf r) h db)).bind
            fun p => some (pair key leaf p.1, p.2)
      else if shared k key ≠ 0 then
        let p := cleve sha3 (pair key leaf r) (shared k key) db
        mergeAt sha3 fuel p.1 (sha3 p.1) k v true p.2
      else
        let p := branch sha3 (pair key leaf r) db
        mergeAt sha3 fuel p.1 (sha3 p.1) k v true p.2 := by
  cases k <;> simp only [mergeAt, isEmpty_pair, itemCount_pair, keyOfNode_pair, isLeaf_pair,
    entry_pair_one, entry_pair_zero, Bool.false_eq_true, if_false, if_true, Bool.not_eq_true] <;> rfl

/-- What `mergeAt` does at a branch. -/
theorem mergeAt_seventeen (f : Fin 16 → Rlp) (i : Fin 16) (h : H256) (db : MemoryDB) :
    mergeAt sha3 (fuel + 1) (.list (seventeen f)) h (i :: k) v inLine db =
      (mergeAtAux sha3 (mergeAt sha3 fuel) (f i) k v
        (if inLine then db else killNodeAt (.list (seventeen f)) h db)).bind
          fun p => some (.list ((seventeen f).set i p.1), p.2) := by
  simp only [mergeAt, isEmpty_seventeen, itemCount_seventeen, entry_seventeen, Bool.false_eq_true,
    if_false, Nat.reduceEqDiff, if_true]
  rfl

/-- An extension whose key is a prefix is kept, with the new node below it. -/
theorem turns_mergeAt_ext (p : Nibbles) (inLine : Bool)
    (haux : Turns sha3 S (mergeAtAux sha3 (mergeAt sha3 fuel) (ref sha3 (node sha3 c)) k v)
      (held sha3 c) (ref sha3 (node sha3 c')) (held sha3 c')) :
    Turns sha3 S
      (mergeAt sha3 (fuel + 1) (node sha3 (.ext p c)) (sha3 (node sha3 (.ext p c))) (p ++ k) v inLine)
      (taken sha3 inLine (.ext p c)) (node sha3 (.ext p c')) (refs sha3 (.ext p c')) := by
  intro db M hdb
  obtain ⟨db', hrun, hdb'⟩ := haux _ M hdb.killTaken
  refine ⟨db', ?_, hdb'⟩
  rw [node] at hrun
  rw [node, mergeAt_pair, if_neg (fun h => Bool.false_ne_true h.2),
    if_pos ⟨List.prefix_append p k, rfl⟩, List.drop_left, hrun]
  rfl

/-- The references in a branch, apart from those of one child. -/
def others (sha3 : Rlp → H256) (cs : Fin 16 → Map) (i : Fin 16) : Multiset H256 :=
  ∑ j ∈ Finset.univ.erase i, held sha3 (cs j)

theorem refs_branch (cs : Fin 16 → Map) (i : Fin 16) :
    refs sha3 (.branch cs) = held sha3 (cs i) + others sha3 cs i :=
  (Finset.add_sum_erase Finset.univ (fun j => held sha3 (cs j)) (Finset.mem_univ i)).symm

theorem refs_update (cs : Fin 16 → Map) (i : Fin 16) (c : Map) :
    refs sha3 (.branch (Function.update cs i c)) = held sha3 c + others sha3 cs i := by
  rw [refs_branch _ i, Function.update_self]
  congr 1
  refine Finset.sum_congr rfl fun j hj => ?_
  rw [Function.update_of_ne (Finset.ne_of_mem_erase hj)]

theorem node_update (cs : Fin 16 → Map) (i : Fin 16) (c : Map) :
    node sha3 (.branch (Function.update cs i c)) =
      .list ((seventeen fun j => ref sha3 (node sha3 (cs j))).set i (ref sha3 (node sha3 c))) := by
  rw [seventeen_set, node]
  congr 2
  funext j
  rcases eq_or_ne j i with rfl | hji
  · rw [Function.update_self, Function.update_self]
  · rw [Function.update_of_ne hji, Function.update_of_ne hji]

/-- A branch gets a new child. -/
theorem turns_mergeAt_branch (inLine : Bool)
    (haux : Turns sha3 S (mergeAtAux sha3 (mergeAt sha3 fuel) (ref sha3 (node sha3 (cs i))) k v)
      (held sha3 (cs i)) (ref sha3 (node sha3 c')) (held sha3 c')) :
    Turns sha3 S
      (mergeAt sha3 (fuel + 1) (node sha3 (.branch cs)) (sha3 (node sha3 (.branch cs))) (i :: k) v
        inLine)
      (taken sha3 inLine (.branch cs)) (node sha3 (.branch (Function.update cs i c')))
      (refs sha3 (.branch (Function.update cs i c'))) := by
  intro db M hdb
  have hdb₁ := hdb.killTaken
  rw [refs_branch cs i, add_assoc] at hdb₁
  obtain ⟨db', hrun, hdb'⟩ := haux _ _ hdb₁
  refine ⟨db', ?_, by rwa [refs_update, add_assoc]⟩
  rw [node] at hrun
  rw [node_update, node, mergeAt_seventeen, hrun]
  rfl

/-! ## Splitting a key -/

variable {X Y : Nibbles → Map} {leaf : Bool} {e : Rlp} {R : Multiset H256} {h : H256}

variable (sha3) in
/-- Leaves, or extensions over one child, with different keys: `X` with the key, and `Y` with
what is left of it. -/
structure Stem (X Y : Nibbles → Map) (leaf : Bool) (e : Rlp) (R : Multiset H256) : Prop where
  node_eq : ∀ k, node sha3 (X k) = pair k leaf e
  refs_eq : ∀ k, refs sha3 (X k) = R
  rest_eq : ∀ k, leaf = true ∨ k ≠ [] → Y k = X k
  rest_nil : leaf = false → ref sha3 (node sha3 (Y [])) = e ∧ held sha3 (Y []) = R

theorem stem_leaf (w : Bytes) :
    Stem sha3 (.leaf · w) (.leaf · w) true (.data w) 0 where
  node_eq _ := rfl
  refs_eq _ := rfl
  rest_eq _ _ := rfl
  rest_nil h := absurd h.symm Bool.false_ne_true

theorem stem_ext (c : Map) : Stem sha3 (.ext · c) (Patricia.prepend · c) false
    (ref sha3 (node sha3 c)) (held sha3 c) where
  node_eq _ := rfl
  refs_eq _ := rfl
  rest_eq _ hr := Patricia.prepend_of_ne (hr.resolve_left Bool.false_ne_true) c
  rest_nil _ := ⟨rfl, rfl⟩

/-- `branch` puts what is behind the first digit of the key below a branch. -/
theorem turns_branch (hstem : Stem sha3 X Y leaf e R) (hmem : node sha3 (Y r) ∈ S.nodes) :
    Turns sha3 S (fun db => some (branch sha3 (pair (a :: r) leaf e) db)) (held sha3 (X (a :: r)))
      (node sha3 (.branch (Function.update (fun _ => .empty) a (Y r)))) (held sha3 (Y r)) := by
  have honly : node sha3 (.branch (Function.update (fun _ => .empty) a (Y r))) =
      only a (ref sha3 (node sha3 (Y r))) := by
    rw [node_update, only_eq, ← seventeen_set]
    simp only [node, ref_RLPNull]
    rfl
  rw [honly, held, hstem.node_eq, hstem.refs_eq]
  intro db M hdb
  rw [add_assoc] at hdb
  have hdb₁ := hdb.killNode
  by_cases hrest : leaf = true ∨ r ≠ []
  · have hY := hstem.rest_eq r hrest
    obtain ⟨heq, hdb₂⟩ := hdb₁.streamNode hmem
    refine ⟨_, ?_, by rwa [held, hY, hstem.refs_eq, add_assoc, ← hY]⟩
    rw [← heq, hY, hstem.node_eq]
    simp only [branch, keyOfNode_pair, isLeaf_pair, entry_pair_one]
    rw [if_pos hrest]
  · obtain ⟨hleaf, hr⟩ := not_or.mp hrest
    rw [not_not] at hr
    obtain ⟨heq, hheld⟩ := hstem.rest_nil (Bool.eq_false_iff.mpr hleaf)
    subst hr
    refine ⟨_, ?_, by rwa [hheld]⟩
    rw [heq]
    simp only [branch, keyOfNode_pair, isLeaf_pair, entry_pair_one]
    rw [if_neg hrest]

/-- `cleve` puts what is behind the shared digits below an extension. -/
theorem turns_cleve (hstem : Stem sha3 X Y leaf e R) (hmem : node sha3 (X k) ∈ S.nodes) :
    Turns sha3 S (fun db => some (cleve sha3 (pair (p ++ k) leaf e) p.length db))
      (held sha3 (X (p ++ k))) (node sha3 (.ext p (X k))) (refs sha3 (.ext p (X k))) := by
  rw [held, hstem.node_eq, hstem.refs_eq, node, refs]
  intro db M hdb
  rw [add_assoc] at hdb
  obtain ⟨heq, hdb₁⟩ := hdb.killNode.streamNode hmem
  refine ⟨_, ?_, by rwa [add_assoc, hstem.refs_eq]⟩
  rw [← heq, hstem.node_eq]
  simp only [cleve, keyOfNode_pair, isLeaf_pair, entry_pair_one, List.drop_left, List.take_left]

/-- Keys that part at once: the node becomes a branch and the value goes beside it. -/
theorem turns_mergeAt_apart (fuel : ℕ) (hinj : Set.InjOn sha3 S.nodes) (hstem : Stem sha3 X Y leaf e R)
    (hab : a ≠ b) (hmem : node sha3 (Y r) ∈ S.nodes) (hmem' : node sha3 (.leaf s v) ∈ S.nodes) :
    Turns sha3 S (mergeAt sha3 (fuel + 3) (node sha3 (X (a :: r))) h (b :: s) v inLine)
      (held sha3 (X (a :: r)))
      (node sha3 (.branch (Patricia.two a (Y r) b (.leaf s v))))
      (refs sha3 (.branch (Patricia.two a (Y r) b (.leaf s v)))) := by
  set cs : Fin 16 → Map := Function.update (fun _ => .empty) a (Y r) with hcs
  have hb : cs b = .empty := Function.update_of_ne hab.symm ..
  have hplace : Turns sha3 S
      (mergeAtAux sha3 (mergeAt sha3 (fuel + 1)) (ref sha3 (node sha3 (cs b))) s v)
      (held sha3 (cs b)) (ref sha3 (node sha3 (.leaf s v))) (held sha3 (.leaf s v)) := by
    rw [hb]
    refine turns_mergeAtAux hinj (fun h => absurd rfl h) hmem' fun inLine _ => ?_
    rw [held_empty]
    refine Turns.congr (fun db => ?_) turns_place_empty
    cases s <;> rfl
  have hinto := turns_mergeAt_branch true hplace
  have hrefs : taken sha3 true (.branch cs) = held sha3 (Y r) := by
    rw [taken, if_pos rfl, hcs, refs_update, others]
    simp
  rw [hrefs] at hinto
  refine Turns.congr (fun db => ?_) ((turns_branch hstem hmem).bind
    (g := fun x => mergeAt sha3 (fuel + 2) x (sha3 x) (b :: s) v true) hinto)
  rw [hstem.node_eq, mergeAt_pair, if_neg (fun h => hab (List.cons.inj h.1).1),
    if_neg (fun h => hab (List.cons_prefix_cons.mp h.1).1), if_neg (by
      simp [shared, Patricia.shared, hab.symm])]
  rfl

/-- Keys that part somewhere: `fork` of the trie. -/
theorem turns_mergeAt_fork (hinj : Set.InjOn sha3 S.nodes) (hstem : Stem sha3 X Y leaf e R)
    (hab : a ≠ b) (hmem : node sha3 (X (a :: r)) ∈ S.nodes) (hrest : node sha3 (Y r) ∈ S.nodes)
    (hvalue : node sha3 (.leaf s v) ∈ S.nodes)
    (hforked : node sha3 (.branch (Patricia.two a (Y r) b (.leaf s v))) ∈ S.nodes) :
    Turns sha3 S (mergeAt sha3 (fuel + 5) (node sha3 (X (p ++ a :: r))) h (p ++ b :: s) v inLine)
      (held sha3 (X (p ++ a :: r)))
      (node sha3 (Patricia.prepend p (.branch (Patricia.two a (Y r) b (.leaf s v)))))
      (refs sha3 (Patricia.prepend p (.branch (Patricia.two a (Y r) b (.leaf s v))))) := by
  rcases eq_or_ne p [] with rfl | hp
  · exact turns_mergeAt_apart _ hinj hstem hab hrest hvalue
  · have hbelow := turns_mergeAtAux (k := b :: s) hinj (fun _ => hmem) hforked fun _ _ =>
      turns_mergeAt_apart fuel hinj hstem hab hrest hvalue
    have hinto := turns_mergeAt_ext p true hbelow
    rw [Patricia.prepend_of_ne hp]
    rw [taken, if_pos rfl] at hinto
    refine Turns.congr (fun db => ?_) ((turns_cleve (p := p) hstem hmem).bind
      (g := fun x => mergeAt sha3 (fuel + 4) x (sha3 x) (p ++ b :: s) v true) hinto)
    have hlength : p.length ≠ 0 := fun h => hp (List.length_eq_zero_iff.mp h)
    rw [hstem.node_eq, mergeAt_pair, if_neg (by simp [hab]),
      if_neg (fun h => Patricia.not_prefix_of_split hab p r s h.1), shared,
      Patricia.shared_append hab.symm, if_pos hlength, Option.bind_some]

/-! ## Insertion -/

/-- `mergeAt` inserts. -/
theorem turns_mergeAt (hinj : Set.InjOn sha3 S.nodes) (hslot : Patricia.Slot n t) (hk : k.length = n)
    (hw : Within sha3 S n t) (hw' : Within sha3 S n (t.insert k v)) (hfuel : n + 5 ≤ fuel)
    (hin : inLine = true → size (node sha3 t) < 32) :
    Turns sha3 S (mergeAt sha3 fuel (node sha3 t) (sha3 (node sha3 t)) k v inLine) (held sha3 t)
      (node sha3 (t.insert k v)) (refs sha3 (t.insert k v)) := by
  obtain ⟨fuel, rfl⟩ : ∃ f, fuel = f + 5 := ⟨fuel - 5, by omega⟩
  induction t generalizing n k fuel inLine with
  | empty =>
      refine Turns.congr (fun db => ?_) (turns_place_empty (k := k) (v := v))
      cases k <;> rfl
  | leaf k₀ w =>
      have hn : k₀.length = n := hslot.of_leaf
      rcases eq_or_ne k₀ k with rfl | hne
      · rw [Patricia.insert_leaf_self]
        refine Turns.congr (fun db => ?_) turns_place_leaf
        rw [node, mergeAt_pair, if_pos ⟨rfl, rfl⟩]
      · obtain ⟨p, a, r, b, s, rfl, rfl, hab⟩ :=
          Patricia.exists_split_of_length_le (hn.trans hk.symm).le
            fun hp => hne (hp.eq_of_length (hn.trans hk.symm))
        simp only [List.length_append, List.length_cons] at hn hk
        rw [Patricia.insert_leaf_split hab] at hw' ⊢
        refine turns_mergeAt_fork (X := (.leaf · w)) (Y := (.leaf · w)) hinj (stem_leaf w) hab
          ?_ ?_ ?_ ?_
        · refine (hw.below (m := r.length + 1) hn ?_).node_mem fun _ => .leaf rfl
          intro k
          simp only [Patricia.lookup_leaf, List.append_cancel_left_eq]
        · refine (hw.below (m := r.length) (p := p ++ [a]) (by simp; omega) ?_).node_mem
            fun _ => .leaf rfl
          intro k
          simp only [Patricia.lookup_leaf, List.append_assoc, List.singleton_append,
            List.append_cancel_left_eq, List.cons.injEq, true_and]
        · refine (hw'.below (m := s.length) (p := p ++ [b]) (by simp; omega) ?_).node_mem
            fun _ => .leaf rfl
          intro k
          rw [List.append_assoc, Patricia.lookup_prepend_append]
          simp [Patricia.two]
        · refine (hw'.below (m := r.length + 1) hn ?_).node_mem fun _ => ?_
          · exact fun k => (Patricia.lookup_prepend_append p k _).symm
          · exact .two hab (.leaf rfl) (.leaf (by omega))
  | ext k₀ c ih =>
      obtain ⟨cs, m, rfl, hne, hn, hb⟩ := hslot.of_ext
      have hbelow : ∀ c : Map, Patricia.Below k₀ (.ext k₀ c) c :=
        fun c k => (Patricia.lookup_ext_append k₀ k c).symm
      by_cases hp : k₀ <+: k
      · obtain ⟨k, rfl⟩ := hp
        rw [Patricia.insert_ext_append] at hw' ⊢
        rw [List.length_append] at hk
        have hwc := hw.below hn (hbelow _)
        have hwc' := hw'.below hn (hbelow _)
        have hslot' : Patricia.Slot m (.branch cs) := fun _ => hb
        have hpos : 0 < k₀.length := List.length_pos_of_ne_nil hne
        obtain ⟨fuel, rfl⟩ : ∃ f, fuel = f + 1 := ⟨fuel - 1, by omega⟩
        have haux := turns_mergeAtAux hinj (fun _ => hwc.node_mem hslot')
          (hwc'.node_mem fun _ => hslot'.insert (by omega)) fun inLine hin =>
            ih hslot' (by omega) hwc hwc' hin fuel (by omega)
        rw [held_eq_taken hin]
        exact turns_mergeAt_ext k₀ inLine haux
      · obtain ⟨p, a, r, b, s, rfl, rfl, hab⟩ := Patricia.exists_split_of_length_le (by omega) hp
        simp only [List.length_append, List.length_cons] at hn hk
        rw [Patricia.insert_ext_split hab] at hw' ⊢
        have hrest : Patricia.Canonical (r.length + m) (Patricia.prepend r (.branch cs)) :=
          hb.prepend r
        refine turns_mergeAt_fork (X := (.ext · (.branch cs)))
          (Y := (Patricia.prepend · (.branch cs))) hinj (stem_ext _) hab ?_ ?_ ?_ ?_
        · refine (hw.below (m := r.length + 1 + m) (p := p) (by omega) ?_).node_mem
            fun _ => .ext (List.cons_ne_nil a r) rfl hb
          intro k
          rw [← Patricia.prepend_of_ne (List.cons_ne_nil a r), ← Patricia.lookup_prepend_append p,
            Patricia.lookup_prepend_prepend, Patricia.prepend_of_ne (by simp)]
        · refine (hw.below (m := r.length + m) (p := p ++ [a]) (by simp; omega) ?_).node_mem
            fun _ => hrest
          intro k
          rw [← Patricia.lookup_prepend_append (p ++ [a]) k, Patricia.lookup_prepend_prepend,
            List.append_assoc p [a] r, List.singleton_append, Patricia.prepend_of_ne (by simp)]
        · refine (hw'.below (m := s.length) (p := p ++ [b]) (by simp; omega) ?_).node_mem
            fun _ => .leaf rfl
          intro k
          rw [List.append_assoc, Patricia.lookup_prepend_append]
          simp [Patricia.two]
        · refine (hw'.below (m := r.length + m + 1) (p := p) (by omega) ?_).node_mem fun _ => ?_
          · exact fun k => (Patricia.lookup_prepend_append p k _).symm
          · exact .two hab hrest (.leaf (by omega))
  | branch cs ih =>
      obtain ⟨m, rfl, -, hcs⟩ := hslot.of_branch
      cases k with
      | nil => cases hk
      | cons i k =>
          rw [Patricia.insert_branch_cons] at hw' ⊢
          have hkm : k.length = m := Nat.succ.inj hk
          have hwc : Within sha3 S m (cs i) :=
            hw.below (p := [i]) (Nat.add_comm 1 m) fun _ => rfl
          have hwc' : Within sha3 S m ((cs i).insert k v) := by
            refine hw'.below (p := [i]) (Nat.add_comm 1 m) fun l => ?_
            rw [List.singleton_append, Patricia.lookup_branch_cons, Function.update_self]
          obtain ⟨fuel, rfl⟩ : ∃ f, fuel = f + 1 := ⟨fuel - 1, by omega⟩
          have haux := turns_mergeAtAux hinj (fun _ => hwc.node_mem (hcs i))
            (hwc'.node_mem fun _ => (hcs i).insert hkm) fun inLine hin =>
              ih i (hcs i) hkm hwc hwc' hin fuel (by omega)
          rw [held_eq_taken hin]
          exact turns_mergeAt_branch inLine haux

end

end CppSwc.Trie
