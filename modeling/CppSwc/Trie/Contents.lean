import CppSwc.Trie.Delete
import CppSwc.Trie.TrieHash

/-!
# The trie is a map

Insertions and removals on a trie object, against the map that they make.  Its root is the hash
of the node of a canonical trie with the entries of the map, and `hash256` of the map builds the
same one.
-/

namespace CppSwc.Trie

open Lib Std

/-! ## Runs -/

/-- A call on the trie. -/
inductive Op where
  | insert (key value : Bytes)
  | remove (key : Bytes)

/-- The key of a call. -/
def Op.key : Op → Bytes
  | .insert key _ => key
  | .remove key => key

/-- What a call does to the trie. -/
def Op.apply {N : Type} [RefCount N] (sha3 : Rlp → H256) :
    Op → GenericTrieDB N → Option (GenericTrieDB N)
  | .insert key value, t => t.insert sha3 key value
  | .remove key, t => t.remove sha3 key

/-- What a call does to the map. -/
def Op.write : Op → BytesMap → BytesMap
  | .insert key value, m => m.insert key value
  | .remove key, m => m.erase key

/-- The calls on the trie, one after the other. -/
def runOps {N : Type} [RefCount N] (sha3 : Rlp → H256) (ops : List Op) (t : GenericTrieDB N) :
    Option (GenericTrieDB N) :=
  ops.foldlM (fun t op => op.apply sha3 t) t

/-- The map that calls make of the empty one. -/
def contents (ops : List Op) : BytesMap := ops.foldl (fun m op => op.write m) ∅

/-- The node for what is behind a prefix of the keys. -/
def nodeAt (sha3 : Rlp → H256) (m : BytesMap) (p : Nibbles) : Option Rlp :=
  hash256rlp sha3 (longest (entriesOf m) + 1) ((entriesOf m).filter fun e => p <+: e.1) p.length

/-- The nodes of the maps that calls go through. -/
def involved (sha3 : Rlp → H256) (ops : List Op) : Set Rlp :=
  { r | ∃ before p, before <+: ops ∧ nodeAt sha3 (contents before) p = some r }

/-- A database in which each string is found under its hash. -/
def MemoryDB.Filed (sha3 : Rlp → H256) (db : MemoryDB) : Prop :=
  ∀ h v n, db.m_main[h]? = some (v, n) → sha3 v = h

/-- The nodes in a database. -/
def MemoryDB.nodes (db : MemoryDB) : Set Rlp := 
  { v | ∃ (h : H256) (n : ℕ), db.m_main[h]? = some (v, n) }

variable {sha3 : Rlp → H256} {S : Ground} {t : Map} {M : Multiset H256} {db : MemoryDB}
  {key k p : Nibbles} {n fuel : ℕ} {m : BytesMap}

/-! ## Looking up -/

/-- What is behind a pair or a branch is looked up in the node below. -/
theorem follow_of_isList {α : Type} {f : Rlp → Option α} {r : Rlp}
    (hinj : Set.InjOn sha3 S.nodes) (hr : r.isList = true) (hmem : r ∈ S.nodes)
    (hdb : Holds sha3 S db (own sha3 r + M)) :
    (if (ref sha3 r).isList then f (ref sha3 r)
      else (toHash (ref sha3 r)).bind fun h => f (db.lookup h)) = f r := by
  rcases ref_or_hash sha3 r with ⟨-, heq, -⟩ | ⟨hsize, heq, -⟩
  · rw [heq, hr, if_pos rfl]
  · rw [heq, toHash_ofHash]
    simp only [Rlp.ofHash, Rlp.isList, Bool.false_eq_true, if_false, Option.bind_some]
    rw [hdb.lookup_own hinj hmem hsize]

theorem follow_ref {α : Type} {f : Rlp → Option α} {c : Map} (hinj : Set.InjOn sha3 S.nodes)
    (hc : c ≠ .empty) (hmem : node sha3 c ∈ S.nodes) (hdb : Holds sha3 S db (held sha3 c + M)) :
    (if (ref sha3 (node sha3 c)).isList then f (ref sha3 (node sha3 c))
      else (toHash (ref sha3 (node sha3 c))).bind fun h => f (db.lookup h)) = f (node sha3 c) := by
  rw [held, add_assoc] at hdb
  exact follow_of_isList hinj (isList_node sha3 hc) hmem hdb

@[simp] theorem isNull_pair (k : Nibbles) (leaf : Bool) (r : Rlp) :
    (pair k leaf r).isNull = false := rfl

theorem Holds.of_held {c : Map} (hdb : Holds sha3 S db (held sha3 c + M)) :
    Holds sha3 S db (refs sha3 c + (own sha3 (node sha3 c) + M)) := by
  rwa [held, add_comm (own _ _), add_assoc] at hdb

/-- What `atAux` does at a pair. -/
theorem atAux_pair (k key : Nibbles) (leaf : Bool) (r : Rlp) :
    atAux db (fuel + 1) (pair k leaf r) key =
      if key = k ∧ leaf then some r.toBytes
      else if k <+: key ∧ leaf = false then
        if r.isList then atAux db fuel r (key.drop k.length)
        else (toHash r).bind fun h => atAux db fuel (db.lookup h) (key.drop k.length)
      else some [] := by
  cases key <;> simp only [atAux, isEmpty_pair, itemCount_pair, keyOfNode_pair, isLeaf_pair,
    entry_pair_one, isNull_pair, Bool.false_eq_true, or_self, if_false, if_true,
    Bool.not_eq_true]

/-- What `atAux` does at a branch. -/
theorem atAux_withLast (f : Fin 16 → Rlp) (last : Rlp) (i : Fin 16) (key : Nibbles) :
    atAux db (fuel + 1) (.list (withLast f last)) (i :: key) =
      if isEmpty (f i) then some []
      else if (f i).isList then atAux db fuel (f i) key
      else (toHash (f i)).bind fun h => atAux db fuel (db.lookup h) key := by
  simp only [atAux, isEmpty_withLast, itemCount_withLast, entry_withLast, Rlp.isNull,
    Bool.false_eq_true, or_self, if_false, Nat.reduceEqDiff, if_true]

theorem atAux_withLast_nil (f : Fin 16 → Rlp) (last : Rlp) :
    atAux db (fuel + 1) (.list (withLast f last)) [] = some last.toBytes := by
  simp only [atAux, isEmpty_withLast, itemCount_withLast, entry_withLast_last, Rlp.isNull,
    Bool.false_eq_true, or_self, if_false, Nat.reduceEqDiff, if_true]

/-- `atAux` looks up. -/
theorem atAux_eq (hinj : Set.InjOn sha3 S.nodes) (hslot : Patricia.Slot n t)
    (hw : Within sha3 S n t) (hfuel : key.length < fuel)
    (hdb : Holds sha3 S db (refs sha3 t + M)) :
    atAux db fuel (node sha3 t) key = some ((t.lookup key).getD []) := by
  obtain ⟨fuel, rfl⟩ : ∃ f, fuel = f + 1 := ⟨fuel - 1, by omega⟩
  induction t generalizing n key fuel M with
  | empty => cases key <;> rfl
  | leaf k₀ w =>
      rw [node, atAux_pair, Patricia.lookup_leaf]
      split
      · next h => rw [if_pos h.1]; rfl
      · next h =>
          rw [if_neg fun h => Bool.false_ne_true h.2.symm, if_neg fun he => h ⟨he, rfl⟩]
          rfl
  | ext k₀ c ih =>
      obtain ⟨cs, m, rfl, hne, hn, hb⟩ := hslot.of_ext
      rw [node, atAux_pair, if_neg fun h => Bool.false_ne_true h.2]
      by_cases hp : k₀ <+: key
      · obtain ⟨key, rfl⟩ := hp
        have hslot' : Patricia.Slot m (.branch cs) := fun _ => hb
        have hwc : Within sha3 S m (.branch cs) :=
          hw.below hn fun k => (Patricia.lookup_ext_append k₀ k _).symm
        have hpos : 0 < k₀.length := List.length_pos_of_ne_nil hne
        rw [List.length_append] at hfuel
        obtain ⟨fuel, rfl⟩ : ∃ f, fuel = f + 1 := ⟨fuel - 1, by omega⟩
        rw [if_pos ⟨List.prefix_append k₀ key, rfl⟩, List.drop_left, Patricia.lookup_ext_append]
        rw [follow_ref (f := fun r => atAux db (fuel + 1) r key) hinj hb.ne_empty
          (hwc.node_mem hslot') hdb]
        exact ih hslot' hwc hdb.of_held fuel (by omega)
      · rw [if_neg fun h => hp h.1, Patricia.lookup_ext_apart hp]
        rfl
  | branch cs ih =>
      obtain ⟨m, rfl, -, hcs⟩ := hslot.of_branch
      cases key with
      | nil =>
          rw [node, seventeen_eq, atAux_withLast_nil]
          rfl
      | cons i key =>
          have hwc : Within sha3 S m (cs i) :=
            hw.below (p := [i]) (Nat.add_comm 1 m) fun _ => rfl
          rw [List.length_cons] at hfuel
          obtain ⟨fuel, rfl⟩ : ∃ f, fuel = f + 1 := ⟨fuel - 1, by omega⟩
          rw [node, seventeen_eq, atAux_withLast, Patricia.lookup_branch_cons]
          rw [refs_branch cs i, add_assoc] at hdb
          by_cases hc : cs i = .empty
          · rw [if_pos ((isEmpty_ref _).mpr hc), hc]
            rfl
          · rw [if_neg fun h => hc ((isEmpty_ref _).mp h),
              follow_ref (f := fun r => atAux db (fuel + 1) r key) hinj hc
              (hwc.node_mem (hcs i)) hdb]
            exact ih i (hcs i) hwc hdb.of_held fuel (by omega)

/-! ## The entries by nibbles -/

/-- Insertions by nibbles, one after the other. -/
theorem getElem?_foldl_insert (l : List (Bytes × Bytes)) (acc : HexMap)
    (hl : l.Pairwise fun e e' => e.1 ≠ e'.1) (k : Nibbles) (v : Bytes) :
    (l.foldl (fun m e => m.insert (asNibbles e.1) e.2) acc)[k]? = some v ↔
      (∃ e ∈ l, asNibbles e.1 = k ∧ e.2 = v) ∨
        (∀ e ∈ l, asNibbles e.1 ≠ k) ∧ acc[k]? = some v := by
  induction l generalizing acc with
  | nil => simp
  | cons e l ih =>
      obtain ⟨hne, hl⟩ := List.pairwise_cons.mp hl
      rw [List.foldl_cons, ih _ hl, ExtTreeMap.getElem?_insert]
      simp only [LawfulEqCmp.compare_eq_iff_eq, List.mem_cons, exists_eq_or_imp, forall_eq_or_imp]
      by_cases hk : asNibbles e.1 = k
      · have hrest : ∀ e' ∈ l, asNibbles e'.1 ≠ k := fun e' he' h =>
          hne e' he' (asNibbles_injective (hk.trans h.symm))
        have hnone : ¬∃ e' ∈ l, asNibbles e'.1 = k ∧ e'.2 = v := by
          rintro ⟨e', he', h, -⟩
          exact hrest e' he' h
        simp only [hk, if_true, Option.some.injEq, true_and, ne_eq, not_true_eq_false, false_and,
          or_false, hnone, false_or]
        exact and_iff_right hrest
      · simp only [hk, if_false, false_and, false_or, ne_eq, not_false_eq_true, true_and]

theorem hexMap_getElem? (m : BytesMap) (k : Nibbles) (v : Bytes) :
    (hexMap m)[k]? = some v ↔ ∃ key, asNibbles key = k ∧ m[key]? = some v := by
  have hdistinct : m.toList.reverse.Pairwise fun e e' => e.1 ≠ e'.1 := by
    rw [List.pairwise_reverse]
    refine ExtTreeMap.distinct_keys_toList.imp fun {e e'} hne heq => hne ?_
    rw [heq]
    exact ReflCmp.compare_self
  rw [hexMap, getElem?_foldl_insert _ _ hdistinct, ExtTreeMap.getElem?_empty]
  simp only [reduceCtorEq, and_false, or_false, List.mem_reverse]
  constructor
  · rintro ⟨⟨key, w⟩, hmem, hk, rfl⟩
    exact ⟨key, hk, ExtTreeMap.mem_toList_iff_getElem?_eq_some.mp hmem⟩
  · rintro ⟨key, hk, hget⟩
    exact ⟨(key, v), ExtTreeMap.mem_toList_iff_getElem?_eq_some.mpr hget, hk, rfl⟩

/-- The keys of a map have `n` bytes. -/
def KeyLength (n : ℕ) (m : BytesMap) : Prop :=
  ∀ (key v : Bytes), m[key]? = some v → key.length = n

/-- The trie holds what the map has. -/
def Agrees (m : BytesMap) (t : Map) : Prop :=
  ∀ k v, t.lookup k = some v ↔ ∃ key, asNibbles key = k ∧ m[key]? = some v

theorem mem_entriesOf (m : BytesMap) (k : Nibbles) (v : Bytes) :
    (k, v) ∈ entriesOf m ↔ ∃ key, asNibbles key = k ∧ m[key]? = some v := by
  rw [entriesOf, ExtTreeMap.mem_toList_iff_getElem?_eq_some, hexMap_getElem?]

theorem segment_entriesOf (hm : KeyLength n m) : Segment [] (2 * n) (entriesOf m) where
  sorted := ExtTreeMap.ordered_keys_toList
  keys := by
    rintro ⟨k, v⟩ hmem
    obtain ⟨key, rfl, hget⟩ := (mem_entriesOf m k v).mp hmem
    exact ⟨asNibbles key, by rw [asNibbles_length, hm key v hget], rfl⟩

theorem le_longest {s : List Entry} {e : Entry} (he : e ∈ s) : e.1.length ≤ longest s := by
  induction s with
  | nil => cases he
  | cons d s ih =>
      rw [longest, List.foldr_cons, ← longest]
      rcases List.mem_cons.mp he with rfl | he
      · exact le_max_left _ _
      · exact (ih he).trans (le_max_right _ _)

variable (sha3) in
/-- The node for a prefix is that of the canonical trie with what is behind it. -/
theorem nodeAt_eq {u : Map} (hm : KeyLength n m) (ht : Agrees m t) (hp : p.length ≤ 2 * n)
    (hslot : Patricia.Slot (2 * n - p.length) u) (hu : Patricia.Below p t u) :
    nodeAt sha3 m p = some (node sha3 u) := by
  set entries := entriesOf m with hentries
  have hlists : ∀ k v, u.lookup k = some v ↔ (p ++ k, v) ∈ entries.filter fun e => p <+: e.1 := by
    intro k v
    rw [hu, ht, ← mem_entriesOf, List.mem_filter, decide_eq_true_iff]
    exact (and_iff_left (List.prefix_append p k)).symm
  rcases hempty : entries with - | ⟨e, rest⟩
  · have hnone : u = .empty := by
      by_contra hne
      obtain ⟨k, v, hk⟩ := (hslot hne).exists_lookup
      have := (hlists k v).mp hk
      rw [hempty] at this
      cases this
    rw [nodeAt, ← hentries, hempty, hnone]
    rfl
  · have hlongest : 2 * n ≤ longest entries := by
      have hmem : e ∈ entries := by rw [hempty]; exact List.mem_cons_self
      obtain ⟨k, hk, he⟩ := (segment_entriesOf hm).keys e hmem
      have hle := le_longest hmem
      rw [he, List.nil_append, hk] at hle
      exact hle
    have hseg : Segment p (2 * n - p.length) (entries.filter fun e => p <+: e.1) :=
      ((segment_entriesOf hm).filter _).extend (by omega) fun e he =>
        of_decide_eq_true (List.mem_filter.mp he).2
    have hfuel : 2 * n - p.length < longest entries + 1 := by omega
    obtain ⟨w, hrun, hw, hlists'⟩ := exists_hash256rlp hseg hfuel
    have heq : w = u := hw.eq_of_lookup hslot fun k => by
      refine Option.ext fun v => ?_
      rw [hlists', hlists]
    rw [nodeAt, hrun, heq]

/-- `hash256` is the hash of the node of the canonical trie. -/
theorem hash256_eq (hm : KeyLength n m) (ht : Agrees m t) (hslot : Patricia.Slot (2 * n) t) :
    hash256 sha3 m = some (sha3 (node sha3 t)) := by
  have hnode := nodeAt_eq sha3 (p := []) hm ht (Nat.zero_le _) hslot fun k => rfl
  have hall : (entriesOf m).filter (fun e => ([] : Nibbles) <+: e.1) = entriesOf m :=
    List.filter_eq_self.mpr fun e _ => by simp
  rw [hash256, rlp256]
  split
  · next hempty =>
      have hnone : t = .empty := by
        by_contra hne
        obtain ⟨k, v, hk⟩ := (hslot hne).exists_lookup
        obtain ⟨key, -, hget⟩ := (ht k v).mp hk
        rw [ExtTreeMap.isEmpty_iff.mp hempty, ExtTreeMap.getElem?_empty] at hget
        cases hget
      rw [hnone]
      rfl
  · rw [nodeAt, hall] at hnode
    rw [show hash256rlp sha3 (longest (entriesOf m) + 1) (entriesOf m) 0 = _ from hnode]
    rfl

/-! ## Calls -/

/-- The trie object stands for the trie `t` with the contents `m`. -/
structure Represents (sha3 : Rlp → H256) (S : Ground) (n : ℕ) (g : GenericTrieDB) (m : BytesMap)
    (t : Map) : Prop where
  slot : Patricia.Slot (2 * n) t
  within : Within sha3 S (2 * n) t
  keyLength : KeyLength n m
  agrees : Agrees m t
  root : g.m_root = sha3 (node sha3 t)
  holds : Holds sha3 S g.m_db ({sha3 (node sha3 t)} + refs sha3 t)

variable {g : GenericTrieDB} {t' : Map} {o : Op} {bytes value : Bytes}

theorem Op.write_insert (key value k : Bytes) (m : BytesMap) :
    ((Op.insert key value).write m)[k]? = if k = key then some value else m[k]? := by
  rw [write, ExtTreeMap.getElem?_insert]
  simp only [LawfulEqCmp.compare_eq_iff_eq, @eq_comm _ key k]

theorem Op.write_remove (key k : Bytes) (m : BytesMap) :
    ((Op.remove key).write m)[k]? = if k = key then none else m[k]? := by
  rw [write, ExtTreeMap.getElem?_erase]
  simp only [LawfulEqCmp.compare_eq_iff_eq, @eq_comm _ key k]

/-- A call keeps the length of the keys. -/
theorem KeyLength.write (hm : KeyLength n m) (ho : o.key.length = n) :
    KeyLength n (o.write m) := by
  intro k v hget
  cases o with
  | insert key value =>
      rw [Op.write_insert] at hget
      split at hget
      · next heq => rwa [heq]
      · exact hm k v hget
  | remove key =>
      rw [Op.write_remove] at hget
      split at hget
      · cases hget
      · exact hm k v hget

/-- Insertion into the trie follows the map. -/
theorem Agrees.insert (ht : Agrees m t) (hslot : Patricia.Slot (2 * n) t)
    (hlength : bytes.length = n) :
    Agrees ((Op.insert bytes value).write m) (t.insert (asNibbles bytes) value) := by
  intro k v
  rw [hslot.lookup_insert (by rw [asNibbles_length, hlength])]
  simp only [Op.write_insert]
  split
  · next heq =>
      rw [heq]
      constructor
      · intro h
        exact ⟨bytes, rfl, by rwa [if_pos rfl]⟩
      · rintro ⟨key, hkey, hget⟩
        rwa [if_pos (asNibbles_injective hkey)] at hget
  · next hne =>
      rw [ht]
      refine exists_congr fun key => and_congr_right fun hkey => ?_
      have hkey' : key ≠ bytes := by
        rintro rfl
        exact hne hkey.symm
      rw [if_neg hkey']

/-- So does deletion. -/
theorem Agrees.erase (ht : Agrees m t) (bytes : Bytes) :
    Agrees ((Op.remove bytes).write m) (t.erase (asNibbles bytes)) := by
  intro k v
  rw [Patricia.lookup_erase]
  simp only [Op.write_remove]
  split
  · next heq =>
      rw [heq]
      refine iff_of_false (by simp) ?_
      rintro ⟨key, hkey, hget⟩
      rw [if_pos (asNibbles_injective hkey)] at hget
      cases hget
  · next hne =>
      rw [ht]
      refine exists_congr fun key => and_congr_right fun hkey => ?_
      have hkey' : key ≠ bytes := by
        rintro rfl
        exact hne hkey.symm
      rw [if_neg hkey']

/-- The reference to the root, as far as `killNode` does not take it. -/
def rootLeft (sha3 : Rlp → H256) (r : Rlp) : Multiset H256 :=
  if size r < 32 then {sha3 r} else 0

theorem own_add_rootLeft (r : Rlp) : own sha3 r + rootLeft sha3 r = {sha3 r} := by
  rw [own, rootLeft]
  split
  · rw [zero_add]
  · rw [add_zero]

/-- The root as a reference that the trie holds. -/
theorem Represents.held (hg : Represents sha3 S n g m t) :
    Holds sha3 S g.m_db (held sha3 t + rootLeft sha3 (node sha3 t)) := by
  have hheld : Trie.held sha3 t + rootLeft sha3 (node sha3 t) =
      {sha3 (node sha3 t)} + refs sha3 t := by
    rw [Trie.held, add_right_comm, own_add_rootLeft]
  rw [hheld]
  exact hg.holds

theorem Represents.lookup_root (hinj : Set.InjOn sha3 S.nodes) (hg : Represents sha3 S n g m t) :
    g.m_db.lookup g.m_root = node sha3 t := by
  rw [hg.root]
  exact hg.holds.lookup hinj (hg.within.node_mem hg.slot)

/-- The new root takes the place of the old one. -/
theorem Holds.replaceRoot {db' : MemoryDB} {r r' : Rlp} (hroot : g.m_root = sha3 r)
    (hmem : r' ∈ S.nodes) (hdb : Holds sha3 S db' (M + rootLeft sha3 r)) :
    Holds sha3 S (g.replaceRoot sha3 r r' db').m_db ({sha3 r'} + M) := by
  refine Holds.insert hmem ?_
  rw [rootLeft] at hdb
  split at hdb
  · next hsize =>
      rw [if_pos hsize, hroot]
      rw [add_comm] at hdb
      exact hdb.kill
  · next hsize =>
      rw [if_neg hsize]
      rwa [add_zero] at hdb

/-- An insertion succeeds and stands for the new contents. -/
theorem Represents.insert (hinj : Set.InjOn sha3 S.nodes) (hg : Represents sha3 S n g m t)
    (hlength : bytes.length = n)
    (hw : Within sha3 S (2 * n) (t.insert (asNibbles bytes) value)) :
    ∃ g', g.insert sha3 bytes value = some g' ∧
      Represents sha3 S n g' ((Op.insert bytes value).write m)
        (t.insert (asNibbles bytes) value) := by
  have hk : (asNibbles bytes).length = 2 * n := by rw [asNibbles_length, hlength]
  obtain ⟨db', hrun, hdb'⟩ := turns_mergeAt hinj hg.slot hk hg.within hw le_rfl
    (fun h : false = true => absurd h Bool.false_ne_true) g.m_db _ hg.held
  have hslot : Patricia.Slot (2 * n) (t.insert (asNibbles bytes) value) :=
    fun _ => hg.slot.insert hk
  have hnull : (node sha3 t).isNull = false := by
    cases hnode : node sha3 t with
    | null => exact absurd hnode (node_ne_null t)
    | data bs => rfl
    | list xs => rfl
  refine ⟨g.replaceRoot sha3 (node sha3 t) (node sha3 (t.insert (asNibbles bytes) value)) db', ?_,
    hslot, hw, hg.keyLength.write hlength, hg.agrees.insert hg.slot hlength, rfl,
    hdb'.replaceRoot hg.root (hw.node_mem hslot)⟩
  rw [GenericTrieDB.insert, hg.lookup_root hinj, hnull]
  simp only [Bool.false_eq_true, if_false, hg.root, hk, hrun, Option.map_some]

/-- So does a removal. -/
theorem Represents.remove (hinj : Set.InjOn sha3 S.nodes) (hg : Represents sha3 S n g m t)
    (hlength : bytes.length = n) (hw : Within sha3 S (2 * n) (t.erase (asNibbles bytes))) :
    ∃ g', g.remove sha3 bytes = some g' ∧
      Represents sha3 S n g' ((Op.remove bytes).write m) (t.erase (asNibbles bytes)) := by
  have hk : (asNibbles bytes).length = 2 * n := by rw [asNibbles_length, hlength]
  have hslot := hg.slot.erase (asNibbles bytes)
  have hagrees := hg.agrees.erase bytes
  have hkeys := hg.keyLength.write (o := .remove bytes) hlength
  obtain ⟨hnone, hsome⟩ := deletes_deleteAt hinj hg.slot hk hg.within hw le_rfl
  by_cases hin : t.lookup (asNibbles bytes) = none
  · obtain ⟨db', hrun, hdb'⟩ := hnone hin g.m_db _ hg.held
    have hsame : t.erase (asNibbles bytes) = t := hslot.eq_of_lookup hg.slot fun k => by
      rw [Patricia.lookup_erase]
      split
      · next heq => rw [heq, hin]
      · rfl
    refine ⟨{ g with m_db := db' }, ?_, hslot, hw, hkeys, hagrees, ?_, ?_⟩
    · rw [GenericTrieDB.remove, hg.lookup_root hinj]
      simp only [hk, hrun, Option.map_some]
    · rw [hsame]
      exact hg.root
    · rw [hsame, ← own_add_rootLeft, add_right_comm]
      exact hdb'
  · obtain ⟨db', hrun, hdb'⟩ := hsome hin g.m_db _ hg.held
    refine ⟨g.replaceRoot sha3 (node sha3 t) (node sha3 (t.erase (asNibbles bytes))) db', ?_,
      hslot, hw, hkeys, hagrees, rfl, hdb'.replaceRoot hg.root (hw.node_mem hslot)⟩
    rw [GenericTrieDB.remove, hg.lookup_root hinj]
    simp only [hk, hrun, Option.map_some]

/-- The nodes of a map are among those given. -/
def Covered (sha3 : Rlp → H256) (S : Ground) (m : BytesMap) : Prop :=
  ∀ p r, nodeAt sha3 m p = some r → r ∈ S.nodes

theorem Covered.within (h : Covered sha3 S m) (hm : KeyLength n m) (ht : Agrees m t) :
    Within sha3 S (2 * n) t :=
  fun p _ hp hslot hu => h p _ (nodeAt_eq sha3 hm ht hp hslot hu)

/-- A call succeeds and stands for the new contents. -/
theorem Represents.apply (hinj : Set.InjOn sha3 S.nodes) (hg : Represents sha3 S n g m t)
    (hlength : o.key.length = n) (hcovered : Covered sha3 S (o.write m)) :
    ∃ g' t', o.apply sha3 g = some g' ∧ Represents sha3 S n g' (o.write m) t' := by
  have hkeys := hg.keyLength.write (o := o) hlength
  cases o with
  | insert key value =>
      obtain ⟨g', hrun, hg'⟩ := hg.insert hinj hlength
        (hcovered.within hkeys (hg.agrees.insert hg.slot hlength))
      exact ⟨g', _, hrun, hg'⟩
  | remove key =>
      obtain ⟨g', hrun, hg'⟩ := hg.remove hinj hlength
        (hcovered.within hkeys (hg.agrees.erase key))
      exact ⟨g', _, hrun, hg'⟩

/-- So does a run. -/
theorem Represents.run {ops : List Op} (hinj : Set.InjOn sha3 S.nodes)
    (hg : Represents sha3 S n g m t) (hlength : ∀ op ∈ ops, op.key.length = n)
    (hcovered : ∀ before, before <+: ops →
      Covered sha3 S (before.foldl (fun m op => op.write m) m)) :
    ∃ g' t', runOps sha3 ops g = some g' ∧
      Represents sha3 S n g' (ops.foldl (fun m op => op.write m) m) t' := by
  induction ops generalizing g m t with
  | nil => exact ⟨g, t, rfl, hg⟩
  | cons op ops ih =>
      obtain ⟨g₁, t₁, hrun, hg₁⟩ := hg.apply (o := op) hinj (hlength op List.mem_cons_self)
        (hcovered [op] (List.cons_prefix_cons.mpr ⟨rfl, ops.nil_prefix⟩))
      obtain ⟨g₂, t₂, hrun₂, hg₂⟩ := ih hg₁ (fun o ho => hlength o (List.mem_cons_of_mem op ho))
        fun before hbefore => hcovered (op :: before) (List.cons_prefix_cons.mpr ⟨rfl, hbefore⟩)
      refine ⟨g₂, t₂, ?_, hg₂⟩
      rw [runOps, List.foldlM_cons, hrun]
      exact hrun₂

/-! ## From `init` on -/

/-- What a run may find in a database: what is there, and the nodes of its maps.  The references
of the strings that are there belong to others. -/
def ground (sha3 : Rlp → H256) (db : MemoryDB) (ops : List Op) : Ground :=
  ⟨db.nodes ∪ involved sha3 ops, db.count⟩

/-- `init` gives a trie object for the empty map. -/
theorem represents_init (ops : List Op) (hdb : db.Filed sha3)
    (hinj : Set.InjOn sha3 (db.nodes ∪ involved sha3 ops)) (n : ℕ) :
    ∃ g, GenericTrieDB.init sha3 db = some g ∧
      Represents sha3 (ground sha3 db ops) n g ∅ .empty := by
  have hmem : RLPNull ∈ (ground sha3 db ops).nodes :=
    .inr ⟨[], [], List.nil_prefix, rfl⟩
  have hfound : Holds sha3 (ground sha3 db ops) db 0 :=
    ⟨fun hget => ⟨hdb _ _ _ hget, .inl ⟨_, _, hget⟩⟩, fun h => (Nat.zero_add _).symm⟩
  have hholds := hfound.insert hmem
  have hlookup : (db.insert (sha3 RLPNull) RLPNull).lookup (sha3 RLPNull) = RLPNull :=
    hholds.lookup hinj hmem
  have hexists : (db.insert (sha3 RLPNull) RLPNull).existsEntry (sha3 RLPNull) = true := by
    rw [MemoryDB.existsEntry, MemoryDB.getElem?_insert, if_pos rfl]
    simp [RefCount.isPos, RefCount.inc]
  refine ⟨⟨sha3 RLPNull, db.insert (sha3 RLPNull) RLPNull⟩, ?_, fun h => absurd rfl h, ?_, ?_, ?_,
    rfl, hholds⟩
  · rw [GenericTrieDB.init, GenericTrieDB.setRoot, hexists]
    simp only [not_true_eq_false, and_false, if_false, hlookup]
    rfl
  · intro p u _ hslot hu
    have hnone : u = .empty := by
      by_contra hne
      obtain ⟨k, v, hk⟩ := (hslot hne).exists_lookup
      rw [hu] at hk
      cases hk
    rw [hnone]
    exact hmem
  · intro key v hget
    rw [ExtTreeMap.getElem?_empty] at hget
    cases hget
  · intro k v
    refine iff_of_false (by simp) ?_
    rintro ⟨key, -, hget⟩
    rw [ExtTreeMap.getElem?_empty] at hget
    cases hget

/-- Every run from `init` succeeds and stands for its contents. -/
theorem represents_run {ops : List Op} (hdb : db.Filed sha3)
    (hlength : ∀ op ∈ ops, op.key.length = n)
    (hinj : Set.InjOn sha3 (db.nodes ∪ involved sha3 ops)) :
    ∃ g t, (GenericTrieDB.init sha3 db).bind (runOps sha3 ops) = some g ∧
      Represents sha3 (ground sha3 db ops) n g (contents ops) t := by
  obtain ⟨g₀, hinit, hg₀⟩ := represents_init ops hdb hinj n
  obtain ⟨g, t, hrun, hg⟩ := hg₀.run hinj hlength fun before hbefore p r hr =>
    .inr ⟨before, p, hbefore, hr⟩
  exact ⟨g, t, by rw [hinit]; exact hrun, hg⟩

/-- **The trie is a canonical map.**  After any run from `init` with keys of one length, a key
gives the last value inserted under it and not removed, and the root is the hash of the
contents, however they came about. -/
theorem trie_is_map {ops : List Op} (hdb : db.Filed sha3)
    (hlength : ∀ op ∈ ops, op.key.length = n)
    (hinj : Set.InjOn sha3 (db.nodes ∪ involved sha3 ops)) :
    ∃ g, (GenericTrieDB.init sha3 db).bind (runOps sha3 ops) = some g ∧
      (∀ key : Bytes, g.at? key = some ((contents ops)[key]?.getD [])) ∧
      (∃ root, g.root = some root ∧ hash256 sha3 (contents ops) = some root) := by
  obtain ⟨g, t, hrun, hg⟩ := represents_run hdb hlength hinj
  refine ⟨g, hrun, fun key => ?_, g.m_root, ?_, ?_⟩
  · rw [GenericTrieDB.at?, hg.lookup_root hinj]
    have hholds := hg.holds
    rw [add_comm] at hholds
    rw [atAux_eq hinj hg.slot hg.within (Nat.lt_succ_self _) hholds]
    have hsame : t.lookup (asNibbles key) = (contents ops)[key]? := by
      refine Option.ext fun v => ?_
      rw [hg.agrees]
      constructor
      · rintro ⟨key', hkey, hget⟩
        rwa [asNibbles_injective hkey] at hget
      · exact fun hget => ⟨key, rfl, hget⟩
    rw [hsame]
  · rw [GenericTrieDB.root, hg.lookup_root hinj]
    cases hnode : node sha3 t with
    | null => exact absurd hnode (node_ne_null t)
    | data bs => rfl
    | list xs => rfl
  · rw [hash256_eq hg.keyLength hg.agrees hg.slot, hg.root]

/-- The nodes involved, listed. -/
def involvedList (sha3 : Rlp → H256) (ops : List Op) : List Rlp :=
  RLPNull :: ops.inits.flatMap fun before =>
    (entriesOf (contents before)).flatMap fun e =>
      e.1.inits.filterMap (nodeAt sha3 (contents before))

/-- A prefix of no key leaves nothing. -/
theorem mem_involvedList {ops : List Op} {r : Rlp} (h : r ∈ involved sha3 ops) :
    r ∈ involvedList sha3 ops := by
  obtain ⟨before, p, hbefore, hr⟩ := h
  by_cases hp : ∃ e ∈ entriesOf (contents before), p <+: e.1
  · obtain ⟨e, he, hp⟩ := hp
    refine List.mem_cons_of_mem _ (List.mem_flatMap.mpr
      ⟨before, (List.mem_inits _ _).mpr hbefore, List.mem_flatMap.mpr ⟨e, he, ?_⟩⟩)
    exact List.mem_filterMap.mpr ⟨p, (List.mem_inits _ _).mpr hp, hr⟩
  · have hnil : (entriesOf (contents before)).filter (fun e => p <+: e.1) = [] :=
      List.filter_eq_nil_iff.mpr fun e he hpe => hp ⟨e, he, of_decide_eq_true hpe⟩
    rw [nodeAt, hnil] at hr
    cases hr
    exact List.mem_cons_self

theorem injOn_involved {ops : List Op}
    (h : ∀ a ∈ involvedList sha3 ops, ∀ b ∈ involvedList sha3 ops, sha3 a = sha3 b → a = b) :
    Set.InjOn sha3 (({} : MemoryDB).nodes ∪ involved sha3 ops) := by
  have hmem : ∀ r ∈ ({} : MemoryDB).nodes ∪ involved sha3 ops, r ∈ involvedList sha3 ops := by
    rintro r (⟨k, n, hget⟩ | hr)
    · have hnone : (({} : MemoryDB).m_main)[k]? = none := ExtTreeMap.getElem?_empty
      rw [hnone] at hget
      cases hget
    · exact mem_involvedList hr
  exact fun a ha b hb => h a (hmem a ha) b (hmem b hb)

/-- Nothing is filed in an empty database. -/
theorem filed_empty : ({} : MemoryDB).Filed sha3 := by
  intro k v n hget
  have hnone : (({} : MemoryDB).m_main)[k]? = none := ExtTreeMap.getElem?_empty
  rw [hnone] at hget
  cases hget

/-- A hash that tells a few nodes apart. -/
def smallHash (r : Rlp) : H256 :=
  BitVec.ofNat 256 (r.encode.foldl (fun acc b => (acc * 257 + b.toNat + 1) % 2 ^ 255) 0)

/-- Two values of 33 bytes are inserted, and one of them is removed again. -/
def twoKeys : List Op :=
  [.insert [0x12] (List.replicate 33 1), .insert [0x13] (List.replicate 33 2), .remove [0x12]]

theorem trie_is_map_twoKeys :
    ∃ g, (GenericTrieDB.init smallHash ({} : MemoryDB)).bind (runOps smallHash twoKeys) = some g ∧
      (∀ key : Bytes, g.at? key = some ((contents twoKeys)[key]?.getD [])) ∧
      (∃ root, g.root = some root ∧ hash256 smallHash (contents twoKeys) = some root) :=
  trie_is_map (n := 1) filed_empty (by decide) (injOn_involved (by decide +kernel))

end CppSwc.Trie
