import Mathlib.Algebra.BigOperators.Group.Finset.Basic
import Mathlib.Data.Fintype.BigOperators
import Mathlib.Data.List.GetD
import Mathlib.Data.Multiset.Count
import CppSwc.Trie.TrieDB

/-!
# Tries as nodes

How a trie is written as a node, and the references to nodes in the database that this node
holds.  The database of a trie holds those references, each as often as it is counted, and what
else the database is used for is left alone (`Turns`).
-/

namespace CppSwc.Trie

open Lib Std

/-- The tries that nodes stand for. -/
abbrev Map := Patricia (Fin 16) Bytes

/-! ## Lists of seventeen -/

/-- Sixteen items and another one. -/
def withLast (f : Fin 16 → Rlp) (last : Rlp) : List Rlp := List.ofFn f ++ [last]

/-- Sixteen items and an empty one. -/
def seventeen (f : Fin 16 → Rlp) : List Rlp := List.ofFn f ++ [.data []]

section

variable (f : Fin 16 → Rlp) (last : Rlp)

@[simp] theorem withLast_length : (withLast f last).length = 17 := by
  simp [withLast]

@[simp] theorem withLast_getD (i : Fin 16) : (withLast f last).getD i.val .null = f i := by
  rw [List.getD_eq_getElem?_getD, withLast, List.getElem?_append_left (by simp),
    List.getElem?_ofFn, dif_pos i.isLt]
  rfl

@[simp] theorem withLast_getD_last : (withLast f last).getD 16 .null = last := by
  simp [withLast, List.getD_eq_getElem?_getD]

variable {f last} in
theorem withLast_ext {xs : List Rlp} (hlength : xs.length = 17)
    (h : ∀ i : Fin 16, xs.getD i .null = f i) (hlast : xs.getD 16 .null = last) :
    xs = withLast f last := by
  apply List.ext_getElem
  · rw [hlength, withLast_length]
  · intro i hi _
    rw [← List.getD_eq_getElem _ Rlp.null, ← List.getD_eq_getElem _ Rlp.null]
    rcases Nat.lt_or_ge i 16 with hlt | hge
    · rw [h ⟨i, hlt⟩]
      exact (withLast_getD f last ⟨i, hlt⟩).symm
    · obtain rfl : i = 16 := by omega
      rw [hlast, withLast_getD_last]

theorem getD_set (xs : List Rlp) {i : ℕ} (hi : i < xs.length) (j : ℕ) (r : Rlp) :
    (xs.set i r).getD j .null = if i = j then r else xs.getD j .null := by
  simp only [List.getD_eq_getElem?_getD, List.getElem?_set]
  split <;> simp

/-- Setting an item is an update. -/
@[simp] theorem withLast_set (i : Fin 16) (r : Rlp) :
    (withLast f last).set i r = withLast (Function.update f i r) last := by
  have hi : i.val < (withLast f last).length := by
    rw [withLast_length]
    omega
  apply withLast_ext
  · rw [List.length_set, withLast_length]
  · intro j
    rw [getD_set _ hi, withLast_getD, Function.update_apply]
    simp only [Fin.ext_iff, eq_comm]
  · rw [getD_set _ hi, if_neg (by omega), withLast_getD_last]

@[simp] theorem withLast_set_last (r : Rlp) :
    (withLast f last).set 16 r = withLast f r := by
  have hlt : 16 < (withLast f last).length := by simp
  apply withLast_ext
  · rw [List.length_set, withLast_length]
  · intro j
    rw [getD_set _ hlt, if_neg (by omega), withLast_getD]
  · rw [getD_set _ hlt, if_pos rfl]

theorem seventeen_eq : seventeen f = withLast f (.data []) := rfl

@[simp] theorem seventeen_length : (seventeen f).length = 17 := withLast_length f _

@[simp] theorem seventeen_getD (i : Fin 16) : (seventeen f).getD i.val .null = f i :=
  withLast_getD f _ i

@[simp] theorem seventeen_getD_last : (seventeen f).getD 16 .null = .data [] :=
  withLast_getD_last f _

@[simp] theorem seventeen_set (i : Fin 16) (r : Rlp) :
    (seventeen f).set i r = seventeen (Function.update f i r) := withLast_set f _ i r

end

theorem only_eq (i : Fin 16) (r : Rlp) :
    only i r = .list (seventeen (Function.update (fun _ => .data []) i r)) := by
  rw [← seventeen_set]
  rfl

/-! ## The node of a trie -/

section

variable (sha3 : Rlp → H256)

/-- How a node stands in the node above it. -/
def ref (r : Rlp) : Rlp := if size r < 32 then r else .ofHash 32 (sha3 r)

/-- The node of a trie. -/
def node : Map → Rlp
  | .empty => RLPNull
  | .leaf k v => pair k true (.data v)
  | .ext k c => pair k false (ref sha3 (node c))
  | .branch cs => .list (seventeen fun i => ref sha3 (node (cs i)))

/-- The reference to a node, if it is not part of the node above it. -/
def own (r : Rlp) : Multiset H256 := if size r < 32 then 0 else {sha3 r}

/-- The references in a node and below it, one for each place. -/
def refs : Map → Multiset H256
  | .empty => 0
  | .leaf _ _ => 0
  | .ext _ c => own sha3 (node sha3 c) + refs c
  | .branch cs => ∑ i, (own sha3 (node sha3 (cs i)) + refs (cs i))

/-- The references to a trie and in it. -/
def held (t : Map) : Multiset H256 := own sha3 (node sha3 t) + refs sha3 t

end

variable {sha3 : Rlp → H256} {t : Map}

@[simp] theorem isEmpty_pair (k : Nibbles) (leaf : Bool) (r : Rlp) :
    isEmpty (pair k leaf r) = false := rfl

@[simp] theorem isEmpty_withLast (f : Fin 16 → Rlp) (last : Rlp) :
    isEmpty (.list (withLast f last)) = false := by
  rw [withLast, List.ofFn_succ, List.cons_append]
  rfl

@[simp] theorem isEmpty_seventeen (f : Fin 16 → Rlp) : isEmpty (.list (seventeen f)) = false :=
  isEmpty_withLast f _

@[simp] theorem itemCount_pair (k : Nibbles) (leaf : Bool) (r : Rlp) :
    (pair k leaf r).itemCount = 2 := rfl

@[simp] theorem itemCount_withLast (f : Fin 16 → Rlp) (last : Rlp) :
    (Rlp.list (withLast f last)).itemCount = 17 := withLast_length f last

@[simp] theorem itemCount_seventeen (f : Fin 16 → Rlp) :
    (Rlp.list (seventeen f)).itemCount = 17 := seventeen_length f

@[simp] theorem entry_withLast (f : Fin 16 → Rlp) (last : Rlp) (i : Fin 16) :
    entry (.list (withLast f last)) i = f i := withLast_getD f last i

@[simp] theorem entry_withLast_last (f : Fin 16 → Rlp) (last : Rlp) :
    entry (.list (withLast f last)) 16 = last := withLast_getD_last f last

@[simp] theorem entry_seventeen (f : Fin 16 → Rlp) (i : Fin 16) :
    entry (.list (seventeen f)) i = f i := seventeen_getD f i

@[simp] theorem keyOfNode_pair (k : Nibbles) (leaf : Bool) (r : Rlp) :
    keyOfNode (pair k leaf r) = k := keyOf_hexPrefixEncode k leaf

@[simp] theorem isLeaf_pair (k : Nibbles) (leaf : Bool) (r : Rlp) :
    isLeaf (pair k leaf r) = leaf := isTerminated_hexPrefixEncode k leaf

@[simp] theorem entry_pair_one (k : Nibbles) (leaf : Bool) (r : Rlp) :
    entry (pair k leaf r) 1 = r := rfl

theorem entry_pair_zero (k : Nibbles) (leaf : Bool) (r s : Rlp) :
    .list [entry (pair k leaf r) 0, s] = pair k leaf s := rfl

@[simp] theorem size_RLPNull : size RLPNull = 1 := by decide

@[simp] theorem ref_RLPNull : ref sha3 RLPNull = RLPNull := if_pos (by simp)

@[simp] theorem own_RLPNull : own sha3 RLPNull = 0 := if_pos (by simp)

@[simp] theorem held_empty : held sha3 .empty = 0 := by
  rw [held, node, own_RLPNull]
  rfl

/-- Only the empty trie has an empty node. -/
theorem isEmpty_node (t : Map) : isEmpty (node sha3 t) = true ↔ t = .empty := by
  cases t with
  | empty => exact iff_of_true rfl rfl
  | leaf k v => exact iff_of_false (by simp [node]) (by simp)
  | ext k c => exact iff_of_false (by simp [node]) (by simp)
  | branch cs => exact iff_of_false (by simp [node]) (by simp)

variable (sha3) in
/-- The other nodes are lists. -/
theorem isList_node (ht : t ≠ .empty) : (node sha3 t).isList = true := by
  cases t with
  | empty => exact absurd rfl ht
  | leaf k v => rfl
  | ext k c => rfl
  | branch cs => rfl

theorem node_ne_null (t : Map) : node sha3 t ≠ .null := by
  cases t <;> simp [node, RLPNull, pair]

/-- A leaf or an extension. -/
def IsPair : Map → Prop
  | .leaf _ _ => True
  | .ext _ _ => True
  | _ => False

variable (sha3) in
theorem itemCount_node (t : Map) : (node sha3 t).itemCount = 2 ↔ IsPair t := by
  cases t with
  | empty => exact iff_of_false (show ¬(0 : ℕ) = 2 by decide) id
  | leaf k v => exact iff_of_true rfl trivial
  | ext k c => exact iff_of_true rfl trivial
  | branch cs => exact iff_of_false (by simp [node]) id

/-- The hash in a reference reads back. -/
@[simp] theorem toHash_ofHash (h : H256) : toHash (.ofHash 32 h) = some h := by
  have hread := Rlp.toHashLax_ofHash 32 h
  rw [Rlp.ofHash, Rlp.toHashLax, List.take_of_length_le (by simp)] at hread
  rw [Rlp.ofHash, toHash, if_neg (by simp), hread]

@[simp] theorem isEmpty_ofHash (h : H256) : isEmpty (.ofHash 32 h) = false := by
  have hlength := bigEndian_length 32 h.toNat
  rw [Rlp.ofHash]
  cases hbs : bigEndian 32 h.toNat with
  | nil =>
      rw [hbs] at hlength
      cases hlength
  | cons b bs => rfl

variable (sha3) in
/-- A node stands in the one above as it is, or as its hash. -/
theorem ref_or_hash (r : Rlp) :
    (size r < 32 ∧ ref sha3 r = r ∧ own sha3 r = 0) ∨
      (¬size r < 32 ∧ ref sha3 r = .ofHash 32 (sha3 r) ∧ own sha3 r = {sha3 r}) := by
  by_cases hsize : size r < 32
  · exact .inl ⟨hsize, if_pos hsize, if_pos hsize⟩
  · exact .inr ⟨hsize, if_neg hsize, if_neg hsize⟩

variable (sha3) in
/-- What stands in the node above: nothing, the node itself, or its hash. -/
theorem ref_cases (t : Map) :
    (t = .empty ∧ ref sha3 (node sha3 t) = RLPNull) ∨
      (t ≠ .empty ∧ size (node sha3 t) < 32 ∧ ref sha3 (node sha3 t) = node sha3 t ∧
        own sha3 (node sha3 t) = 0) ∨
      (t ≠ .empty ∧ ¬size (node sha3 t) < 32 ∧
        ref sha3 (node sha3 t) = .ofHash 32 (sha3 (node sha3 t)) ∧
        own sha3 (node sha3 t) = {sha3 (node sha3 t)}) := by
  by_cases ht : t = .empty
  · subst ht
    exact .inl ⟨rfl, ref_RLPNull⟩
  · exact .inr ((ref_or_hash sha3 (node sha3 t)).imp (fun h => ⟨ht, h⟩) fun h => ⟨ht, h⟩)

theorem isEmpty_ref (t : Map) : isEmpty (ref sha3 (node sha3 t)) = true ↔ t = .empty := by
  rcases ref_cases sha3 t with ⟨rfl, heq⟩ | ⟨ht, -, heq, -⟩ | ⟨ht, -, heq, -⟩
  · rw [heq]
    exact iff_of_true rfl rfl
  · rw [heq, isEmpty_node]
  · rw [heq, isEmpty_ofHash]
    exact iff_of_false Bool.false_ne_true ht

/-! ## What a database holds -/

/-- The nodes that a database may hold, and the references counted for others. -/
structure Ground where
  nodes : Set Rlp
  rest : H256 → ℕ

variable (sha3) in
/-- A database of such nodes with these references beside those of others. -/
structure Holds (S : Ground) (db : MemoryDB) (M : Multiset H256) : Prop where
  sound : ∀ {h v n}, db.m_main[h]? = some (v, n) → sha3 v = h ∧ v ∈ S.nodes
  count : ∀ h, db.count h = M.count h + S.rest h

variable {S : Ground} {db : MemoryDB} {M A B C : Multiset H256} {r : Rlp} {h : H256}

theorem Holds.kill (hdb : Holds sha3 S db ({h} + M)) : Holds sha3 S (db.kill h) M where
  sound := by
    intro h' v n hget
    rw [MemoryDB.getElem?_kill] at hget
    split at hget
    · next heq =>
        obtain ⟨⟨w, refs⟩, hentry, heq'⟩ := Option.map_eq_some_iff.mp hget
        obtain ⟨rfl, rfl⟩ := Prod.mk.inj heq'
        rw [← heq]
        exact hdb.sound hentry
    · exact hdb.sound hget
  count := by
    intro h'
    rw [MemoryDB.count_kill, hdb.count, Multiset.count_add, Multiset.count_singleton]
    simp only [eq_comm]
    omega

theorem Holds.insert (hr : r ∈ S.nodes) (hdb : Holds sha3 S db M) :
    Holds sha3 S (db.insert (sha3 r) r) ({sha3 r} + M) where
  sound := by
    intro h' v n hget
    rw [MemoryDB.getElem?_insert] at hget
    split at hget
    · next heq =>
        obtain ⟨rfl, -⟩ := Prod.mk.inj (Option.some.inj hget)
        exact ⟨heq, hr⟩
    · exact hdb.sound hget
  count := by
    intro h'
    rw [MemoryDB.count_insert, hdb.count, Multiset.count_add, Multiset.count_singleton]
    simp only [eq_comm]
    omega

/-- What is referred to is found: no other node of `S` has its hash. -/
theorem Holds.lookup (hinj : Set.InjOn sha3 S.nodes) (hr : r ∈ S.nodes)
    (hdb : Holds sha3 S db ({sha3 r} + M)) : db.lookup (sha3 r) = r := by
  have hpos : 0 < db.count (sha3 r) := by
    rw [hdb.count]
    exact Nat.add_pos_left (Multiset.count_pos.mpr (by simp)) _
  obtain ⟨n, hentry⟩ := MemoryDB.lookup_of_count_pos hpos
  obtain ⟨hhash, hmem⟩ := hdb.sound hentry
  exact hinj hmem hr hhash

/-! ## Steps on a database -/

variable (sha3 S) in
/-- The step gives `x` and turns the references `A` into `B`, whatever else the database holds. -/
def Turns {α : Type} (f : MemoryDB → Option (α × MemoryDB)) (A : Multiset H256) (x : α)
    (B : Multiset H256) : Prop :=
  ∀ db M, Holds sha3 S db (A + M) → ∃ db', f db = some (x, db') ∧ Holds sha3 S db' (B + M)

variable {α β : Type} {f : MemoryDB → Option (α × MemoryDB)} {x : α} {y : β}

/-- More may be held than the step needs. -/
theorem Turns.frame (hf : Turns sha3 S f A x B) (C : Multiset H256) :
    Turns sha3 S f (A + C) x (B + C) := by
  intro db M hdb
  rw [add_assoc] at hdb ⊢
  exact hf db (C + M) hdb

/-- Steps follow each other. -/
theorem Turns.bind {g : α → MemoryDB → Option (β × MemoryDB)} (hf : Turns sha3 S f A x B)
    (hg : Turns sha3 S (g x) B y C) :
    Turns sha3 S (fun db => (f db).bind fun p => g p.1 p.2) A y C := by
  intro db M hdb
  obtain ⟨db₁, hrun, hdb₁⟩ := hf db M hdb
  obtain ⟨db₂, hrun', hdb₂⟩ := hg db₁ M hdb₁
  exact ⟨db₂, by simp only [hrun, Option.bind_some, hrun'], hdb₂⟩

theorem Turns.congr {f' : MemoryDB → Option (α × MemoryDB)} (h : ∀ db, f' db = f db)
    (hf : Turns sha3 S f A x B) : Turns sha3 S f' A x B := by
  intro db M hdb
  rw [h]
  exact hf db M hdb

/-- A step that leaves the database alone. -/
theorem Turns.pure : Turns sha3 S (fun db => some (x, db)) A x A := fun db _ hdb => ⟨db, rfl, hdb⟩

theorem Holds.killNode (hdb : Holds sha3 S db (own sha3 r + M)) :
    Holds sha3 S (killNode sha3 r db) M := by
  rw [Trie.killNode, killNodeAt]
  rw [own] at hdb
  by_cases hsize : size r < 32
  · rw [if_pos hsize, zero_add] at hdb
    rwa [if_neg (by omega)]
  · rw [if_neg hsize] at hdb
    rw [if_pos (by omega)]
    exact hdb.kill

theorem Holds.streamNode (hr : r ∈ S.nodes) (hdb : Holds sha3 S db M) :
    (streamNode sha3 r db).1 = ref sha3 r ∧
      Holds sha3 S (streamNode sha3 r db).2 (own sha3 r + M) := by
  rw [Trie.streamNode, ref, own]
  split
  · exact ⟨rfl, by rwa [zero_add]⟩
  · exact ⟨rfl, hdb.insert hr⟩

/-- A killed node gives its reference back. -/
theorem turns_killNode (r : Rlp) (x : α) :
    Turns sha3 S (fun db => some (x, killNode sha3 r db)) (own sha3 r + A) x A := by
  intro db M hdb
  rw [add_assoc] at hdb
  exact ⟨_, rfl, hdb.killNode⟩

/-- A streamed node takes one. -/
theorem turns_streamNode (hr : r ∈ S.nodes) :
    Turns sha3 S (fun db => some (streamNode sha3 r db)) A (ref sha3 r) (own sha3 r + A) := by
  intro db M hdb
  obtain ⟨heq, hdb'⟩ := hdb.streamNode hr
  refine ⟨_, congrArg some (Prod.ext heq rfl), ?_⟩
  rwa [add_assoc]

/-! ## Where the nodes come from -/

variable (sha3 S) in
/-- The nodes of `S` include those of whatever is below a prefix of the keys of `t`. -/
def Within (n : ℕ) (t : Map) : Prop :=
  ∀ p u, p.length ≤ n → Patricia.Slot (n - p.length) u → Patricia.Below p t u → node sha3 u ∈ S.nodes

theorem Within.node_mem {n : ℕ} (h : Within sha3 S n t) (ht : Patricia.Slot n t) :
    node sha3 t ∈ S.nodes :=
  h [] t (Nat.zero_le n) ht fun _ => rfl

theorem Within.below {n m : ℕ} {p : Nibbles} {u : Map} (h : Within sha3 S n t)
    (hn : p.length + m = n) (hu : Patricia.Below p t u) : Within sha3 S m u := by
  intro q w hq hslot hw
  refine h (p ++ q) w (by rw [List.length_append]; omega) ?_ fun k => ?_
  · rwa [List.length_append, ← hn, Nat.add_sub_add_left]
  · rw [hw, hu, List.append_assoc]

end CppSwc.Trie
