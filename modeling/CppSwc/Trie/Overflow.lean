import CppSwc.Trie.References

/-!
# More references than a count can hold

A run that inserts one value under every key of four bytes makes 2^32 references to one leaf, and
a count of 32 bits cannot say so.  That this has nothing to do with colliding hashes takes a hash
that tells the nodes of the run apart.  There is one for every run that is not far too long: each
node of the run is given a number.
-/

namespace CppSwc.Trie

open Lib Std

/-! ## Numbers for nodes -/

section

variable {code : Map → H256} {A : Set Map} {t u c d : Map}

/-- What stands in the node above, by the node and its number. -/
def refBy (r : Rlp) (h : H256) : Rlp := if size r < 32 then r else .ofHash 32 h

/-- The node of a trie where the hash of a node is a number for its trie. -/
def nodeBy (code : Map → H256) : Map → Rlp
  | .empty => RLPNull
  | .leaf k v => pair k true (.data v)
  | .ext k c => pair k false (refBy (nodeBy code c) (code c))
  | .branch cs => .list (seventeen fun i => refBy (nodeBy code (cs i)) (code (cs i)))

/-- The children of tries in the set are in the set. -/
def Closed (A : Set Map) : Prop :=
  (∀ k c, .ext k c ∈ A → c ∈ A) ∧ ∀ cs, .branch cs ∈ A → ∀ i, cs i ∈ A

theorem nodeBy_ne_ofHash (t : Map) (h : H256) : nodeBy code t ≠ .ofHash 32 h := by
  intro heq
  cases t with
  | empty =>
      have hempty := isEmpty_ofHash h
      rw [← heq] at hempty
      cases hempty
  | leaf k v => cases heq
  | ext k c => cases heq
  | branch cs => cases heq

/-- A reference tells which child it refers to, if the node does. -/
theorem eq_of_refBy (hcode : Set.InjOn code A) (hc : c ∈ A) (hd : d ∈ A)
    (hnode : nodeBy code c = nodeBy code d → c = d)
    (h : refBy (nodeBy code c) (code c) = refBy (nodeBy code d) (code d)) : c = d := by
  rw [refBy, refBy] at h
  split at h
  · split at h
    · exact hnode h
    · exact absurd h (nodeBy_ne_ofHash c _)
  · split at h
    · exact absurd h.symm (nodeBy_ne_ofHash d _)
    · have hhash := congrArg toHash h
      rw [toHash_ofHash, toHash_ofHash] at hhash
      exact hcode hc hd (Option.some.inj hhash)

theorem pair_injective {k k' : Nibbles} {leaf leaf' : Bool} {r r' : Rlp}
    (h : pair k leaf r = pair k' leaf' r') : k = k' ∧ leaf = leaf' ∧ r = r' := by
  refine ⟨?_, ?_, ?_⟩
  · rw [← keyOfNode_pair k leaf r, h, keyOfNode_pair]
  · rw [← isLeaf_pair k leaf r, h, isLeaf_pair]
  · rw [← entry_pair_one k leaf r, h, entry_pair_one]

/-- The nodes of different tries are different. -/
theorem nodeBy_injOn (hclosed : Closed A) (hcode : Set.InjOn code A) :
    Set.InjOn (nodeBy code) A := by
  intro t ht
  induction t with
  | empty =>
      intro u _ h
      cases u with
      | empty => rfl
      | leaf k v => cases h
      | ext k c => cases h
      | branch cs => cases h
  | leaf k v =>
      intro u _ h
      cases u with
      | empty => cases h
      | leaf k' v' =>
          obtain ⟨rfl, -, hv⟩ := pair_injective h
          cases hv
          rfl
      | ext k' c =>
          obtain ⟨-, hleaf, -⟩ := pair_injective h
          cases hleaf
      | branch cs =>
          have hlength := congrArg Rlp.itemCount h
          cases hlength
  | ext k c ih =>
      intro u hu h
      cases u with
      | empty => cases h
      | leaf k' v' =>
          obtain ⟨-, hleaf, -⟩ := pair_injective h
          cases hleaf
      | ext k' d =>
          obtain ⟨rfl, -, hr⟩ := pair_injective h
          have hc := hclosed.1 _ _ ht
          have hd := hclosed.1 _ _ hu
          rw [eq_of_refBy hcode hc hd (ih hc hd) hr]
      | branch cs =>
          have hlength := congrArg Rlp.itemCount h
          cases hlength
  | branch cs ih =>
      intro u hu h
      cases u with
      | empty => cases h
      | leaf k' v' =>
          have hlength := congrArg Rlp.itemCount h
          cases hlength
      | ext k' d =>
          have hlength := congrArg Rlp.itemCount h
          cases hlength
      | branch ds =>
          congr 1
          funext i
          have hentry := congrArg (entry · i.val) h
          simp only [nodeBy, entry_seventeen] at hentry
          have hc := hclosed.2 _ ht i
          have hd := hclosed.2 _ hu i
          exact eq_of_refBy hcode hc hd (ih i hc hd) hentry

/-- So the numbers are a hash that tells the nodes apart. -/
theorem exists_hash_of_code (hclosed : Closed A) (hcode : Set.InjOn code A) :
    ∃ sha3 : Rlp → H256, Set.InjOn sha3 (node sha3 '' A) := by
  classical
  have hinj := nodeBy_injOn hclosed hcode
  let sha3 : Rlp → H256 := fun r => if h : ∃ t ∈ A, nodeBy code t = r then code h.choose else 0
  have hsha3 : ∀ t ∈ A, sha3 (nodeBy code t) = code t := by
    intro t ht
    have hex : ∃ u ∈ A, nodeBy code u = nodeBy code t := ⟨t, ht, rfl⟩
    show dite _ _ _ = _
    rw [dif_pos hex]
    exact congrArg code (hinj hex.choose_spec.1 ht hex.choose_spec.2)
  have hnode : ∀ t ∈ A, node sha3 t = nodeBy code t := by
    intro t
    induction t with
    | empty => exact fun _ => rfl
    | leaf k v => exact fun _ => rfl
    | ext k c ih =>
        intro ht
        have hc := hclosed.1 _ _ ht
        rw [node, nodeBy, ih hc, ref, refBy, hsha3 c hc]
    | branch cs ih =>
        intro ht
        rw [node, nodeBy]
        congr 2
        funext i
        have hc := hclosed.2 _ ht i
        rw [ih i hc, ref, refBy, hsha3 _ hc]
  refine ⟨sha3, ?_⟩
  rintro _ ⟨t, ht, rfl⟩ _ ⟨u, hu, rfl⟩ heq
  rw [hnode t ht, hnode u hu, hsha3 t ht, hsha3 u hu] at heq
  rw [hcode ht hu heq]

end

/-! ## The nodes of a run -/

section

variable {n : ℕ} {m : BytesMap} {t u : Map} {p q : Nibbles} {ops before : List Op}

theorem exists_lists {s : List Entry} (hs : Segment p n s) :
    ∃ t, Patricia.Slot n t ∧ Lists p s t := by
  obtain ⟨t, -, ht⟩ := @exists_hash256rlp smallHash p n (n + 1) s hs n.lt_succ_self
  exact ⟨t, ht⟩

/-- There is a canonical trie for a map. -/
theorem exists_agrees (hm : KeyLength n m) :
    ∃ t, Patricia.Slot (2 * n) t ∧ Agrees m t := by
  obtain ⟨t, hslot, hlists⟩ := exists_lists (segment_entriesOf hm)
  exact ⟨t, hslot, fun k v => (hlists k v).trans (mem_entriesOf m k v)⟩

/-- And one for what is behind a prefix of its keys. -/
theorem exists_below (hm : KeyLength n m) (ht : Agrees m t) (hp : p.length ≤ 2 * n) :
    ∃ u, Patricia.Slot (2 * n - p.length) u ∧ Patricia.Below p t u := by
  have hseg : Segment p (2 * n - p.length) ((entriesOf m).filter fun e => p <+: e.1) :=
    ((segment_entriesOf hm).filter _).extend (by omega) fun e he =>
      of_decide_eq_true (List.mem_filter.mp he).2
  obtain ⟨u, hslot, hlists⟩ := exists_lists hseg
  refine ⟨u, hslot, fun k => Option.ext fun v => ?_⟩
  rw [hlists, ht, ← mem_entriesOf, List.mem_filter, decide_eq_true_iff]
  exact and_iff_left (List.prefix_append p k)

/-- Behind what is longer than the keys there is nothing. -/
theorem nodeAt_of_long (sha3 : Rlp → H256) (hm : KeyLength n m) (hp : 2 * n < p.length) :
    nodeAt sha3 m p = some RLPNull := by
  have hnil : (entriesOf m).filter (fun e => p <+: e.1) = [] := by
    refine List.filter_eq_nil_iff.mpr fun e he hpe => ?_
    obtain ⟨k, hk, heq⟩ := (segment_entriesOf hm).keys e he
    have hle := (of_decide_eq_true hpe).length_le
    rw [heq, List.nil_append, hk] at hle
    omega
  rw [nodeAt, hnil]
  rfl

/-- The trie behind a prefix of the keys, when these calls are made. -/
structure At (n : ℕ) (before : List Op) (p : Nibbles) (u : Map) : Prop where
  le : p.length ≤ 2 * n
  slot : Patricia.Slot (2 * n - p.length) u
  below : ∃ t, Patricia.Slot (2 * n) t ∧ Agrees (contents before) t ∧ Patricia.Below p t u

theorem At.eq {u' : Map} (h : At n before p u) (h' : At n before p u') : u = u' := by
  obtain ⟨t, hslot, ht, hu⟩ := h.below
  obtain ⟨t', hslot', ht', hu'⟩ := h'.below
  have heq : t = t' := hslot.eq_of_lookup hslot' fun k => Option.ext fun v => by rw [ht, ht']
  exact h.slot.eq_of_lookup h'.slot fun k => by rw [hu, hu', heq]

/-- The tries that a run goes through, and those in them. -/
def tries (n : ℕ) (ops : List Op) : Set Map := { u | ∃ before p, before <+: ops ∧ At n before p u }

theorem closed_tries : Closed (tries n ops) := by
  refine ⟨?_, ?_⟩
  · rintro k c ⟨before, p, hbefore, hle, hslot, t, hslot', ht, hu⟩
    obtain ⟨cs, l, rfl, -, hl, hcanonical⟩ := hslot.of_ext
    refine ⟨before, p ++ k, hbefore, ?_, ?_, t, hslot', ht, fun q => ?_⟩
    · rw [List.length_append]
      omega
    · rw [List.length_append, ← Nat.sub_sub, ← hl, Nat.add_sub_cancel_left]
      exact fun _ => hcanonical
    · rw [List.append_assoc, ← hu, Patricia.lookup_ext_append]
  · rintro cs ⟨before, p, hbefore, hle, hslot, t, hslot', ht, hu⟩ i
    obtain ⟨l, hl, -, hcs⟩ := hslot.of_branch
    refine ⟨before, p ++ [i], hbefore, ?_, ?_, t, hslot', ht, fun q => ?_⟩
    · rw [List.length_append, List.length_singleton]
      omega
    · rw [List.length_append, ← Nat.sub_sub, hl]
      exact hcs i
    · rw [List.append_assoc, ← hu]
      rfl

/-- A number for a prefix. -/
def prefixNumber : Nibbles → ℕ
  | [] => 1
  | i :: p => prefixNumber p * 16 + i.val

theorem prefixNumber_pos (p : Nibbles) : 0 < prefixNumber p := by
  induction p with
  | nil => exact Nat.one_pos
  | cons i p ih => rw [prefixNumber]; omega

theorem prefixNumber_lt (p : Nibbles) : prefixNumber p < 2 * 16 ^ p.length := by
  induction p with
  | nil => decide
  | cons i p ih =>
      rw [prefixNumber, List.length_cons, pow_succ]
      omega

theorem prefixNumber_injective (h : prefixNumber p = prefixNumber q) : p = q := by
  induction p generalizing q with
  | nil =>
      cases q with
      | nil => rfl
      | cons j q =>
          have hpos := prefixNumber_pos q
          rw [prefixNumber, prefixNumber] at h
          omega
  | cons i p ih =>
      cases q with
      | nil =>
          have hpos := prefixNumber_pos p
          rw [prefixNumber, prefixNumber] at h
          omega
      | cons j q =>
          rw [prefixNumber, prefixNumber] at h
          have hi : i = j := Fin.ext (by omega)
          have hpq : prefixNumber p = prefixNumber q := by omega
          rw [hi, ih hpq]

/-- A number for a trie that a run goes through. -/
theorem exists_code (hops : ops.length < 2 ^ 64) (hn : n < 16) :
    ∃ code : Map → H256, Set.InjOn code (tries n ops) := by
  classical
  let code : Map → H256 := fun u =>
    if h : ∃ x : List Op × Nibbles, x.1 <+: ops ∧ At n x.1 x.2 u then
      BitVec.ofNat 256 (h.choose.1.length * 2 ^ 128 + prefixNumber h.choose.2)
    else 0
  have hnumber : ∀ u ∈ tries n ops, ∃ before p, before <+: ops ∧ At n before p u ∧
      (code u).toNat = before.length * 2 ^ 128 + prefixNumber p ∧ prefixNumber p < 2 ^ 128 := by
    rintro u ⟨before, p, hbefore, hat⟩
    have hex : ∃ x : List Op × Nibbles, x.1 <+: ops ∧ At n x.1 x.2 u := ⟨(before, p), hbefore, hat⟩
    obtain ⟨hbefore', hat'⟩ := hex.choose_spec
    have hlt : prefixNumber hex.choose.2 < 2 ^ 128 := by
      have hpow : 16 ^ hex.choose.2.length ≤ 16 ^ 30 :=
        Nat.pow_le_pow_right (by decide) (by have hle := hat'.le; omega)
      have hbound := prefixNumber_lt hex.choose.2
      omega
    refine ⟨_, _, hbefore', hat', ?_, hlt⟩
    have hle := hbefore'.length_le
    show BitVec.toNat (dite _ _ _) = _
    rw [dif_pos hex, BitVec.toNat_ofNat]
    exact Nat.mod_eq_of_lt (by omega)
  refine ⟨code, fun u hu u' hu' heq => ?_⟩
  obtain ⟨before, p, hbefore, hat, hcode, hlt⟩ := hnumber u hu
  obtain ⟨before', p', hbefore', hat', hcode', hlt'⟩ := hnumber u' hu'
  rw [heq, hcode'] at hcode
  have hlength : before'.length = before.length := by omega
  have hsame : before = before' :=
    (List.prefix_of_prefix_length_le hbefore hbefore' hlength.ge).eq_of_length hlength.symm
  have hp : p = p' := prefixNumber_injective (by omega)
  subst hsame hp
  exact hat.eq hat'

theorem KeyLength.foldl (hm : KeyLength n m) (hlength : ∀ op ∈ ops, op.key.length = n) :
    KeyLength n (ops.foldl (fun m op => op.write m) m) := by
  induction ops generalizing m with
  | nil => exact hm
  | cons op ops ih =>
      exact ih (hm.write (hlength op List.mem_cons_self)) fun o ho =>
        hlength o (List.mem_cons_of_mem op ho)

theorem keyLength_contents (hlength : ∀ op ∈ ops, op.key.length = n) :
    KeyLength n (contents ops) := by
  refine KeyLength.foldl (fun key v hget => ?_) hlength
  rw [ExtTreeMap.getElem?_empty] at hget
  cases hget

theorem involved_subset (sha3 : Rlp → H256) (hlength : ∀ op ∈ ops, op.key.length = n) :
    involved sha3 ops ⊆ node sha3 '' tries n ops := by
  rintro r ⟨before, p, hbefore, hr⟩
  have hm := keyLength_contents fun op hop => hlength op (hbefore.mem hop)
  obtain ⟨t, hslot, ht⟩ := exists_agrees hm
  rcases Nat.lt_or_ge (2 * n) p.length with hlong | hp
  · rw [nodeAt_of_long sha3 hm hlong] at hr
    cases hr
    refine ⟨.empty, ⟨[], [], List.nil_prefix, Nat.zero_le _, fun h => absurd rfl h, .empty,
      fun h => absurd rfl h, fun k v => iff_of_false (by simp) ?_, fun _ => rfl⟩, rfl⟩
    rintro ⟨key, -, hget⟩
    rw [contents, List.foldl_nil, ExtTreeMap.getElem?_empty] at hget
    cases hget
  · obtain ⟨u, hslot', hu⟩ := exists_below hm ht hp
    rw [nodeAt_eq sha3 hm ht hp hslot' hu] at hr
    cases hr
    exact ⟨u, ⟨before, p, hbefore, hp, hslot', t, hslot, ht, hu⟩, rfl⟩

/-- There is a hash that tells the nodes of a run apart, unless the run is far too long. -/
theorem exists_hash (hlength : ∀ op ∈ ops, op.key.length = n) (hops : ops.length < 2 ^ 64)
    (hn : n < 16) : ∃ sha3 : Rlp → H256, Set.InjOn sha3 (involved sha3 ops) := by
  obtain ⟨code, hcode⟩ := exists_code hops hn
  obtain ⟨sha3, hinj⟩ := exists_hash_of_code closed_tries hcode
  exact ⟨sha3, hinj.mono (involved_subset sha3 hlength)⟩

end

/-! ## One value under every key -/

/-- A value that makes a leaf longer than a hash. -/
def longValue : Bytes := List.replicate 33 1

/-- The trie with this value under every key of a length. -/
def fullTrie : ℕ → Map
  | 0 => .leaf [] longValue
  | n + 1 => .branch fun _ => fullTrie n

theorem fullTrie_ne_empty (n : ℕ) : fullTrie n ≠ .empty := by
  cases n with
  | zero => simp [fullTrie]
  | succ n => simp [fullTrie]

theorem canonical_fullTrie (n : ℕ) : Patricia.Canonical n (fullTrie n) := by
  induction n with
  | zero => exact .leaf rfl
  | succ n ih =>
      have hne := fullTrie_ne_empty n
      exact .branch ⟨0, 1, by decide, hne, hne⟩ fun _ _ => ih

theorem lookup_fullTrie (n : ℕ) (k : Nibbles) :
    (fullTrie n).lookup k = if k.length = n then some longValue else none := by
  induction n generalizing k with
  | zero => simp only [fullTrie, Patricia.lookup_leaf, List.length_eq_zero_iff]
  | succ n ih =>
      cases k with
      | nil => rfl
      | cons i k =>
          rw [fullTrie, Patricia.lookup_branch_cons, ih, List.length_cons]
          simp only [Nat.add_right_cancel_iff]

/-- The leaf of this trie. -/
def commonLeaf : Rlp := pair [] true (.data longValue)

theorem count_refs_fullTrie (sha3 : Rlp → H256) (n : ℕ) :
    (refs sha3 (fullTrie (n + 1))).count (sha3 commonLeaf) =
      16 * (held sha3 (fullTrie n)).count (sha3 commonLeaf) := by
  have hrefs : refs sha3 (fullTrie (n + 1)) = ∑ _i : Fin 16, held sha3 (fullTrie n) := rfl
  rw [hrefs, Multiset.count_sum', Finset.sum_const, Finset.card_univ, Fintype.card_fin,
    smul_eq_mul]

/-- There is a reference to the leaf for each key. -/
theorem le_count_held_fullTrie (sha3 : Rlp → H256) (n : ℕ) :
    16 ^ n ≤ (held sha3 (fullTrie n)).count (sha3 commonLeaf) := by
  induction n with
  | zero =>
      have hsize : ¬size commonLeaf < 32 := by decide
      have hown : own sha3 commonLeaf = {sha3 commonLeaf} := if_neg hsize
      show 1 ≤ (own sha3 commonLeaf + 0).count (sha3 commonLeaf)
      rw [hown, add_zero, Multiset.count_singleton_self]
  | succ n ih =>
      rw [held, Multiset.count_add, count_refs_fullTrie, pow_succ]
      omega

/-- Every key of a length. -/
def everyKey : ℕ → List Bytes
  | 0 => [[]]
  | n + 1 => (List.range 256).flatMap fun b => (everyKey n).map (UInt8.ofNat b :: ·)

/-- The value is inserted under every key of four bytes. -/
def insertEverywhere : List Op := (everyKey 4).map fun key => .insert key longValue

theorem mem_everyKey {n : ℕ} {key : Bytes} : key ∈ everyKey n ↔ key.length = n := by
  induction n generalizing key with
  | zero => rw [everyKey, List.mem_singleton, List.length_eq_zero_iff]
  | succ n ih =>
      rw [everyKey, List.mem_flatMap]
      constructor
      · rintro ⟨b, -, hmem⟩
        obtain ⟨rest, hrest, rfl⟩ := List.mem_map.mp hmem
        rw [List.length_cons, ih.mp hrest]
      · intro hlength
        cases key with
        | nil => cases hlength
        | cons b rest =>
            refine ⟨b.toNat, List.mem_range.mpr b.toNat_lt, List.mem_map.mpr ⟨rest, ?_, ?_⟩⟩
            · exact ih.mpr (Nat.succ.inj hlength)
            · rw [UInt8.ofNat_toNat]

theorem length_everyKey (n : ℕ) : (everyKey n).length = 256 ^ n := by
  induction n with
  | zero => rfl
  | succ n ih =>
      rw [everyKey, List.length_flatMap]
      simp only [List.length_map, ih, List.map_const', List.length_range, List.sum_replicate,
        smul_eq_mul, pow_succ, Nat.mul_comm]

theorem getElem?_foldl_insert_const (keys : List Bytes) (v : Bytes) (m : BytesMap) (key : Bytes) :
    ((keys.map fun key => Op.insert key v).foldl (fun m op => op.write m) m)[key]? =
      if key ∈ keys then some v else m[key]? := by
  induction keys generalizing m with
  | nil => rfl
  | cons k keys ih =>
      rw [List.map_cons, List.foldl_cons, ih, Op.write_insert]
      by_cases hmem : key ∈ keys
      · rw [if_pos hmem, if_pos (List.mem_cons_of_mem k hmem)]
      · rw [if_neg hmem]
        simp only [List.mem_cons, hmem, or_false]

theorem agrees_fullTrie : Agrees (contents insertEverywhere) (fullTrie 8) := by
  intro k v
  rw [lookup_fullTrie]
  have hget : ∀ key : Bytes, (contents insertEverywhere)[key]? =
      if key.length = 4 then some longValue else none := by
    intro key
    rw [contents, insertEverywhere, getElem?_foldl_insert_const, ExtTreeMap.getElem?_empty]
    simp only [mem_everyKey]
  constructor
  · intro h
    split at h
    · next hk =>
        have hpacked := asNibbles_packed k (by omega)
        refine ⟨packed k, hpacked, ?_⟩
        have hlength := asNibbles_length (packed k)
        rw [hpacked] at hlength
        rw [hget, if_pos (by omega), h]
    · cases h
  · rintro ⟨key, rfl, hkey⟩
    rw [hget] at hkey
    split at hkey
    · next hlength => rw [if_pos (by rw [asNibbles_length]; omega), hkey]
    · cases hkey

/-- Whatever the counts are, the strings are the same, as long as the database does not read the
counts. -/
theorem counts_strings :
    Counts false (fun (_ : ℕ) (_ : BitVec 32) => True) fun _ => False where
  zero := trivial
  inc _ := .inr trivial
  killed _ := trivial
  isPos h := by cases h
  over_inc := id
  over_killed := id

/-- The leaf gets 2^32 references, which no count of 32 bits says. -/
theorem insertEverywhere_not_counted :
    ∃ sha3 : Rlp → H256, Set.InjOn sha3 (involved sha3 insertEverywhere) ∧
      ∃ g, (GenericTrieDB.init sha3 ({} : MemoryDB (BitVec 32))).bind
          (runOps sha3 insertEverywhere) = some g ∧ ¬CountsReferences BitVec.toNat 4 g := by
  have hlength : ∀ op ∈ insertEverywhere, op.key.length = 4 := by
    intro op hop
    obtain ⟨key, hkey, rfl⟩ := List.mem_map.mp hop
    exact mem_everyKey.mp hkey
  have hcount : insertEverywhere.length = 2 ^ 32 := by
    rw [insertEverywhere, List.length_map, length_everyKey]
    rfl
  obtain ⟨sha3, hinj⟩ := exists_hash hlength (by rw [hcount]; decide) (by decide)
  have hground : (ground sha3 {} insertEverywhere).nodes = involved sha3 insertEverywhere := by
    refine Set.union_eq_right.mpr ?_
    rintro v ⟨h, c, hentry⟩
    rw [show (({} : MemoryDB).m_main)[h]? = none from ExtTreeMap.getElem?_empty] at hentry
    cases hentry
  have hinj' : Set.InjOn sha3 (ground sha3 {} insertEverywhere).nodes := by rwa [hground]
  obtain ⟨g, t, hrun, hg⟩ := represents_run filed_empty hlength hinj'
  have hfull : t = fullTrie 8 := hg.slot.eq_of_lookup (fun _ => canonical_fullTrie 8) fun k =>
    Option.ext fun v => by rw [hg.agrees, agrees_fullTrie]
  -- The walk meets the leaf once for each key.
  have hmeets : 2 ^ 32 ≤ (walk g.m_db 9 g.m_root).count (sha3 commonLeaf) := by
    have hdepth : 2 * 4 < 9 := by decide
    have hwalk := hg.count_eq hinj' hdepth (sha3 commonLeaf)
    rw [hg.holds.count, Multiset.count_add, hfull, count_refs_fullTrie] at hwalk
    have hheld := le_count_held_fullTrie sha3 7
    omega
  have hempty : Alike false (fun _ _ => True) ({} : MemoryDB) ({} : MemoryDB (BitVec 32)) :=
    alike_empty rfl rfl rfl rfl
  rcases run_of_alike counts_strings sha3 hempty hrun with
    ⟨_, _, _, hfalse⟩ | ⟨g', hrun', hroot, hg'⟩
  · exact absurd hfalse id
  refine ⟨sha3, hinj, g', hrun', fun hcounts => ?_⟩
  have hsame := (hcounts (sha3 commonLeaf)).2 9 (by decide)
  rw [hroot, walk_congr fun x => (hg'.lookup counts_strings x).symm] at hsame
  have hlt := (g'.m_db.count (sha3 commonLeaf)).isLt
  omega

end CppSwc.Trie
