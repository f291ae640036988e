import CppSwc.Lib.PatriciaOrder
import CppSwc.Trie.Contents

/-!
# Iterating over a trie

`GenericTrieDB::iterator` keeps a trail of the nodes from the root to the one it is at.  A node
of the trail is about to be entered, or a leaf that is shown, or a branch that has been entered
up to one of its children; an extension gives its place to the node behind it.

The trail of an iterator stands for the entries that are still to come (`Frame.pending`).  One
`next` shows the first of them and leaves the others (`nextFrom_shows`), and the one that looks
for a key first drops those before the key.
-/

namespace CppSwc.Trie

open Lib

/-! ## The iterator -/

/-- `iterator::Node`. -/
structure IterNode where
  rlp : Rlp
  key : Bytes
  child : ℕ

/-- `incrementChild`. -/
def IterNode.incrementChild (b : IterNode) : IterNode :=
  { b with child := if b.child = 16 then 0 else if b.child = 15 then 17 else b.child + 1 }

/-- `iterator`.  The trail is listed from its back. -/
structure Iterator where
  m_trail : List IterNode := []
  m_that : Option MemoryDB := none

/-- `RLP::payload`. -/
def payload : Rlp → Bytes
  | .null => []
  | .data bs => bs
  | .list xs => Rlp.encodeItems xs

/-- `isEarlierThan`. -/
def isEarlierThan : Nibbles → Nibbles → Bool
  | a :: k, b :: l => if a < b then true else if b < a then false else isEarlierThan k l
  | [], _ :: _ => true
  | _, [] => false

/-- `m_that->deref`. -/
def deref (that : Option MemoryDB) (r : Rlp) : Option Rlp :=
  that.bind fun db => if r.isList then some r else (toHash r).map db.lookup

/-- The loop of `next` over the children, as far as nothing is there. -/
def IterNode.search : ℕ → IterNode → IterNode
  | 0, b => b
  | n + 1, b =>
      if b.child = 17 ∨ ¬isEmpty (entry b.rlp b.child) then b else search n b.incrementChild

/-- What `next` does where the loop ends: it pops the node, stops at its value, or enters the
child. -/
def visit (that : Option MemoryDB) (next : List IterNode → Option Iterator) (b : IterNode)
    (trail : List IterNode) : Option Iterator :=
  if b.child = 17 then next trail
  else if b.child = 16 then some ⟨b :: trail, that⟩
  else (deref that (entry b.rlp b.child)).bind fun rlp =>
    next (⟨rlp, hexPrefixEncode (keyOf b.key ++ [nibbleOf b.child]) false, 255⟩ :: b :: trail)

/-- `next`. -/
def next (that : Option MemoryDB) : ℕ → List IterNode → Option Iterator
  | 0, _ => none
  | _ + 1, [] => some {}
  | fuel + 1, b :: trail =>
      if b.child = 255 then
        if isEmpty b.rlp then next that fuel trail
        else if b.rlp.itemCount = 2 then
          let key := hexPrefixEncode (keyOf b.key ++ keyOfNode b.rlp) false
          if isLeaf b.rlp then some ⟨⟨b.rlp, key, 0⟩ :: trail, that⟩
          else (deref that (entry b.rlp 1)).bind fun rlp =>
            next that fuel (⟨rlp, key, b.child⟩ :: trail)
        else if b.rlp.itemCount = 17 then
          visit that (next that fuel) (({ b with child := 16 } : IterNode).search 18) trail
        else some ⟨b :: trail, none⟩
      else if b.rlp.itemCount = 17 then
        visit that (next that fuel) (b.incrementChild.search 18) trail
      else next that fuel trail

/-- The same with a key, which is cleared when the child that it leads to is not there. -/
def visitFrom (that : Option MemoryDB) (next : Nibbles → List IterNode → Option Iterator)
    (b : IterNode) (k : Nibbles) (trail : List IterNode) : Option Iterator :=
  let found := b.search 18
  let k := if found.child = b.child ∧ found.child ≠ 17 then k else []
  visit that (next k) found trail

/-- A branch is entered at the child that the key leads to, or at its value. -/
def enterFrom (that : Option MemoryDB) (next : Nibbles → List IterNode → Option Iterator)
    (b : IterNode) (k : Nibbles) (trail : List IterNode) : Option Iterator :=
  match k with
  | [] => visitFrom that next { b with child := 16 } [] trail
  | i :: k => visitFrom that next { b with child := i } k trail

/-- `next` with a key. -/
def nextFrom (that : Option MemoryDB) : ℕ → Nibbles → List IterNode → Option Iterator
  | 0, _, _ => none
  | _ + 1, _, [] => some {}
  | fuel + 1, k, b :: trail =>
      if b.child = 255 then
        if isEmpty b.rlp then nextFrom that fuel [] trail
        else if b.rlp.itemCount = 2 then
          let keyOfRLP := keyOfNode b.rlp
          if ¬keyOfRLP <+: k ∧ ¬isEarlierThan k keyOfRLP then nextFrom that fuel [] trail
          else
            let k := if keyOfRLP <+: k then k else []
            let k := k.drop (min k.length keyOfRLP.length)
            let key := hexPrefixEncode (keyOf b.key ++ keyOfRLP) false
            if isLeaf b.rlp then
              if k = [] then some ⟨⟨b.rlp, key, 0⟩ :: trail, that⟩ else nextFrom that fuel [] trail
            else (deref that (entry b.rlp 1)).bind fun rlp =>
              nextFrom that fuel k (⟨rlp, key, b.child⟩ :: trail)
        else if b.rlp.itemCount = 17 then enterFrom that (nextFrom that fuel) b k trail
        else some ⟨b :: trail, none⟩
      else if b.rlp.itemCount = 17 then
        visitFrom that (nextFrom that fuel) b.incrementChild k trail
      else nextFrom that fuel [] trail

/-- `iterator::at`. -/
def Iterator.at? (it : Iterator) : Option (Bytes × Bytes) :=
  match it.m_trail with
  | [] => none
  | b :: _ =>
      if b.key.headD 0 &&& 0x10 ≠ 0 then none
      else some (b.key.drop 1, payload (entry b.rlp (if b.rlp.itemCount = 2 then 1 else 16)))

/-- A loop from an iterator to the end.  The numbers bound the rounds of the loop, and of the
loop in each `next`. -/
def Iterator.rest (fuel : ℕ) : ℕ → Iterator → Option (List (Bytes × Bytes))
  | 0, _ => none
  | n + 1, it =>
      if it.m_trail.isEmpty then some []
      else do
        let e ← it.at?
        let it ← next it.m_that fuel it.m_trail
        let es ← Iterator.rest fuel n it
        some (e :: es)

namespace GenericTrieDB

/-- The node that an iterator starts from. -/
def rootNode (t : GenericTrieDB) : IterNode := ⟨t.m_db.lookup t.m_root, [0], 255⟩

/-- `begin`. -/
def begin? (t : GenericTrieDB) (fuel : ℕ) : Option Iterator :=
  next (some t.m_db) fuel [t.rootNode]

/-- `lower_bound`. -/
def lower_bound (t : GenericTrieDB) (fuel : ℕ) (key : Bytes) : Option Iterator :=
  nextFrom (some t.m_db) fuel (asNibbles key) [t.rootNode]

end GenericTrieDB

/-! ## Without a key -/

theorem visit_eq_visitFrom (that : Option MemoryDB)
    (next : Nibbles → List IterNode → Option Iterator) (b : IterNode) (trail : List IterNode) :
    visitFrom that next b [] trail = visit that (next []) (b.search 18) trail := by
  rw [visitFrom, ite_self]

/-- `next` is the search from the empty key. -/
theorem next_eq_nextFrom (that : Option MemoryDB) (fuel : ℕ) (trail : List IterNode) :
    next that fuel trail = nextFrom that fuel [] trail := by
  induction fuel generalizing trail with
  | zero => rfl
  | succ fuel ih =>
      have hih : next that fuel = nextFrom that fuel [] := funext ih
      cases trail with
      | nil => rfl
      | cons b trail =>
          have hearlier : ∀ l : Nibbles, ¬(¬l <+: [] ∧ ¬isEarlierThan [] l) := by
            intro l h
            cases l with
            | nil => exact h.1 List.nil_prefix
            | cons i l => exact h.2 rfl
          rw [next, nextFrom]
          simp only [hih, enterFrom, visit_eq_visitFrom, if_neg (hearlier _), ite_self,
            List.drop_nil, if_true]

/-! ## Frames -/

/-- The digits of a key, in order. -/
def digits : List (Fin 16) := List.finRange 16

/-- A node of the trail, for the trie that it stands for: about to be entered, shown, or entered
up to a child. -/
inductive Frame where
  | enter (p : Nibbles) (u : Map)
  | leaf (p k : Nibbles) (v : Bytes)
  | branch (p : Nibbles) (cs : Fin 16 → Map) (c : Fin 16)

/-- The entries of the children from one on. -/
def later (cs : Fin 16 → Map) (c : ℕ) : List (Nibbles × Bytes) :=
  (digits.drop c).flatMap fun i => ((cs i).entries digits).map (Patricia.under [i])

/-- The number of rounds that a trie takes. -/
def work : Map → ℕ
  | .empty => 1
  | .leaf _ _ => 2
  | .ext _ c => work c + 1
  | .branch cs => (digits.map fun i => work (cs i) + 1).sum + 2

/-- The number that the children from one on take. -/
def laterWork (cs : Fin 16 → Map) (c : ℕ) : ℕ := ((digits.drop c).map fun i => work (cs i) + 1).sum

/-- The database has the nodes that a trie refers to. -/
def Stored (sha3 : Rlp → H256) (db : MemoryDB) : Map → Prop
  | .empty => True
  | .leaf _ _ => True
  | .ext _ c => deref (some db) (ref sha3 (node sha3 c)) = some (node sha3 c) ∧ Stored sha3 db c
  | .branch cs => ∀ i, (cs i ≠ .empty →
      deref (some db) (ref sha3 (node sha3 (cs i))) = some (node sha3 (cs i))) ∧
      Stored sha3 db (cs i)

namespace Frame

/-- The node of a frame. -/
def node (sha3 : Rlp → H256) : Frame → IterNode
  | enter p u => ⟨Trie.node sha3 u, hexPrefixEncode p false, 255⟩
  | leaf p k v => ⟨Trie.node sha3 (.leaf k v), hexPrefixEncode (p ++ k) false, 0⟩
  | branch p cs c => ⟨Trie.node sha3 (.branch cs), hexPrefixEncode p false, c⟩

/-- The entries that a frame still has, from a key on if it is about to be entered. -/
def since (k : Nibbles) : Frame → List (Nibbles × Bytes)
  | enter p u => (Patricia.since k (u.entries digits)).map (Patricia.under p)
  | leaf _ _ _ => []
  | branch p cs c => (later cs (c + 1)).map (Patricia.under p)

def work : Frame → ℕ
  | enter _ u => Trie.work u
  | leaf _ _ _ => 1
  | branch _ cs c => laterWork cs (c + 1) + 1

def Stored (sha3 : Rlp → H256) (db : MemoryDB) : Frame → Prop
  | enter _ u => Trie.Stored sha3 db u
  | leaf _ _ _ => True
  | branch _ cs _ => Trie.Stored sha3 db (.branch cs)

end Frame

/-- What a trail still has. -/
def pending (fs : List Frame) : List (Nibbles × Bytes) := fs.flatMap (Frame.since [])

/-- What it still has from a key on, which concerns the frame at its back. -/
def pendingSince (k : Nibbles) : List Frame → List (Nibbles × Bytes)
  | [] => []
  | f :: fs => f.since k ++ pending fs

theorem pendingSince_nil (fs : List Frame) : pendingSince [] fs = pending fs := by
  cases fs <;> rfl

/-- The rounds that a trail takes. -/
def totalWork (fs : List Frame) : ℕ := (fs.map Frame.work).sum

/-- The iterator with a trail. -/
def iteratorOf (sha3 : Rlp → H256) (db : MemoryDB) : List Frame → Iterator
  | [] => {}
  | f :: fs => ⟨(f :: fs).map (Frame.node sha3), some db⟩

/-- A trail that is at the first of these entries and has the others before it, or is empty. -/
inductive Shows : List Frame → List (Nibbles × Bytes) → Prop
  | done : Shows [] []
  | leaf {p k : Nibbles} {v : Bytes} {fs : List Frame} :
      Shows (.leaf p k v :: fs) ((p ++ k, v) :: pending fs)

/-! ## The children of a branch -/

section

variable {sha3 : Rlp → H256} {db : MemoryDB} {cs : Fin 16 → Map} {p k : Nibbles} {c n : ℕ}

theorem drop_digits (c : Fin 16) : digits.drop c = c :: digits.drop (c + 1) := by
  have hlt : c.val < digits.length := by
    rw [digits, List.length_finRange]
    exact c.isLt
  rw [List.drop_eq_getElem_cons hlt]
  exact congrArg (· :: _) (by simp [digits])

theorem later_eq (cs : Fin 16 → Map) (c : Fin 16) : later cs c =
    ((cs c).entries digits).map (Patricia.under [c]) ++ later cs (c + 1) := by
  rw [later, drop_digits, List.flatMap_cons, later]

theorem laterWork_eq (cs : Fin 16 → Map) (c : Fin 16) :
    laterWork cs c = work (cs c) + 1 + laterWork cs (c + 1) := by
  rw [laterWork, drop_digits, List.map_cons, List.sum_cons, laterWork]

theorem later_end (cs : Fin 16 → Map) : later cs 16 = [] := rfl

/-- The number of a child, or of the end. -/
def childAt (c : ℕ) : ℕ := if c < 16 then c else 17

variable (sha3 cs) in
/-- The loop over the children comes to the next one that is there. -/
theorem search_branch (key : Bytes) (hc : c ≤ 16) (hn : 16 - c < n) :
    ∃ j, c ≤ j ∧ j ≤ 16 ∧ later cs c = later cs j ∧ laterWork cs j ≤ laterWork cs c ∧
      (⟨node sha3 (.branch cs), key, childAt c⟩ : IterNode).search n =
        ⟨node sha3 (.branch cs), key, childAt j⟩ ∧
      (∀ h : c < 16, c < j → cs ⟨c, h⟩ = .empty) ∧ ∀ h : j < 16, cs ⟨j, h⟩ ≠ .empty := by
  induction n generalizing c with
  | zero => omega
  | succ n ih =>
      rcases Nat.lt_or_ge c 16 with hlt | hge
      · have hchild : childAt c = c := if_pos hlt
        have hentry : entry (node sha3 (.branch cs)) c = ref sha3 (node sha3 (cs ⟨c, hlt⟩)) :=
          entry_seventeen _ ⟨c, hlt⟩
        by_cases hempty : cs ⟨c, hlt⟩ = .empty
        · obtain ⟨j, hle, hj, hlater, hwork, hsearch, -, hne⟩ := ih (c := c + 1) hlt (by omega)
          have hskip : later cs c = later cs (c + 1) := by
            rw [later_eq cs ⟨c, hlt⟩, hempty]
            rfl
          have hless := laterWork_eq cs ⟨c, hlt⟩
          have hnext : (⟨node sha3 (.branch cs), key, childAt c⟩ : IterNode).incrementChild =
              ⟨node sha3 (.branch cs), key, childAt (c + 1)⟩ := by
            rw [IterNode.incrementChild, hchild]
            congr 1
            dsimp only [childAt]
            split <;> split <;> first | omega | split <;> omega
          refine ⟨j, by omega, hj, hskip.trans hlater, by dsimp only at hless; omega, ?_,
            fun _ _ => hempty, hne⟩
          rw [IterNode.search, if_neg, hnext, hsearch]
          dsimp only
          rw [hchild, hentry, isEmpty_ref]
          exact not_or.mpr ⟨by omega, not_not.mpr hempty⟩
        · refine ⟨c, Nat.le_refl c, hc, rfl, Nat.le_refl _, ?_,
            fun _ hlt => absurd hlt (Nat.lt_irrefl c), fun _ => hempty⟩
          rw [IterNode.search, if_pos]
          dsimp only
          rw [hchild, hentry, isEmpty_ref]
          exact .inr hempty
      · obtain rfl : c = 16 := by omega
        refine ⟨16, Nat.le_refl _, Nat.le_refl _, rfl, Nat.le_refl _, ?_,
          fun h => absurd h (Nat.lt_irrefl 16), fun h => absurd h (Nat.lt_irrefl 16)⟩
        rw [IterNode.search, if_pos (.inl rfl)]

/-- The slot for a value is empty, and the loop goes on to the first child. -/
theorem search_value (key : Bytes) :
    (⟨node sha3 (.branch cs), key, 16⟩ : IterNode).search (n + 1) =
      (⟨node sha3 (.branch cs), key, childAt 0⟩ : IterNode).search n := by
  have hentry : entry (node sha3 (.branch cs)) 16 = .data [] := seventeen_getD_last _
  rw [IterNode.search, if_neg]
  · rfl
  · dsimp only
    rw [hentry]
    exact not_or.mpr ⟨by omega, not_not.mpr rfl⟩

/-- The entries of the children from one on, with a key for the first of them. -/
def laterSince (k : Nibbles) (cs : Fin 16 → Map) (c : ℕ) : List (Nibbles × Bytes) :=
  if h : c < 16 then
    (Patricia.since k ((cs ⟨c, h⟩).entries digits)).map (Patricia.under [⟨c, h⟩]) ++
      later cs (c + 1)
  else []

theorem laterSince_nil (cs : Fin 16 → Map) (hc : c ≤ 16) : laterSince [] cs c = later cs c := by
  rw [laterSince]
  split
  · rename_i hlt
    rw [Patricia.since_nil, later_eq cs ⟨c, hlt⟩]
  · obtain rfl : c = 16 := by omega
    rfl

/-- The key does not matter where it leads to nothing. -/
theorem laterSince_of_empty (hc : c ≤ 16) (h : ∀ h : c < 16, cs ⟨c, h⟩ = .empty) :
    laterSince k cs c = later cs c := by
  rw [← laterSince_nil cs hc, laterSince, laterSince]
  split
  · rename_i hlt
    rw [h hlt]
    rfl
  · rfl

/-! ## One call -/

variable (sha3 db) in
/-- An iterator with a trail that shows these entries and takes no more rounds. -/
def Lands (r : Option Iterator) (es : List (Nibbles × Bytes)) (w : ℕ) : Prop :=
  ∃ fs, r = some (iteratorOf sha3 db fs) ∧ Shows fs es ∧ (∀ f ∈ fs, f.Stored sha3 db) ∧
    totalWork fs ≤ w

variable {fs : List Frame} {fuel m : ℕ}

variable (sha3 db) in
/-- A call with so much fuel lands at the first entry from the key on. -/
def LandsWith (fuel : ℕ) : Prop :=
  ∀ k fs, totalWork fs < fuel → (∀ f ∈ fs, Frame.Stored sha3 db f) →
    (k = [] ∨ ∃ p u rest, fs = .enter p u :: rest) →
    Lands sha3 db (nextFrom (some db) fuel k (fs.map (Frame.node sha3))) (pendingSince k fs)
      (totalWork fs)

theorem nibbleOf_val (i : Fin 16) : nibbleOf i.val = i := Fin.ofNat_val_eq_self i

theorem totalWork_cons (f : Frame) (fs : List Frame) :
    totalWork (f :: fs) = f.work + totalWork fs := by
  rw [totalWork, List.map_cons, List.sum_cons, totalWork]

theorem pending_cons (f : Frame) (fs : List Frame) : pending (f :: fs) = f.since [] ++ pending fs :=
  List.flatMap_cons

/-- From a child of a branch on. -/
theorem visitFrom_lands {b : IterNode} (hnext : LandsWith sha3 db fuel)
    (hsearch : b.search 18 =
      (⟨node sha3 (.branch cs), hexPrefixEncode p false, childAt c⟩ : IterNode).search m)
    (hc : c ≤ 16) (hm : 16 - c < m) (hk : k = [] ∨ b.child = childAt c ∧ c < 16)
    (hstored : Stored sha3 db (.branch cs)) (hrest : ∀ f ∈ fs, f.Stored sha3 db)
    (hfuel : laterWork cs c + totalWork fs < fuel) :
    Lands sha3 db (visitFrom (some db) (nextFrom (some db) fuel) b k (fs.map (Frame.node sha3)))
      ((laterSince k cs c).map (Patricia.under p) ++ pending fs)
      (laterWork cs c + totalWork fs) := by
  obtain ⟨j, hcj, hj, hlater, hwork, hfound, hskipped, hne⟩ :=
    search_branch sha3 cs (hexPrefixEncode p false) hc hm
  rw [visitFrom, hsearch, hfound]
  dsimp only
  rcases Nat.lt_or_ge j 16 with hlt | hge
  · -- The child is entered.
    have hchild : childAt j = j := if_pos hlt
    have hentry : entry (node sha3 (.branch cs)) j = ref sha3 (node sha3 (cs ⟨j, hlt⟩)) :=
      entry_seventeen _ ⟨j, hlt⟩
    have hkey : (if childAt j = b.child ∧ childAt j ≠ 17 then k else []) =
        if j = c then k else [] := by
      rcases hk with rfl | ⟨hb, hc⟩
      · rw [ite_self, ite_self]
      · rw [hb, hchild, childAt, if_pos hc]
        have hne : j ≠ 17 := by omega
        simp only [hne, ne_eq, not_false_eq_true, and_true]
    rw [hkey, visit]
    dsimp only
    rw [hchild, if_neg (by omega), if_neg (by omega), hentry,
      (hstored ⟨j, hlt⟩).1 (hne hlt), Option.bind_some, keyOf_hexPrefixEncode,
      nibbleOf_val ⟨j, hlt⟩]
    have hj' := laterWork_eq cs ⟨j, hlt⟩
    have hwork' : totalWork (.enter (p ++ [⟨j, hlt⟩]) (cs ⟨j, hlt⟩) :: .branch p cs ⟨j, hlt⟩ :: fs) ≤
        laterWork cs c + totalWork fs := by
      rw [totalWork_cons, totalWork_cons, Frame.work, Frame.work]
      dsimp only at hj' ⊢
      omega
    obtain ⟨fs', hrun, hshows, hstored', hw⟩ := hnext (if j = c then k else [])
      (.enter (p ++ [⟨j, hlt⟩]) (cs ⟨j, hlt⟩) :: .branch p cs ⟨j, hlt⟩ :: fs) (by omega)
      (List.forall_mem_cons.mpr ⟨(hstored ⟨j, hlt⟩).2, List.forall_mem_cons.mpr ⟨hstored, hrest⟩⟩)
      (.inr ⟨_, _, _, rfl⟩)
    refine ⟨fs', hrun, ?_, hstored', by omega⟩
    have hentries : pendingSince (if j = c then k else [])
        (.enter (p ++ [⟨j, hlt⟩]) (cs ⟨j, hlt⟩) :: .branch p cs ⟨j, hlt⟩ :: fs) =
          (laterSince k cs c).map (Patricia.under p) ++ pending fs := by
      have hfrom : ∀ k, pendingSince k
          (.enter (p ++ [⟨j, hlt⟩]) (cs ⟨j, hlt⟩) :: .branch p cs ⟨j, hlt⟩ :: fs) =
            (laterSince k cs j).map (Patricia.under p) ++ pending fs := by
        intro k
        rw [pendingSince, pending_cons, Frame.since, Frame.since, laterSince, dif_pos hlt,
          List.map_append, Patricia.under_under, List.append_assoc]
      rw [hfrom]
      split
      · rename_i heq
        subst heq
        rfl
      · rename_i hlater'
        rw [laterSince_nil cs hj, ← hlater, laterSince_of_empty hc fun h => hskipped h (by omega)]
    rwa [hentries] at hshows
  · -- No child is left.
    obtain rfl : j = 16 := by omega
    have hend : childAt 16 = 17 := rfl
    rw [visit, hend, if_pos rfl, if_neg fun h => h.2 rfl]
    obtain ⟨fs', hrun, hshows, hstored', hw⟩ := hnext [] fs (by omega) hrest (.inl rfl)
    refine ⟨fs', hrun, ?_, hstored', by omega⟩
    have hentries : laterSince k cs c = [] := by
      rw [laterSince_of_empty hc fun h => hskipped h h, hlater, later_end]
    rwa [hentries, List.map_nil, List.nil_append, ← pendingSince_nil]

theorem isEarlierThan_iff (k l : Nibbles) : isEarlierThan k l = true ↔ k < l := by
  induction k, l using isEarlierThan.induct with
  | case1 a k b l hlt =>
      rw [isEarlierThan, if_pos hlt, List.cons_lt_cons_iff]
      exact iff_of_true rfl (.inl hlt)
  | case2 a k b l hge hlt =>
      rw [isEarlierThan, if_neg hge, if_pos hlt, List.cons_lt_cons_iff]
      refine iff_of_false Bool.false_ne_true ?_
      rintro (h | ⟨h, -⟩)
      · exact hge h
      · exact absurd (h ▸ hlt) (lt_irrefl b)
  | case3 a k b l hge hle ih =>
      obtain rfl : a = b := le_antisymm (not_lt.mp hle) (not_lt.mp hge)
      rw [isEarlierThan, if_neg hge, if_neg hle, ih, List.cons_lt_cons_self]
  | case4 b l => exact iff_of_true rfl (List.nil_lt_cons b l)
  | case5 k => exact iff_of_false (by cases k <;> exact Bool.false_ne_true) (List.not_lt_nil k)

/-- What `nextFrom` does at a pair. -/
theorem nextFrom_pair {that : Option MemoryDB} (leaf : Bool) (key : Nibbles) (r : Rlp)
    (trail : List IterNode) :
    nextFrom that (fuel + 1) k (⟨pair key leaf r, hexPrefixEncode p false, 255⟩ :: trail) =
      if ¬key <+: k ∧ ¬k < key then nextFrom that fuel [] trail
      else
        let k := if key <+: k then k.drop key.length else []
        if leaf then
          if k = [] then
            some ⟨⟨pair key leaf r, hexPrefixEncode (p ++ key) false, 0⟩ :: trail, that⟩
          else nextFrom that fuel [] trail
        else (deref that r).bind fun rlp =>
          nextFrom that fuel k (⟨rlp, hexPrefixEncode (p ++ key) false, 255⟩ :: trail) := by
  have hkey : (if key <+: k then k else []).drop
      (min (if key <+: k then k else []).length key.length) =
        if key <+: k then k.drop key.length else [] := by
    split
    · rename_i hp
      rw [Nat.min_eq_right hp.length_le]
    · rfl
  simp only [nextFrom, isEmpty_pair, itemCount_pair, keyOfNode_pair, isLeaf_pair, entry_pair_one,
    keyOf_hexPrefixEncode, isEarlierThan_iff, hkey, if_true, Bool.false_eq_true, if_false]

/-- What is behind a path is entered with the rest of the key, or from the front, or not. -/
theorem since_path (es : List (Nibbles × Bytes)) (key k : Nibbles) :
    Patricia.since k (es.map (Patricia.under key)) =
      if ¬key <+: k ∧ ¬k < key then []
      else (Patricia.since (if key <+: k then k.drop key.length else []) es).map
        (Patricia.under key) := by
  by_cases hp : key <+: k
  · obtain ⟨l, rfl⟩ := hp
    rw [if_neg fun h => h.1 (List.prefix_append key l), if_pos (List.prefix_append key l),
      List.drop_left, Patricia.since_under_prefix]
  · by_cases hlt : k < key
    · rw [if_neg fun h => h.2 hlt, if_neg hp, Patricia.since_nil, Patricia.since_under_of_lt hlt]
    · rw [if_pos ⟨hp, hlt⟩, Patricia.since_under_of_gt hlt hp]

/-- A frame that has nothing more is popped. -/
theorem pop_lands {f : Frame} (hnext : LandsWith sha3 db fuel)
    (hfuel : totalWork (f :: fs) < fuel + 1) (hpos : 0 < f.work)
    (hrest : ∀ f ∈ fs, f.Stored sha3 db) (hnone : f.since k = []) :
    Lands sha3 db (nextFrom (some db) fuel [] (fs.map (Frame.node sha3))) (pendingSince k (f :: fs))
      (totalWork (f :: fs)) := by
  rw [totalWork_cons] at hfuel
  obtain ⟨fs', hrun, hshows, hstored, hw⟩ := hnext [] fs (by omega) hrest (.inl rfl)
  refine ⟨fs', hrun, ?_, hstored, by rw [totalWork_cons]; omega⟩
  rwa [pendingSince, hnone, List.nil_append, ← pendingSince_nil]

variable {f : Frame} {u c : Map} {key : Nibbles} {v : Bytes}

/-- A leaf is shown, unless its key is before the key that is looked for. -/
theorem enter_leaf_lands (hnext : LandsWith sha3 db fuel)
    (hfuel : totalWork (.enter p (.leaf key v) :: fs) < fuel + 1)
    (hrest : ∀ f ∈ fs, f.Stored sha3 db) :
    Lands sha3 db (nextFrom (some db) (fuel + 1) k
        ((Frame.enter p (.leaf key v)).node sha3 :: fs.map (Frame.node sha3)))
      (pendingSince k (.enter p (.leaf key v) :: fs)) (totalWork (.enter p (.leaf key v) :: fs)) := by
  have hsince : (Frame.enter p (.leaf key v)).since k =
      (Patricia.since k ([([], v)].map (Patricia.under key))).map (Patricia.under p) := by
    rw [List.map_singleton, Patricia.under, List.append_nil]
    rfl
  have hpop := pop_lands (k := k) (f := .enter p (.leaf key v)) hnext hfuel (Nat.succ_pos _) hrest
  rw [since_path] at hsince
  rw [Frame.node, node, nextFrom_pair]
  split
  · rename_i hskip
    rw [if_pos hskip] at hsince
    exact hpop hsince
  · rename_i hkeep
    rw [if_neg hkeep] at hsince
    generalize (if key <+: k then k.drop key.length else []) = l at hsince ⊢
    dsimp only
    rw [if_pos rfl]
    cases l with
    | nil =>
        rw [Patricia.since_nil, List.map_singleton, List.map_singleton, Patricia.under,
          Patricia.under, List.append_nil] at hsince
        rw [if_pos rfl, pendingSince, hsince]
        refine ⟨.leaf p key v :: fs, rfl, .leaf, List.forall_mem_cons.mpr ⟨trivial, hrest⟩, ?_⟩
        rw [totalWork_cons, totalWork_cons]
        exact Nat.add_le_add_right (show 1 ≤ 2 by decide) _
    | cons i l =>
        have hdrop : Patricia.since (i :: l) [(([] : Nibbles), v)] = [] := by
          refine List.filter_eq_nil_iff.mpr fun e he => ?_
          rw [List.mem_singleton.mp he, decide_eq_true_iff, not_le]
          exact List.nil_lt_cons i l
        rw [hdrop] at hsince
        rw [if_neg (List.cons_ne_nil i l)]
        exact hpop hsince

/-- Behind an extension is the next node. -/
theorem enter_ext_lands (hnext : LandsWith sha3 db fuel)
    (hfuel : totalWork (.enter p (.ext key c) :: fs) < fuel + 1)
    (hstored : Stored sha3 db (.ext key c)) (hrest : ∀ f ∈ fs, f.Stored sha3 db) :
    Lands sha3 db (nextFrom (some db) (fuel + 1) k
        ((Frame.enter p (.ext key c)).node sha3 :: fs.map (Frame.node sha3)))
      (pendingSince k (.enter p (.ext key c) :: fs)) (totalWork (.enter p (.ext key c) :: fs)) := by
  have hsince : (Frame.enter p (.ext key c)).since k =
      (Patricia.since k ((c.entries digits).map (Patricia.under key))).map (Patricia.under p) := rfl
  rw [since_path] at hsince
  rw [Frame.node, node, nextFrom_pair]
  split
  · rename_i hskip
    rw [if_pos hskip] at hsince
    exact pop_lands hnext hfuel (Nat.succ_pos _) hrest hsince
  · rename_i hkeep
    rw [if_neg hkeep, Patricia.under_under] at hsince
    dsimp only
    rw [if_neg Bool.false_ne_true, hstored.1, Option.bind_some]
    have hless : totalWork (.enter (p ++ key) c :: fs) <
        totalWork (.enter p (.ext key c) :: fs) := by
      rw [totalWork_cons, totalWork_cons]
      exact Nat.add_lt_add_right (Nat.lt_succ_self (work c)) _
    obtain ⟨fs', hrun, hshows, hstored', hw⟩ := hnext _ (.enter (p ++ key) c :: fs) (by omega)
      (List.forall_mem_cons.mpr ⟨hstored.2, hrest⟩) (.inr ⟨_, _, _, rfl⟩)
    refine ⟨fs', hrun, ?_, hstored', by omega⟩
    rw [pendingSince, hsince]
    exact hshows

/-- The entries of a branch from a key on. -/
theorem since_entries_branch (cs : Fin 16 → Map) (i : Fin 16) (k : Nibbles) :
    Patricia.since (i :: k) ((Patricia.branch cs).entries digits) = laterSince k cs i := by
  have hsplit : digits = digits.take i ++ i :: digits.drop (i + 1) := by
    rw [← drop_digits, List.take_append_drop]
  have hsorted : digits.Pairwise (· < ·) := List.pairwise_lt_finRange 16
  rw [hsplit] at hsorted
  rw [Patricia.entries]
  conv_lhs => rw [hsplit]
  rw [Patricia.since_branch hsorted, laterSince, dif_pos i.isLt, later, ← hsplit]

theorem laterWork_le (cs : Fin 16 → Map) (c : ℕ) : laterWork cs c ≤ laterWork cs 0 := by
  rw [laterWork, laterWork, List.drop_zero]
  conv_rhs => rw [← List.take_append_drop c digits, List.map_append, List.sum_append]
  exact Nat.le_add_left _ _

/-- A branch is entered at a child. -/
theorem enter_branch_lands (hnext : LandsWith sha3 db fuel)
    (hfuel : totalWork (.enter p (.branch cs) :: fs) < fuel + 1)
    (hstored : Stored sha3 db (.branch cs)) (hrest : ∀ f ∈ fs, f.Stored sha3 db) :
    Lands sha3 db (nextFrom (some db) (fuel + 1) k
        ((Frame.enter p (.branch cs)).node sha3 :: fs.map (Frame.node sha3)))
      (pendingSince k (.enter p (.branch cs) :: fs)) (totalWork (.enter p (.branch cs) :: fs)) := by
  have hempty : isEmpty (node sha3 (.branch cs)) = false := isEmpty_seventeen _
  have hcount : (node sha3 (.branch cs)).itemCount = 17 := itemCount_seventeen _
  have hwork : totalWork (.enter p (.branch cs) :: fs) = laterWork cs 0 + 2 + totalWork fs :=
    totalWork_cons _ _
  rw [Frame.node, nextFrom]
  simp only [hempty, hcount, if_true, Bool.false_eq_true, if_false, Nat.reduceEqDiff, enterFrom]
  cases k with
  | nil =>
      obtain ⟨fs', hrun, hshows, hstored', hw⟩ := visitFrom_lands hnext
        (search_value _) (Nat.zero_le 16) (by omega) (.inl rfl) hstored hrest (by omega)
      refine ⟨fs', hrun, ?_, hstored', by omega⟩
      rw [laterSince_nil cs (Nat.zero_le 16)] at hshows
      rw [pendingSince, Frame.since, Patricia.since_nil]
      exact hshows
  | cons i k =>
      have hchild : childAt i = i := if_pos i.isLt
      have hless := laterWork_le cs i
      obtain ⟨fs', hrun, hshows, hstored', hw⟩ := visitFrom_lands (k := k) (c := i) hnext
        (by rw [hchild]) (by omega) (by omega) (.inr ⟨hchild.symm, i.isLt⟩) hstored hrest (by omega)
      refine ⟨fs', hrun, ?_, hstored', by omega⟩
      rw [pendingSince, Frame.since, since_entries_branch]
      exact hshows

theorem incrementChild_branch (b : Rlp) (key : Bytes) (c : Fin 16) :
    (⟨b, key, c⟩ : IterNode).incrementChild = ⟨b, key, childAt (c + 1)⟩ := by
  rw [IterNode.incrementChild]
  congr 1
  dsimp only [childAt]
  split <;> split <;> first | omega | split <;> omega

/-- A branch goes on to its next child. -/
theorem branch_lands {c : Fin 16} (hnext : LandsWith sha3 db fuel)
    (hfuel : totalWork (.branch p cs c :: fs) < fuel + 1) (hstored : Stored sha3 db (.branch cs))
    (hrest : ∀ f ∈ fs, f.Stored sha3 db) :
    Lands sha3 db (nextFrom (some db) (fuel + 1) []
        ((Frame.branch p cs c).node sha3 :: fs.map (Frame.node sha3)))
      (pendingSince [] (.branch p cs c :: fs)) (totalWork (.branch p cs c :: fs)) := by
  have hnot : ¬c.val = 255 := by omega
  have hcount : (node sha3 (.branch cs)).itemCount = 17 := itemCount_seventeen _
  have hwork : totalWork (.branch p cs c :: fs) = laterWork cs (c + 1) + 1 + totalWork fs :=
    totalWork_cons _ _
  rw [Frame.node, nextFrom]
  simp only [hnot, hcount, if_false, if_true, incrementChild_branch]
  obtain ⟨fs', hrun, hshows, hstored', hw⟩ := visitFrom_lands hnext rfl
    (show c.val + 1 ≤ 16 by omega) (by omega) (.inl rfl) hstored hrest (by omega)
  refine ⟨fs', hrun, ?_, hstored', by omega⟩
  rw [laterSince_nil cs (by omega)] at hshows
  exact hshows

/-- **One call lands at the first entry from the key on.** -/
theorem nextFrom_lands (fuel : ℕ) : LandsWith sha3 db fuel := by
  induction fuel with
  | zero => exact fun _ _ h => absurd h (Nat.not_lt_zero _)
  | succ fuel ih =>
      intro k fs hfuel hstored hk
      cases fs with
      | nil => exact ⟨[], rfl, .done, hstored, Nat.le_refl _⟩
      | cons f fs =>
          obtain ⟨hf, hrest⟩ := List.forall_mem_cons.mp hstored
          rw [List.map_cons]
          cases f with
          | leaf p key v =>
              have hnot : ¬(0 : ℕ) = 255 := by decide
              rw [Frame.node, node, nextFrom]
              simp only [hnot, itemCount_pair, if_false, Nat.reduceEqDiff]
              exact pop_lands (f := .leaf p key v) ih hfuel Nat.one_pos hrest rfl
          | branch p cs c =>
              obtain rfl : k = [] := by
                rcases hk with rfl | ⟨_, _, _, h⟩
                · rfl
                · cases h
              exact branch_lands ih hfuel hf hrest
          | enter p u =>
              cases u with
              | empty =>
                  rw [Frame.node, node, nextFrom]
                  simp only [if_true, show isEmpty RLPNull = true from rfl]
                  exact pop_lands (f := .enter p .empty) ih hfuel Nat.one_pos hrest rfl
              | leaf key v => exact enter_leaf_lands ih hfuel hrest
              | ext key c => exact enter_ext_lands ih hfuel hf hrest
              | branch cs => exact enter_branch_lands ih hfuel hf hrest

/-! ## Loops -/

/-- An entry with its key packed. -/
def pack (e : Nibbles × Bytes) : Bytes × Bytes := (packed e.1, e.2)

theorem at_leaf (heven : (p ++ key).length % 2 = 0) :
    (iteratorOf sha3 db (.leaf p key v :: fs)).at? = some (pack (p ++ key, v)) := by
  have hkey : hexPrefixEncode (p ++ key) false = 0 :: packed (p ++ key) := by
    rw [hexPrefixEncode, flags, heven]
    rfl
  rw [iteratorOf, List.map_cons, Iterator.at?]
  dsimp only [Frame.node]
  rw [hkey, node, itemCount_pair, if_pos rfl, entry_pair_one]
  exact if_neg (show ¬(0 : UInt8) &&& 0x10 ≠ 0 by decide)

/-- A loop from an iterator on runs through what its trail shows. -/
theorem rest_eq {es : List (Nibbles × Bytes)} (hshows : Shows fs es)
    (hstored : ∀ f ∈ fs, f.Stored sha3 db) (heven : ∀ e ∈ es, e.1.length % 2 = 0)
    (hfuel : totalWork fs < fuel) (hn : es.length < n) :
    (iteratorOf sha3 db fs).rest fuel n = some (es.map pack) := by
  induction es generalizing fs n with
  | nil =>
      cases hshows
      obtain ⟨n, rfl⟩ := Nat.exists_eq_add_of_le' hn
      rfl
  | cons e es ih =>
      obtain ⟨n, rfl⟩ := Nat.exists_eq_add_of_le' (Nat.one_le_of_lt hn)
      cases hshows with
      | @leaf p key v fs =>
          have hat := @at_leaf sha3 db p fs key v (heven _ (.head _))
          obtain ⟨fs', hrun, hshows, hstored', hw⟩ :=
            nextFrom_lands fuel [] (.leaf p key v :: fs) hfuel hstored (.inl rfl)
          have hgo := ih hshows hstored' (fun e he => heven e (.tail _ he)) (by omega)
            (Nat.lt_of_succ_lt_succ hn)
          rw [Iterator.rest, hat]
          show (next (some db) fuel ((Frame.leaf p key v :: fs).map (Frame.node sha3))).bind _ = _
          rw [next_eq_nextFrom, hrun]
          show (Iterator.rest fuel n (iteratorOf sha3 db fs')).bind _ = _
          rw [hgo]
          rfl

end

/-! ## From `init` on -/

section

variable {sha3 : Rlp → H256} {S : Ground} {t : Map} {M : Multiset H256} {db : MemoryDB}
  {m : BytesMap} {n : ℕ} {g : GenericTrieDB}

theorem deref_ref {c : Map} (hinj : Set.InjOn sha3 S.nodes) (hc : c ≠ .empty)
    (hmem : node sha3 c ∈ S.nodes) (hdb : Holds sha3 S db (held sha3 c + M)) :
    deref (some db) (ref sha3 (node sha3 c)) = some (node sha3 c) := by
  have hfollow := follow_ref (f := some) hinj hc hmem hdb
  rw [deref, Option.bind_some, ← hfollow]
  split
  · rfl
  · rw [Option.map_eq_bind]
    rfl

/-- The nodes that are held can be read. -/
theorem stored_of_holds (hinj : Set.InjOn sha3 S.nodes) (hslot : Patricia.Slot n t)
    (hw : Within sha3 S n t) (hdb : Holds sha3 S db (refs sha3 t + M)) : Stored sha3 db t := by
  induction t generalizing n M with
  | empty => exact trivial
  | leaf k v => exact trivial
  | ext k c ih =>
      obtain ⟨cs, m, rfl, hne, hn, hb⟩ := hslot.of_ext
      have hslot' : Patricia.Slot m (.branch cs) := fun _ => hb
      have hwc : Within sha3 S m (.branch cs) :=
        hw.below hn fun l => (Patricia.lookup_ext_append k l _).symm
      exact ⟨deref_ref hinj hb.ne_empty (hwc.node_mem hslot') hdb, ih hslot' hwc hdb.of_held⟩
  | branch cs ih =>
      obtain ⟨m, rfl, -, hcs⟩ := hslot.of_branch
      intro i
      have hwc : Within sha3 S m (cs i) := hw.below (p := [i]) (Nat.add_comm 1 m) fun _ => rfl
      have hdb' := hdb
      rw [refs_branch cs i, add_assoc] at hdb'
      exact ⟨fun hc => deref_ref hinj hc (hwc.node_mem (hcs i)) hdb',
        ih i (hcs i) hwc hdb'.of_held⟩

theorem packed_asNibbles (s : Bytes) : packed (asNibbles s) = s := by
  refine asNibbles_injective (asNibbles_packed _ ?_)
  rw [asNibbles_length]
  omega

/-- The order of keys is that of their nibbles. -/
theorem compare_eq_lt_iff (s t : Bytes) : compare s t = .lt ↔ asNibbles s < asNibbles t := by
  have hhead : ∀ b c : UInt8, b < c → ∀ k l : Nibbles, halves b ++ k < halves c ++ l := by
    intro b c hlt k l
    have hlt : b.toNat < c.toNat := UInt8.lt_iff_toNat_lt.mp hlt
    have hb := b.toNat_lt
    have hc := c.toNat_lt
    simp only [halves, List.cons_append, List.nil_append, List.cons_lt_cons_iff, Fin.lt_def,
      Fin.ext_iff, nibbleOf, Fin.ofNat]
    omega
  induction s generalizing t with
  | nil =>
      cases t with
      | nil => exact iff_of_false (by decide) (List.not_lt_nil _)
      | cons c t => exact iff_of_true rfl (List.nil_lt_cons _ _)
  | cons b s ih =>
      cases t with
      | nil => exact iff_of_false (by rw [List.compare_cons_nil]; decide) (List.not_lt_nil _)
      | cons c t =>
          rw [List.compare_cons_cons, Ordering.then_eq_lt, Std.compare_eq_lt,
            Std.LawfulEqOrd.compare_eq_iff_eq]
          refine (or_congr_right (and_congr_right fun _ => ih t)).trans ?_
          have hcons : ∀ (b : UInt8) (s : Bytes), asNibbles (b :: s) = halves b ++ asNibbles s :=
            fun _ _ => List.flatMap_cons
          rw [hcons, hcons]
          constructor
          · rintro (hlt | ⟨rfl, hlt⟩)
            · exact hhead b c hlt _ _
            · exact (Patricia.append_lt_append_iff _).mpr hlt
          · intro hlt
            rcases Std.lt_trichotomy b c with h | h | h
            · exact .inl h
            · subst h
              exact .inr ⟨rfl, (Patricia.append_lt_append_iff _).mp hlt⟩
            · exact absurd (hhead c b h _ _) hlt.not_gt

theorem isLE_compare_iff (s t : Bytes) : (compare s t).isLE = true ↔ asNibbles s ≤ asNibbles t := by
  rw [Ordering.isLE_iff_ne_gt, Std.OrientedCmp.gt_iff_lt, compare_eq_lt_iff, not_lt]

/-- The entries of the trie are those of the map, in order. -/
theorem map_pack_entries (ht : Agrees m t) : (t.entries digits).map pack = m.toList := by
  have hall : ∀ i, i ∈ digits := List.mem_finRange
  have hpack : ∀ e ∈ t.entries digits, asNibbles (pack e).1 = e.1 := by
    intro e he
    obtain ⟨key, hkey, -⟩ := (ht e.1 e.2).mp ((Patricia.mem_entries hall).mp he)
    rw [pack, ← hkey, packed_asNibbles]
  have hsorted : ((t.entries digits).map pack).Pairwise
      fun d e => asNibbles d.1 < asNibbles e.1 := by
    rw [List.pairwise_map]
    refine (Patricia.sorted_entries (List.pairwise_lt_finRange 16) t).imp_of_mem ?_
    intro d e hd he hlt
    rwa [hpack d hd, hpack e he]
  have hsorted' : m.toList.Pairwise fun d e => asNibbles d.1 < asNibbles e.1 :=
    Std.ExtTreeMap.ordered_keys_toList.imp fun h => (compare_eq_lt_iff _ _).mp h
  have : Std.Irrefl fun d e : Bytes × Bytes => asNibbles d.1 < asNibbles e.1 :=
    ⟨fun d => lt_irrefl (asNibbles d.1)⟩
  refine hsorted.eq_of_mem_iff hsorted' ?_
  rintro ⟨key, v⟩
  rw [Std.ExtTreeMap.mem_toList_iff_getElem?_eq_some, List.mem_map]
  constructor
  · rintro ⟨⟨k, w⟩, hmem, heq⟩
    obtain ⟨rfl, rfl⟩ := Prod.mk.inj heq
    obtain ⟨key, rfl, hget⟩ := (ht k w).mp ((Patricia.mem_entries hall).mp hmem)
    rwa [packed_asNibbles]
  · intro hget
    refine ⟨(asNibbles key, v), (Patricia.mem_entries hall).mpr ((ht _ _).mpr ⟨key, rfl, hget⟩), ?_⟩
    rw [pack, packed_asNibbles]

/-- So are those from a key on. -/
theorem map_pack_since (ht : Agrees m t) (key : Bytes) :
    (Patricia.since (asNibbles key) (t.entries digits)).map pack =
      m.toList.filter fun e => (compare key e.1).isLE := by
  have hall : ∀ i, i ∈ digits := List.mem_finRange
  rw [← map_pack_entries ht, List.filter_map, Patricia.since]
  refine congrArg (List.map pack) (List.filter_congr fun e he => ?_)
  obtain ⟨key', hkey, -⟩ := (ht e.1 e.2).mp ((Patricia.mem_entries hall).mp he)
  rw [Function.comp_apply, pack, ← hkey, packed_asNibbles, Bool.eq_iff_iff, decide_eq_true_iff,
    isLE_compare_iff]

/-- A loop over a trie, from a key on. -/
theorem Represents.iterate (hinj : Set.InjOn sha3 S.nodes) (hg : Represents sha3 S n g m t)
    (k : Nibbles) {fuel : ℕ} (hfuel : work t < fuel)
    (hlength : (Patricia.since k (t.entries digits)).length < fuel) :
    (nextFrom (some g.m_db) fuel k [g.rootNode]).bind (Iterator.rest fuel fuel) =
      some ((Patricia.since k (t.entries digits)).map pack) := by
  have hall : ∀ i, i ∈ digits := List.mem_finRange
  have hholds := hg.holds
  rw [add_comm] at hholds
  have hstored := stored_of_holds hinj hg.slot hg.within hholds
  have hroot : [g.rootNode] = [Frame.enter [] t].map (Frame.node sha3) := by
    rw [GenericTrieDB.rootNode, hg.lookup_root hinj]
    rfl
  have hwork : totalWork [.enter [] t] = work t := rfl
  have hpending : pendingSince k [.enter [] t] = Patricia.since k (t.entries digits) := by
    rw [pendingSince, Frame.since, Patricia.map_under_nil]
    exact List.append_nil _
  obtain ⟨fs, hrun, hshows, hstored', hw⟩ := nextFrom_lands fuel k
    [.enter [] t] (by omega) (List.forall_mem_singleton.mpr hstored) (.inr ⟨_, _, _, rfl⟩)
  rw [hpending] at hshows
  rw [hroot, hrun, Option.bind_some]
  refine rest_eq hshows hstored' (fun e he => ?_) (by omega) hlength
  obtain ⟨key, hkey, -⟩ :=
    (hg.agrees e.1 e.2).mp ((Patricia.mem_entries hall).mp (List.mem_filter.mp he).1)
  rw [← hkey, asNibbles_length]
  omega

/-- **Iteration is complete and ordered.**  After any run from `init` with keys of one length, a
loop from the beginning gives every entry of the map once, in the order of the keys, and ends;
and a loop from the lower bound of a key gives those from this key on. -/
theorem iteration_complete {ops : List Op} (hdb : db.Filed sha3)
    (hlength : ∀ op ∈ ops, op.key.length = n)
    (hinj : Set.InjOn sha3 (db.nodes ∪ involved sha3 ops)) :
    ∃ g, (GenericTrieDB.init sha3 db).bind (runOps sha3 ops) = some g ∧
      ∃ least, ∀ fuel, least ≤ fuel →
        (g.begin? fuel).bind (Iterator.rest fuel fuel) = some (contents ops).toList ∧
        ∀ key : Bytes, key.length = n →
          (g.lower_bound fuel key).bind (Iterator.rest fuel fuel) =
            some ((contents ops).toList.filter fun e => (compare key e.1).isLE) := by
  obtain ⟨g, t, hrun, hg⟩ := represents_run hdb hlength hinj
  refine ⟨g, hrun, work t + (t.entries digits).length + 1, fun fuel hfuel => ⟨?_, fun key _ => ?_⟩⟩
  · have hall := hg.iterate hinj [] (show work t < fuel by omega)
      (by rw [Patricia.since_nil]; omega)
    rw [GenericTrieDB.begin?, next_eq_nextFrom, hall, Patricia.since_nil,
      map_pack_entries hg.agrees]
  · have hless : (Patricia.since (asNibbles key) (t.entries digits)).length ≤
        (t.entries digits).length := List.length_filter_le _ _
    have hfrom := hg.iterate hinj (asNibbles key) (show work t < fuel by omega) (by omega)
    rw [GenericTrieDB.lower_bound, hfrom, map_pack_since hg.agrees]

/-- Of three keys two are left. -/
def leftKeys : List Op := twoKeys ++ [.insert [0x34] [5]]

theorem iteration_complete_leftKeys : (contents leftKeys).toList.length = 2 ∧
    ∃ g, (GenericTrieDB.init smallHash ({} : MemoryDB)).bind (runOps smallHash leftKeys) = some g ∧
      ∃ least, ∀ fuel, least ≤ fuel →
        (g.begin? fuel).bind (Iterator.rest fuel fuel) = some (contents leftKeys).toList ∧
        ∀ key : Bytes, key.length = 1 →
          (g.lower_bound fuel key).bind (Iterator.rest fuel fuel) =
            some ((contents leftKeys).toList.filter fun e => (compare key e.1).isLE) :=
  ⟨by decide +kernel,
    iteration_complete (n := 1) filed_empty (by decide) (injOn_involved (by decide +kernel))⟩

end

end CppSwc.Trie
