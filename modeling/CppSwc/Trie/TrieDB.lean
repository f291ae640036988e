import CppSwc.Core.HeaderBytes
import CppSwc.Trie.MemoryDB
import CppSwc.Trie.Nibbles

/-!
# The trie

`GenericTrieDB` of libdevcore.  A node is the item that its string encodes, and the size of the
string is that of the encoding.  A node below another one stands in it as it is if its string is
shorter than 32 bytes, and as the hash of the string otherwise; then the string is in the
database.  The root is in the database always.

* The hash is the argument `sha3`, of a node for the hash of its string.
* A function that throws, or fails an assertion, is `none`.
* The recursions take fuel.  Without fuel they are `none`, and the fuel that the callers give is
  enough.
-/

namespace CppSwc.Trie

/-! ## Nodes -/

/-- `RLPNull`. -/
def RLPNull : Rlp := .data []

/-- `RLP::isEmpty`. -/
def isEmpty : Rlp → Bool
  | .data [] => true
  | .list [] => true
  | _ => false

/-- `RLP::isData`. -/
def isData : Rlp → Bool
  | .data _ => true
  | _ => false

/-- The size of the bytes of a node. -/
def size (r : Rlp) : ℕ := r.encode.length

/-- An entry of a list, `RLP::operator[]`. -/
def entry (r : Rlp) (i : ℕ) : Rlp := r.items.getD i .null

/-- `RLP::toHash<h256>` with the flags `Strict`: a longer string throws, and a shorter one is
filled with zeros. -/
def toHash : Rlp → Option H256
  | .data bs => if 32 < bs.length then none else some (BitVec.ofNat 256 (fromBigEndian bs))
  | _ => none

/-- `keyOf` of a pair. -/
def keyOfNode (r : Rlp) : Nibbles := keyOf (entry r 0).toBytes

/-- `isLeaf`. -/
def isLeaf (r : Rlp) : Bool := isTerminated (entry r 0).toBytes

/-- `uniqueInUse`, where 255 is `none`. -/
def uniqueInUse (orig : Rlp) (except : ℕ) : Option ℕ :=
  match (List.range 17).filter (fun i => i ≠ except ∧ ¬isEmpty (entry orig i)) with
  | [i] => some i
  | _ => none

/-- A pair of a packed key and an item. -/
def pair (k : Nibbles) (leaf : Bool) (r : Rlp) : Rlp := .list [.data (hexPrefixEncode k leaf), r]

section

variable {N : Type} [RefCount N] (sha3 : Rlp → H256)

/-- `EmptyTrie`. -/
def EmptyTrie : H256 := sha3 RLPNull

/-! ## Nodes in the database -/

/-- `killNode`, with the hash of the node. -/
def killNodeAt (r : Rlp) (h : H256) (db : MemoryDB N) : MemoryDB N :=
  if 32 ≤ size r then db.kill h else db

/-- `killNode`. -/
def killNode (r : Rlp) (db : MemoryDB N) : MemoryDB N := killNodeAt r (sha3 r) db

/-- `streamNode`.  The result is what it appends. -/
def streamNode (b : Rlp) (db : MemoryDB N) : Rlp × MemoryDB N :=
  if size b < 32 then (b, db) else (.ofHash 32 (sha3 b), db.insert (sha3 b) b)

/-- `isTwoItemNode`. -/
def isTwoItemNode (r : Rlp) (db : MemoryDB N) : Option Bool :=
  if isData r then (toHash r).map fun h => (db.lookup h).itemCount = 2
  else some (r.itemCount = 2)

/-- `place`. -/
def place (orig : Rlp) (k : Nibbles) (s : Bytes) (db : MemoryDB N) : Option (Rlp × MemoryDB N) :=
  let db := killNode sha3 orig db
  if isEmpty orig then some (pair k true (.data s), db)
  else if orig.itemCount = 2 then some (.list [entry orig 0, .data s], db)
  else if orig.itemCount = 17 then some (.list (orig.items.set 16 (.data s)), db)
  else none

/-- `cleve`. -/
def cleve (orig : Rlp) (s : ℕ) (db : MemoryDB N) : Rlp × MemoryDB N :=
  let db := killNode sha3 orig db
  let k := keyOfNode orig
  let bottom := pair (k.drop s) (isLeaf orig) (entry orig 1)
  let (r, db) := streamNode sha3 bottom db
  (pair (k.take s) false r, db)

/-- `graft`. -/
def graft (orig : Rlp) (db : MemoryDB N) : Option (Rlp × MemoryDB N) := do
  let r := entry orig 1
  let (n, db) ←
    if r.isList then some (r, db) else (toHash r).map fun lh => (db.lookup lh, db.kill lh)
  if n.itemCount = 2 then
    some (pair (keyOfNode orig ++ keyOfNode n) (isLeaf n) (entry n 1), db)
  else none

/-- `merge`. -/
def merge (orig : Rlp) (i : ℕ) : Rlp :=
  if i ≠ 16 then pair [nibbleOf i] false (entry orig i) else pair [] true (entry orig i)

/-- A list of 17 items of which only one is in use. -/
def only (i : ℕ) (r : Rlp) : Rlp := .list ((List.replicate 17 (.data [])).set i r)

/-- `branch`. -/
def branch (orig : Rlp) (db : MemoryDB N) : Rlp × MemoryDB N :=
  let db := killNode sha3 orig db
  match keyOfNode orig with
  | [] => (only 16 (entry orig 1), db)
  | b :: k =>
      if isLeaf orig ∨ k ≠ [] then
        let (r, db) := streamNode sha3 (pair k (isLeaf orig) (entry orig 1)) db
        (only b r, db)
      else (only b (entry orig 1), db)

/-! ## Looking up -/

/-- `atAux`. -/
def atAux (db : MemoryDB N) : ℕ → Rlp → Nibbles → Option Bytes
  | 0, _, _ => none
  | fuel + 1, here, key =>
      let follow (n : Rlp) (key : Nibbles) : Option Bytes :=
        if n.isList then atAux db fuel n key
        else (toHash n).bind fun h => atAux db fuel (db.lookup h) key
      if isEmpty here ∨ here.isNull then some []
      else if here.itemCount = 2 then
        let k := keyOfNode here
        if key = k ∧ isLeaf here then some (entry here 1).toBytes
        else if k <+: key ∧ ¬isLeaf here then follow (entry here 1) (key.drop k.length)
        else some []
      else if here.itemCount = 17 then
        match key with
        | [] => some (entry here 16).toBytes
        | i :: key => if isEmpty (entry here i) then some [] else follow (entry here i) key
      else none

/-! ## Insertion -/

/-- `mergeAt`, a function of node, hash, key, value and `_inLine`. -/
abbrev MergeAt (N : Type := ℕ) :=
  Rlp → H256 → Nibbles → Bytes → Bool → MemoryDB N → Option (Rlp × MemoryDB N)

/-- `mergeAtAux`.  The result is what it appends. -/
def mergeAtAux (mergeAt : MergeAt N) (orig : Rlp) (k : Nibbles) (v : Bytes) (db : MemoryDB N) :
    Option (Rlp × MemoryDB N) := do
  let (r, isRemovable) ←
    if !orig.isList && !isEmpty orig then (toHash orig).map fun h => (db.lookup h, true)
    else some (orig, false)
  let (b, db) ← mergeAt r (sha3 r) k v (!isRemovable) db
  some (streamNode sha3 b db)

/-- `mergeAt`. -/
def mergeAt : ℕ → MergeAt N
  | 0, _, _, _, _, _, _ => none
  | fuel + 1, orig, origHash, k, v, inLine, db =>
      if isEmpty orig then place sha3 orig k v db
      else if orig.itemCount = 2 then
        let key := keyOfNode orig
        -- exactly our node
        if key = k ∧ isLeaf orig then place sha3 orig k v db
        -- partial key is our key
        else if key <+: k ∧ ¬isLeaf orig then do
          let db := if inLine then db else killNodeAt orig origHash db
          let (r, db) ← mergeAtAux sha3 (mergeAt fuel) (entry orig 1) (k.drop key.length) v db
          some (.list [entry orig 0, r], db)
        else
          let sh := shared k key
          if sh ≠ 0 then
            let (cleved, db) := cleve sha3 orig sh db
            mergeAt fuel cleved (sha3 cleved) k v true db
          else
            let (branched, db) := branch sha3 orig db
            mergeAt fuel branched (sha3 branched) k v true db
      else if orig.itemCount = 17 then
        match k with
        | [] => place sha3 orig [] v db
        | n :: k => do
            let db := if inLine then db else killNodeAt orig origHash db
            let (r, db) ← mergeAtAux sha3 (mergeAt fuel) (entry orig n) k v db
            some (.list (orig.items.set n r), db)
      else none

/-! ## Deletion -/

/-- `deleteAt`, a function of node and key.  No bytes are `none`. -/
abbrev DeleteAt (N : Type := ℕ) := Rlp → Nibbles → MemoryDB N → Option (Option Rlp × MemoryDB N)

/-- `deleteAtAux`.  The result is what it appends, if it appends. -/
def deleteAtAux (deleteAt : DeleteAt N) : DeleteAt N := fun orig k db => do
  let (b, db) ←
    if isEmpty orig then some (none, db)
    else if orig.isList then deleteAt orig k db
    else (toHash orig).bind fun h => deleteAt (db.lookup h) k db
  match b with
  | none => some (none, db)
  | some b =>
      let (r, db) := streamNode sha3 b db
      some (some r, db)

/-- A new pair, which is grafted if what is below it is a pair. -/
def graftOver (below s : Rlp) (db : MemoryDB N) : Option (Rlp × MemoryDB N) := do
  if ← isTwoItemNode below db then graft s db else some (s, db)

/-- `deleteAt`. -/
def deleteAt : ℕ → DeleteAt N
  | 0, _, _, _ => none
  | fuel + 1, orig, k, db =>
      if isEmpty orig then some (none, db)
      else if orig.itemCount = 2 then
        let key := keyOfNode orig
        -- exactly our node
        if key = k ∧ isLeaf orig then some (some RLPNull, killNode sha3 orig db)
        -- partial key is our key
        else if key <+: k then do
          let (r, db) ← deleteAtAux sha3 (deleteAt fuel) (entry orig 1) (k.drop key.length) db
          match r with
          | none => some (none, db)
          | some r =>
              let db := killNode sha3 orig db
              let (b, db) ← graftOver r (.list [entry orig 0, r]) db
              some (some b, db)
        else some (none, db)
      else if orig.itemCount = 17 then
        match k with
        | [] =>
            if isEmpty (entry orig 16) then none  -- `_k[0]` is past the end
            else do
              let db := killNode sha3 orig db
              match uniqueInUse orig 16 with
              | some used =>
                  let (b, db) ← graftOver (entry orig used) (merge orig used) db
                  some (some b, db)
              | none => some (some (.list (orig.items.set 16 (.data []))), db)
        | n :: k => do
            let (r, db) ← deleteAtAux sha3 (deleteAt fuel) (entry orig n) k db
            match r with
            | none => some (none, db)
            | some r =>
                let db := killNode sha3 orig db
                let rlp := .list (orig.items.set n r)
                match uniqueInUse rlp 255 with
                | none => some (some rlp, db)
                | some used =>
                    let (b, db) ← graftOver (entry rlp used) (merge rlp used) db
                    some (some b, db)
      else none

end

/-! ## The trie object -/

/-- `GenericTrieDB`. -/
structure GenericTrieDB (N : Type := ℕ) where
  m_root : H256
  m_db : MemoryDB N

namespace GenericTrieDB

variable {N : Type} [RefCount N] (sha3 : Rlp → H256)

/-- `GenericTrieDB::setRoot`, with `Verification::Normal`. -/
def setRoot (root : H256) (db : MemoryDB N) : Option (GenericTrieDB N) :=
  let db :=
    if root = EmptyTrie sha3 ∧ ¬db.existsEntry root then db.insert (EmptyTrie sha3) RLPNull else db
  if (db.lookup root).isNull then none else some ⟨root, db⟩

/-- `GenericTrieDB::init`. -/
def init (db : MemoryDB N) : Option (GenericTrieDB N) :=
  setRoot sha3 (sha3 RLPNull) (db.insert (sha3 RLPNull) RLPNull)

/-- `GenericTrieDB::root`. -/
def root (t : GenericTrieDB N) : Option H256 :=
  if (t.m_db.lookup t.m_root).isNull then none else some t.m_root

/-- `GenericTrieDB::at`. -/
def at? (t : GenericTrieDB N) (key : Bytes) : Option Bytes :=
  let key := asNibbles key
  atAux t.m_db (key.length + 1) (t.m_db.lookup t.m_root) key

/-- Puts a new root in place of the old one, which is always in the database.  A node shorter
than 32 bytes has not been killed yet. -/
def replaceRoot (t : GenericTrieDB N) (rootValue b : Rlp) (db : MemoryDB N) :
    GenericTrieDB N :=
  let db := if size rootValue < 32 then db.kill t.m_root else db
  ⟨sha3 b, db.insert (sha3 b) b⟩

/-- `GenericTrieDB::insert`. -/
def insert (t : GenericTrieDB N) (key value : Bytes) : Option (GenericTrieDB N) :=
  let rootValue := t.m_db.lookup t.m_root
  let key := asNibbles key
  if rootValue.isNull then none
  else (mergeAt sha3 (key.length + 5) rootValue t.m_root key value false t.m_db).map
    fun (b, db) => t.replaceRoot sha3 rootValue b db

/-- `GenericTrieDB::remove`. -/
def remove (t : GenericTrieDB N) (key : Bytes) : Option (GenericTrieDB N) :=
  let rv := t.m_db.lookup t.m_root
  let key := asNibbles key
  (deleteAt sha3 (key.length + 1) rv key t.m_db).map fun
    | (some b, db) => t.replaceRoot sha3 rv b db
    | (none, db) => { t with m_db := db }

end GenericTrieDB

end CppSwc.Trie
