import CppSwc.Core.Common

/-!
# Accounts

`Account` of libethereum, the cached form of one account, and the four fields of it
that the state trie holds.

Hashes of code are taken from a type of their own on which `sha3` has no collisions.
A storage trie is the map that it holds, so that a root stands for the content, and
`EmptyTrie` is the empty map.  A slot with value zero is not in the trie.
-/

namespace CppSwc

open Std

/-- A type of hashes of code, without collisions. -/
class CodeHash (H : Type) where
  sha3 : Bytes → H
  sha3_injective : Function.Injective sha3

namespace CodeHash

/-- `EmptySHA3`. -/
def emptySHA3 {H : Type} [CodeHash H] : H := sha3 []

/-- Codes as their own hashes. -/
instance : CodeHash Bytes where
  sha3 := id
  sha3_injective := Function.injective_id

end CodeHash

open CodeHash

/-- A storage trie, by its content. -/
abbrev StorageTrie := ExtTreeMap U256 U256

/-- What the state trie holds of an account. -/
structure Leaf (H : Type) where
  nonce : U256
  balance : U256
  storageRoot : StorageTrie
  codeHash : H

/-- `Account`. -/
structure Account (H : Type) where
  isAlive : Bool
  isUnchanged : Bool
  hasNewCode : Bool
  nonce : U256
  balance : U256
  storageRoot : StorageTrie
  codeHash : H
  storageOverlay : ExtTreeMap U256 U256
  codeCache : Bytes

namespace Account

variable {H : Type} [CodeHash H]

/-- The default constructor, of a dead account. -/
def dead : Account H where
  isAlive := false
  isUnchanged := false
  hasNewCode := false
  nonce := 0
  balance := 0
  storageRoot := ∅
  codeHash := emptySHA3
  storageOverlay := ∅
  codeCache := []

/-- The constructor of an alive and changed account. -/
def create (nonce balance : U256) : Account H := { dead with isAlive := true, nonce, balance }

/-- The constructor for what the trie holds, unchanged. -/
def ofLeaf (leaf : Leaf H) : Account H where
  isAlive := true
  isUnchanged := true
  hasNewCode := false
  nonce := leaf.nonce
  balance := leaf.balance
  storageRoot := leaf.storageRoot
  codeHash := leaf.codeHash
  storageOverlay := ∅
  codeCache := []

/-- `kill`. -/
def kill (x : Account H) : Account H :=
  { x with
    isAlive := false
    storageOverlay := ∅
    codeHash := emptySHA3
    storageRoot := ∅
    balance := 0
    nonce := 0
    isUnchanged := false }

/-- `isDirty`. -/
def isDirty (x : Account H) : Bool := !x.isUnchanged

/-- `untouch`. -/
def untouch (x : Account H) : Account H := { x with isUnchanged := true }

/-- `isEmpty`. -/
def isEmpty [DecidableEq H] (x : Account H) : Bool :=
  x.nonce = 0 ∧ x.balance = 0 ∧ x.codeHash = emptySHA3

/-- `addBalance`. -/
def addBalance (value : U256) (x : Account H) : Account H :=
  { x with balance := x.balance + value, isUnchanged := false }

/-- `setNonce`. -/
def setNonce (nonce : U256) (x : Account H) : Account H := { x with nonce, isUnchanged := false }

/-- `incNonce`. -/
def incNonce (x : Account H) : Account H := x.setNonce (x.nonce + 1)

/-- `setStorage`. -/
def setStorage (key value : U256) (x : Account H) : Account H :=
  { x with storageOverlay := x.storageOverlay.insert key value, isUnchanged := false }

/-- `setStorageCache`, which is no change. -/
def setStorageCache (key value : U256) (x : Account H) : Account H :=
  { x with storageOverlay := x.storageOverlay.insert key value }

/-- `setStorageRoot`. -/
def setStorageRoot (root : StorageTrie) (x : Account H) : Account H :=
  { x with storageOverlay := ∅, storageRoot := root, isUnchanged := false }

/-- `clearStorage`. -/
def clearStorage (x : Account H) : Account H := x.setStorageRoot ∅

/-- `setCode`.  It does not call `changed`. -/
def setCode (code : Bytes) (x : Account H) : Account H :=
  { x with codeCache := code, hasNewCode := true, codeHash := sha3 code }

/-- `noteCode`. -/
def noteCode (code : Bytes) (x : Account H) : Account H := { x with codeCache := code }

/-! ## What can be read -/

/-- A storage slot: the overlay goes first. -/
def storageAt (x : Account H) (key : U256) : U256 :=
  match x.storageOverlay[key]? with
  | some value => value
  | none => x.storageRoot.getD key 0

/-- The code with a hash, of which `kept` is kept if it is not empty. -/
def codeOf [DecidableEq H] (lookup : H → Bytes) (hash : H) (kept : Bytes) : Bytes :=
  if hash = emptySHA3 then [] else if kept = [] then lookup hash else kept

/-- The code, where `lookup` is the code with a hash in the database. -/
def code [DecidableEq H] (lookup : H → Bytes) (x : Account H) : Bytes :=
  codeOf lookup x.codeHash x.codeCache

/-- The storage trie with the overlay written to it, as `commit` computes it. -/
def storageTrie (x : Account H) : StorageTrie :=
  x.storageOverlay.toList.foldl
    (fun root e => if e.2 ≠ 0 then root.insert e.1 e.2 else root.erase e.1) x.storageRoot

end Account

end CppSwc
