import CppSwc.Core.Common

/-!
# The node database

`MemoryDB` of libdevcore.  It keeps a string and a reference count for each hash.  The strings
are the encodings of trie nodes, and a node is modelled as the item that it encodes; no string is
`Rlp.null`.

The counts are of a type that is a parameter.  Those of the code are `unsigned`, which is
`BitVec 32` here.  With natural numbers, the default, no count runs over.
-/

namespace CppSwc.Trie

open Std

/-- What the database does with a reference count. -/
class RefCount (N : Type) where
  zero : N
  /-- `second++`. -/
  inc : N → N
  /-- `second--`. -/
  dec : N → N
  /-- `second > 0`. -/
  isPos : N → Bool

instance : RefCount ℕ := ⟨0, (· + 1), (· - 1), fun n => 0 < n⟩

/-- `unsigned`. -/
instance : RefCount (BitVec 32) := ⟨0, (· + 1), (· - 1), fun n => 0 < n⟩

/-- `MemoryDB`. -/
structure MemoryDB (N : Type := ℕ) where
  m_main : ExtTreeMap H256 (Rlp × N) := ∅
  /-- Whether a string with count zero counts as absent. -/
  m_enforceRefs : Bool := false

namespace MemoryDB

section

variable {N : Type} [RefCount N]

/-- The reference count of a hash. -/
def count (db : MemoryDB N) (h : H256) : N := (db.m_main[h]?).elim RefCount.zero Prod.snd

/-- `MemoryDB::lookup`. -/
def lookup (db : MemoryDB N) (h : H256) : Rlp :=
  match db.m_main[h]? with
  | some (v, refs) => if !db.m_enforceRefs || RefCount.isPos refs then v else .null
  | none => .null

/-- `MemoryDB::exists`. -/
def existsEntry (db : MemoryDB N) (h : H256) : Bool :=
  match db.m_main[h]? with
  | some (_, refs) => !db.m_enforceRefs || RefCount.isPos refs
  | none => false

/-- `MemoryDB::insert`. -/
def insert (h : H256) (v : Rlp) (db : MemoryDB N) : MemoryDB N :=
  { db with m_main := db.m_main.insert h (v, RefCount.inc (db.count h)) }

/-- `MemoryDB::kill`. -/
def kill (h : H256) (db : MemoryDB N) : MemoryDB N :=
  match db.m_main[h]? with
  | some (v, refs) =>
      if RefCount.isPos refs then
        { db with m_main := db.m_main.insert h (v, RefCount.dec refs) }
      else db
  | none => db

/-- What `kill` leaves of a count. -/
def killed (refs : N) : N := if RefCount.isPos refs then RefCount.dec refs else refs

variable {db : MemoryDB N} {h h' : H256} {v : Rlp}

@[simp] theorem m_enforceRefs_insert : (db.insert h v).m_enforceRefs = db.m_enforceRefs := rfl

@[simp] theorem m_enforceRefs_kill : (db.kill h).m_enforceRefs = db.m_enforceRefs := by
  rw [kill]
  split
  · split <;> rfl
  · rfl

theorem getElem?_insert :
    (db.insert h v).m_main[h']? =
      if h = h' then some (v, RefCount.inc (db.count h)) else db.m_main[h']? := by
  rw [insert, ExtTreeMap.getElem?_insert]
  simp only [LawfulEqCmp.compare_eq_iff_eq]

theorem getElem?_kill :
    (db.kill h).m_main[h']? =
      if h = h' then (db.m_main[h]?).map fun e => (e.1, killed e.2) else db.m_main[h']? := by
  rw [kill]
  cases hentry : db.m_main[h]? with
  | none =>
      simp only [Option.map_none]
      split
      · next heq => rw [← heq, hentry]
      · rfl
  | some e =>
      obtain ⟨u, refs⟩ := e
      simp only [Option.map_some, killed]
      split
      · simp only [ExtTreeMap.getElem?_insert, LawfulEqCmp.compare_eq_iff_eq]
      · split
        · next heq => rw [← heq, hentry]
        · rfl

theorem lookup_eq : db.lookup h = (db.m_main[h]?).elim .null fun e =>
    if !db.m_enforceRefs || RefCount.isPos e.2 then e.1 else .null := by
  rw [lookup]
  cases db.m_main[h]? with
  | none => rfl
  | some e => rfl

end

variable {db : MemoryDB} {h h' : H256} {v : Rlp}

theorem count_eq : db.count h = (db.m_main[h]?).elim 0 Prod.snd := rfl

theorem killed_eq (refs : ℕ) : killed refs = refs - 1 := by
  rw [killed]
  split
  · rfl
  · next hpos =>
      have hzero : refs = 0 := by simpa [RefCount.isPos] using hpos
      rw [hzero]

@[simp] theorem count_insert :
    (db.insert h v).count h' = db.count h' + if h = h' then 1 else 0 := by
  rw [count_eq, getElem?_insert]
  split
  · next heq =>
      subst heq
      rfl
  · rfl

@[simp] theorem count_kill : (db.kill h).count h' = db.count h' - if h = h' then 1 else 0 := by
  rw [count_eq, getElem?_kill]
  split
  · next heq =>
      subst heq
      rw [count_eq]
      cases db.m_main[h]? with
      | none => rfl
      | some e => exact killed_eq e.2
  · rfl

/-- What has references is found. -/
theorem lookup_of_count_pos (hpos : 0 < db.count h) :
    ∃ refs, db.m_main[h]? = some (db.lookup h, refs) := by
  rw [lookup]
  rw [count_eq] at hpos
  rcases hentry : db.m_main[h]? with - | ⟨v, refs⟩
  · rw [hentry] at hpos
    cases hpos
  · rw [hentry] at hpos
    exact ⟨refs, by simp [RefCount.isPos, show 0 < refs from hpos]⟩

end MemoryDB

end CppSwc.Trie
