import CppSwc.Core.Common
import CppSwc.Core.RlpBytes

/-!
# The overlay over the state database

`OverlayDB` of libdevcore, with `LevelDB` under it.

`commit` hands its batch over by `std::move` in a loop that tries ten times.  The pointer is null
after the first attempt, however it ends, and `LevelDB::commit` throws when it is given a null
pointer.  So a later attempt writes nothing, and cannot succeed either: `commit` returns only if
the first attempt succeeds (`returns_iff`), and ends the process otherwise.
-/

namespace CppSwc

open Std

/-! ## The database -/

/-- `db::LevelDB`, as its contents. -/
structure LevelDB where
  contents : Bytes → Option Bytes

/-- `LevelDBWriteBatch`, as the insertions that it collects. -/
abbrev WriteBatch := List (Bytes × Bytes)

/-- What the library answers to a write.  A write that fails may leave anything. -/
inductive WriteStatus where
  | ok
  | failed (left : LevelDB)

/-- How an attempt to write ends, with the database that it leaves. -/
inductive Attempt where
  | done (db : LevelDB)
  | threw (db : LevelDB)

namespace LevelDB

/-- `LevelDB::lookup`. -/
def lookup (db : LevelDB) (key : Bytes) : Bytes := (db.contents key).getD []

/-- `LevelDB::exists`. -/
def existsKey (db : LevelDB) (key : Bytes) : Bool := (db.contents key).isSome

/-- One insertion of a batch. -/
def put (db : LevelDB) (entry : Bytes × Bytes) : LevelDB where
  contents key := if key = entry.1 then some entry.2 else db.contents key

theorem contents_put (db : LevelDB) (entry : Bytes × Bytes) (key : Bytes) :
    (db.put entry).contents key = if key = entry.1 then some entry.2 else db.contents key :=
  rfl

/-- A batch that is written. -/
def write (db : LevelDB) (batch : WriteBatch) : LevelDB := batch.foldl put db

/-- `LevelDB::commit`.  The null pointer is `none`. -/
def commit (db : LevelDB) (status : WriteStatus) : Option WriteBatch → Attempt
  | none => .threw db
  | some batch =>
      match status with
      | .ok => .done (db.write batch)
      | .failed left => .threw left

end LevelDB

/-! ## The overlay -/

/-- `OverlayDB`. -/
structure OverlayDB where
  /-- The strings with their reference counts. -/
  m_main : ExtTreeMap H256 (Bytes × ℕ) := ∅
  /-- The auxiliary strings, with whether they are live. -/
  m_aux : ExtTreeMap H256 (Bytes × Bool) := ∅
  m_db : Option LevelDB := none

namespace OverlayDB

/-- `toSlice` of a hash. -/
def toSlice (h : H256) : Bytes := bigEndian 32 h.toNat

/-- The key of an auxiliary string. -/
def auxSlice (h : H256) : Bytes := toSlice h ++ [255]

/-- What `commit` collects of `m_main`. -/
def mainEntry : H256 × (Bytes × ℕ) → Option (Bytes × Bytes)
  | (h, v, refs) => if refs = 0 then none else some (toSlice h, v)

/-- What `commit` collects of `m_aux`. -/
def auxEntry : H256 × (Bytes × Bool) → Option (Bytes × Bytes)
  | (h, v, live) => if live then some (auxSlice h, v) else none

/-- The batch.  The keys are different, so that the order of the maps is of no account. -/
def writeBatch (o : OverlayDB) : WriteBatch :=
  o.m_main.toList.filterMap mainEntry ++ o.m_aux.toList.filterMap auxEntry

/-- The loop of `commit`, with `n` attempts after this one. -/
def attempts (status : ℕ → WriteStatus) : ℕ → Option WriteBatch → LevelDB → Attempt
  | 0, batch, db => db.commit (status 9) batch
  | n + 1, batch, db =>
      match db.commit (status (8 - n)) batch with
      | .done db' => .done db'
      -- `std::move` left a null pointer
      | .threw db' => attempts status n none db'

/-- How `commit` ends. -/
inductive Committed where
  | returned (o : OverlayDB)
  /-- `exit(-1)`. -/
  | exited (o : OverlayDB)

/-- `OverlayDB::commit`, with the answers to its attempts. -/
def commit (status : ℕ → WriteStatus) (o : OverlayDB) : Committed :=
  match o.m_db with
  | none => .returned o
  | some db =>
      match attempts status 9 (some o.writeBatch) db with
      | .done db' => .returned { m_db := some db' }
      | .threw db' => .exited { o with m_db := some db' }

/-! ## Batches -/

variable {o o' : OverlayDB} {db db' : LevelDB} {batch : WriteBatch} {status : ℕ → WriteStatus}
  {key v : Bytes} {h h' : H256}

/-- What a batch does not name stays. -/
theorem contents_write_of_not_mem (hkey : ∀ v, (key, v) ∉ batch) :
    (db.write batch).contents key = db.contents key := by
  induction batch generalizing db with
  | nil => rfl
  | cons entry batch ih =>
      have hne : key ≠ entry.1 := by
        rintro rfl
        exact hkey entry.2 (.head _)
      rw [LevelDB.write, List.foldl_cons, ← LevelDB.write,
        ih fun v hv => hkey v (.tail _ hv), LevelDB.contents_put, if_neg hne]

/-- What a batch names once is what it says. -/
theorem contents_write_of_mem (hmem : (key, v) ∈ batch)
    (hunique : ∀ v', (key, v') ∈ batch → v' = v) :
    (db.write batch).contents key = some v := by
  induction batch generalizing db with
  | nil => cases hmem
  | cons entry batch ih =>
      rw [LevelDB.write, List.foldl_cons, ← LevelDB.write]
      by_cases hlater : ∃ v', (key, v') ∈ batch
      · obtain ⟨v', hv'⟩ := hlater
        obtain rfl := hunique v' (.tail _ hv')
        exact ih hv' fun v'' hv'' => hunique v'' (.tail _ hv'')
      · rw [contents_write_of_not_mem (not_exists.mp hlater)]
        rcases List.mem_cons.mp hmem with rfl | hmem
        · rw [LevelDB.contents_put, if_pos rfl]
        · exact absurd ⟨v, hmem⟩ hlater

/-! ## Keys -/

theorem toSlice_injective (heq : toSlice h = toSlice h') : h = h' := by
  have hread := congrArg fromBigEndian heq
  rw [toSlice, toSlice, fromBigEndian_bigEndian _ _ h.isLt,
    fromBigEndian_bigEndian _ _ h'.isLt] at hread
  exact BitVec.eq_of_toNat_eq hread

theorem toSlice_ne_auxSlice : toSlice h ≠ auxSlice h' := by
  intro heq
  have hlength := congrArg List.length heq
  rw [auxSlice, List.length_append, toSlice, toSlice, bigEndian_length, bigEndian_length] at hlength
  cases hlength

theorem mem_writeBatch_toSlice :
    (toSlice h, v) ∈ o.writeBatch ↔ ∃ refs, o.m_main[h]? = some (v, refs) ∧ 0 < refs := by
  rw [writeBatch, List.mem_append, List.mem_filterMap, List.mem_filterMap]
  constructor
  · rintro (⟨⟨h', v', refs⟩, hmem, hentry⟩ | ⟨⟨h', v', live⟩, hmem, hentry⟩)
    · rw [mainEntry] at hentry
      split at hentry
      · cases hentry
      · rename_i hrefs
        obtain ⟨hkey, rfl⟩ := Prod.mk.inj (Option.some.inj hentry)
        obtain rfl := toSlice_injective hkey
        exact ⟨refs, ExtTreeMap.mem_toList_iff_getElem?_eq_some.mp hmem, Nat.pos_of_ne_zero hrefs⟩
    · rw [auxEntry] at hentry
      split at hentry
      · exact absurd (Prod.mk.inj (Option.some.inj hentry)).1.symm toSlice_ne_auxSlice
      · cases hentry
  · rintro ⟨refs, hget, hpos⟩
    refine .inl ⟨(h, v, refs), ExtTreeMap.mem_toList_iff_getElem?_eq_some.mpr hget, ?_⟩
    rw [mainEntry, if_neg (Nat.ne_of_gt hpos)]

theorem mem_writeBatch_auxSlice :
    (auxSlice h, v) ∈ o.writeBatch ↔ o.m_aux[h]? = some (v, true) := by
  rw [writeBatch, List.mem_append, List.mem_filterMap, List.mem_filterMap]
  constructor
  · rintro (⟨⟨h', v', refs⟩, hmem, hentry⟩ | ⟨⟨h', v', live⟩, hmem, hentry⟩)
    · rw [mainEntry] at hentry
      split at hentry
      · cases hentry
      · exact absurd (Prod.mk.inj (Option.some.inj hentry)).1 toSlice_ne_auxSlice
    · rw [auxEntry] at hentry
      split at hentry
      · rename_i hlive
        obtain ⟨hkey, rfl⟩ := Prod.mk.inj (Option.some.inj hentry)
        obtain rfl := toSlice_injective (List.append_inj_left' hkey rfl)
        rw [ExtTreeMap.mem_toList_iff_getElem?_eq_some.mp hmem, hlive]
      · cases hentry
  · intro hget
    exact .inr ⟨(h, v, true), ExtTreeMap.mem_toList_iff_getElem?_eq_some.mpr hget, rfl⟩

/-! ## Attempts -/

/-- Once the batch is gone, no attempt succeeds. -/
theorem attempts_none (status : ℕ → WriteStatus) (n : ℕ) (db : LevelDB) :
    attempts status n none db = .threw db := by
  induction n with
  | zero => rfl
  | succ n ih => exact ih

/-- Only the first attempt can succeed. -/
theorem attempts_eq (status : ℕ → WriteStatus) (batch : WriteBatch) (db : LevelDB) :
    attempts status 9 (some batch) db = db.commit (status 0) (some batch) := by
  rw [attempts]
  cases status 0 with
  | ok => rfl
  | failed left => exact attempts_none status 8 left

/-- **`commit` returns only if its first attempt succeeds.** -/
theorem commit_eq_returned_iff :
    o.commit status = .returned o' ↔
      o.m_db = none ∧ o' = o ∨
        ∃ db, o.m_db = some db ∧ status 0 = .ok ∧ o' = { m_db := some (db.write o.writeBatch) } := by
  rw [commit]
  split
  · rename_i hdb
    simp [hdb, eq_comm]
  · rename_i db hdb
    rw [attempts_eq]
    cases status 0 <;> simp [LevelDB.commit, hdb, eq_comm]

/-! ## What is on disk -/

/-- The live entries of an overlay are read from a database. -/
structure OnDisk (o : OverlayDB) (db : LevelDB) : Prop where
  main : ∀ h v refs, o.m_main[h]? = some (v, refs) → 0 < refs →
    db.existsKey (toSlice h) = true ∧ db.lookup (toSlice h) = v
  aux : ∀ h v, o.m_aux[h]? = some (v, true) →
    db.existsKey (auxSlice h) = true ∧ db.lookup (auxSlice h) = v

theorem onDisk_write (o : OverlayDB) (db : LevelDB) : OnDisk o (db.write o.writeBatch) where
  main h v refs hget hpos := by
    have hwritten : (db.write o.writeBatch).contents (toSlice h) = some v := by
      refine contents_write_of_mem (mem_writeBatch_toSlice.mpr ⟨refs, hget, hpos⟩) fun v' hv' => ?_
      obtain ⟨refs', hget', -⟩ := mem_writeBatch_toSlice.mp hv'
      rw [hget] at hget'
      exact (Prod.mk.inj (Option.some.inj hget')).1.symm
    rw [LevelDB.existsKey, LevelDB.lookup, hwritten]
    exact ⟨rfl, rfl⟩
  aux h v hget := by
    have hwritten : (db.write o.writeBatch).contents (auxSlice h) = some v := by
      refine contents_write_of_mem (mem_writeBatch_auxSlice.mpr hget) fun v' hv' => ?_
      have hget' := mem_writeBatch_auxSlice.mp hv'
      rw [hget] at hget'
      exact (Prod.mk.inj (Option.some.inj hget')).1.symm
    rw [LevelDB.existsKey, LevelDB.lookup, hwritten]
    exact ⟨rfl, rfl⟩

/-- An overlay without a database stays as it is.  An overlay with one is cleared when its
entries are on disk, and is not when the process ends. -/
def IsCommitted (o : OverlayDB) : Committed → Prop
  | .returned o' =>
      o.m_db = none ∧ o' = o ∨
        ∃ db', o'.m_db = some db' ∧ OnDisk o db' ∧ o'.m_main = ∅ ∧ o'.m_aux = ∅
  | .exited o' => o'.m_main = o.m_main ∧ o'.m_aux = o.m_aux

/-- An overlay with a database is committed if the first attempt succeeds. -/
theorem returns_iff (status : ℕ → WriteStatus) (o : OverlayDB) :
    (∃ o', o.commit status = .returned o') ↔ o.m_db = none ∨ status 0 = .ok := by
  simp only [commit_eq_returned_iff]
  constructor
  · rintro ⟨o', ⟨hnone, -⟩ | ⟨db, -, hok, -⟩⟩
    · exact .inl hnone
    · exact .inr hok
  · rintro (hnone | hok)
    · exact ⟨o, .inl ⟨hnone, rfl⟩⟩
    · cases hdb : o.m_db with
      | none => exact ⟨o, .inl ⟨rfl, rfl⟩⟩
      | some db => exact ⟨_, .inr ⟨db, rfl, hok, rfl⟩⟩

/-- **A committed overlay is on disk, and where there is a database `commit` returns exactly if the
first attempt succeeds.**  The answers to the attempts are arbitrary. -/
theorem isCommitted_commit (status : ℕ → WriteStatus) (o : OverlayDB) :
    IsCommitted o (o.commit status) ∧
      ((∃ o', o.commit status = .returned o') ↔ o.m_db = none ∨ status 0 = .ok) := by
  refine ⟨?_, returns_iff status o⟩
  cases hresult : o.commit status with
  | returned o' =>
      rcases commit_eq_returned_iff.mp hresult with hnone | ⟨db, -, -, rfl⟩
      · exact .inl hnone
      · exact .inr ⟨_, rfl, onDisk_write o db, rfl, rfl⟩
  | exited o' =>
      rw [commit] at hresult
      split at hresult
      · cases hresult
      · split at hresult
        · cases hresult
        · cases hresult
          exact ⟨rfl, rfl⟩

end OverlayDB

end CppSwc
