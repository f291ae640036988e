import CppSwc.Lib.Follow
import CppSwc.Trie.Contents

/-!
# The trie with counts of another type

The operations on the database do little with a count, and those on the trie see only what the
database does.  So a trie with counts of one type does what a trie with counts of another type
does, as long as the counts stand for each other.
-/

namespace CppSwc.Trie

open Lib Std

variable {N M : Type}

/-- The same strings, with counts that stand for each other. -/
structure Alike (enforceRefs : Bool) (Like : N → M → Prop) (db : MemoryDB N) (db' : MemoryDB M) :
    Prop where
  enforce : db.m_enforceRefs = enforceRefs
  enforce' : db'.m_enforceRefs = enforceRefs
  entry : ∀ h : H256,
    Option.Rel (fun e e' => e.1 = e'.1 ∧ Like e.2 e'.2) db.m_main[h]? db'.m_main[h]?

/-- Nothing is stored. -/
theorem alike_empty {db : MemoryDB N} {db' : MemoryDB M} {enforceRefs : Bool}
    {Like : N → M → Prop} (hdb : db.m_main = ∅) (hdb' : db'.m_main = ∅)
    (henforce : db.m_enforceRefs = enforceRefs) (henforce' : db'.m_enforceRefs = enforceRefs) :
    Alike enforceRefs Like db db' := by
  refine ⟨henforce, henforce', fun h => ?_⟩
  rw [hdb, hdb', ExtTreeMap.getElem?_empty, ExtTreeMap.getElem?_empty]
  exact .none

/-- Some count is over the bound. -/
def Overrun (Over : N → Prop) (db : MemoryDB N) : Prop :=
  ∃ (h : H256) (e : Rlp × N), db.m_main[h]? = some e ∧ Over e.2

variable {enforceRefs : Bool} {Like : N → M → Prop} {Over : N → Prop} {db : MemoryDB N}
  {db' : MemoryDB M} {h : H256} {v : Rlp}

theorem Alike.entry_cases (hdb : Alike enforceRefs Like db db') (h : H256) :
    (db.m_main[h]? = none ∧ db'.m_main[h]? = none) ∨
      ∃ v x y, db.m_main[h]? = some (v, x) ∧ db'.m_main[h]? = some (v, y) ∧ Like x y := by
  have hrel := hdb.entry h
  generalize db.m_main[h]? = o, db'.m_main[h]? = o' at hrel ⊢
  cases hrel with
  | none => exact .inl ⟨rfl, rfl⟩
  | @some e e' hrel =>
      obtain ⟨v, x⟩ := e
      obtain ⟨v', y⟩ := e'
      obtain ⟨heq, hlike⟩ := hrel
      cases heq
      exact .inr ⟨v, x, y, rfl, rfl, hlike⟩

variable [RefCount N] [RefCount M]

/-- Counts of one type stand for counts of another, up to those that are over some bound.  Where
the database reads counts, they must be positive together. -/
structure Counts (enforceRefs : Bool) (Like : N → M → Prop) (Over : N → Prop) : Prop where
  zero : Like RefCount.zero RefCount.zero
  inc : ∀ {x y}, Like x y → Over (RefCount.inc x) ∨ Like (RefCount.inc x) (RefCount.inc y)
  killed : ∀ {x y}, Like x y → Like (MemoryDB.killed x) (MemoryDB.killed y)
  isPos : enforceRefs = true → ∀ {x y}, Like x y → RefCount.isPos x = RefCount.isPos y
  over_inc : ∀ {x}, Over x → Over (RefCount.inc x)
  over_killed : ∀ {x}, Over x → Over (MemoryDB.killed x)

/-! ## The database -/

namespace Alike

theorem count (hdb : Alike enforceRefs Like db db') (hc : Counts enforceRefs Like Over) (h : H256) :
    Like (db.count h) (db'.count h) := by
  rw [MemoryDB.count, MemoryDB.count]
  rcases hdb.entry_cases h with ⟨hentry, hentry'⟩ | ⟨v, x, y, hentry, hentry', hlike⟩
  · rw [hentry, hentry']
    exact hc.zero
  · rw [hentry, hentry']
    exact hlike

theorem lookup (hdb : Alike enforceRefs Like db db') (hc : Counts enforceRefs Like Over)
    (h : H256) : db.lookup h = db'.lookup h := by
  rw [MemoryDB.lookup_eq, MemoryDB.lookup_eq, hdb.enforce, hdb.enforce']
  rcases hdb.entry_cases h with ⟨hentry, hentry'⟩ | ⟨v, x, y, hentry, hentry', hlike⟩
  · rw [hentry, hentry']
    rfl
  · rw [hentry, hentry', Option.elim_some, Option.elim_some]
    cases enforceRefs with
    | false => rfl
    | true => rw [hc.isPos rfl hlike]

theorem existsEntry (hdb : Alike enforceRefs Like db db') (hc : Counts enforceRefs Like Over)
    (h : H256) : db.existsEntry h = db'.existsEntry h := by
  rw [MemoryDB.existsEntry, MemoryDB.existsEntry, hdb.enforce, hdb.enforce']
  rcases hdb.entry_cases h with ⟨hentry, hentry'⟩ | ⟨v, x, y, hentry, hentry', hlike⟩
  · rw [hentry, hentry']
  · rw [hentry, hentry']
    cases enforceRefs with
    | false => rfl
    | true => exact congrArg (!true || ·) (hc.isPos rfl hlike)

theorem insert (hdb : Alike enforceRefs Like db db') (hc : Counts enforceRefs Like Over)
    (h : H256) (v : Rlp) :
    Overrun Over (db.insert h v) ∨ Alike enforceRefs Like (db.insert h v) (db'.insert h v) := by
  rcases hc.inc (hdb.count hc h) with hover | hlike
  · exact .inl ⟨h, _, by rw [MemoryDB.getElem?_insert, if_pos rfl], hover⟩
  · refine .inr ⟨hdb.enforce, hdb.enforce', fun h' => ?_⟩
    rw [MemoryDB.getElem?_insert, MemoryDB.getElem?_insert]
    split
    · exact .some ⟨rfl, hlike⟩
    · exact hdb.entry h'

theorem kill (hdb : Alike enforceRefs Like db db') (hc : Counts enforceRefs Like Over) (h : H256) :
    Alike enforceRefs Like (db.kill h) (db'.kill h) := by
  refine ⟨by simp [hdb.enforce], by simp [hdb.enforce'], fun h' => ?_⟩
  rw [MemoryDB.getElem?_kill, MemoryDB.getElem?_kill]
  split
  · rcases hdb.entry_cases h with ⟨hentry, hentry'⟩ | ⟨v, x, y, hentry, hentry', hlike⟩
    · rw [hentry, hentry']
      exact .none
    · rw [hentry, hentry']
      exact .some ⟨rfl, hc.killed hlike⟩
  · exact hdb.entry h'

end Alike

theorem Overrun.insert (hdb : Overrun Over db) (hc : Counts (M := M) enforceRefs Like Over)
    (h : H256) (v : Rlp) : Overrun Over (db.insert h v) := by
  obtain ⟨h', e, hentry, hover⟩ := hdb
  by_cases heq : h = h'
  · refine ⟨h, _, by rw [MemoryDB.getElem?_insert, if_pos rfl], hc.over_inc ?_⟩
    rw [MemoryDB.count, heq, hentry]
    exact hover
  · exact ⟨h', e, by rw [MemoryDB.getElem?_insert, if_neg heq, hentry], hover⟩

theorem Overrun.kill (hdb : Overrun Over db) (hc : Counts (M := M) enforceRefs Like Over)
    (h : H256) : Overrun Over (db.kill h) := by
  obtain ⟨h', e, hentry, hover⟩ := hdb
  by_cases heq : h = h'
  · subst heq
    exact ⟨h, _, by rw [MemoryDB.getElem?_kill, if_pos rfl, hentry, Option.map_some],
      hc.over_killed hover⟩
  · exact ⟨h', e, by rw [MemoryDB.getElem?_kill, if_neg heq, hentry], hover⟩

/-! ## Functions of the database -/

section

variable (enforceRefs Like Over) in
/-- The function does the same with counts of either type. -/
def Tracked {α : Type} (F : ∀ (K : Type) [RefCount K], MemoryDB K → Option (α × MemoryDB K)) :
    Prop :=
  Follows (Alike enforceRefs Like) (Overrun Over) (F N) (F M)

variable {α β γ : Type} {F G : ∀ (K : Type) [RefCount K], MemoryDB K → Option (α × MemoryDB K)}

theorem Tracked.pure (a : α) : Tracked enforceRefs Like Over fun _ _ db => some (a, db) :=
  Follows.pure a

theorem Tracked.fail : Tracked (α := α) enforceRefs Like Over fun _ _ _ => none := Follows.fail

theorem Tracked.bind {H : ∀ (K : Type) [RefCount K], α → MemoryDB K → Option (β × MemoryDB K)}
    (hF : Tracked enforceRefs Like Over F)
    (hH : ∀ a, Tracked enforceRefs Like Over fun K _ => H K a) :
    Tracked enforceRefs Like Over fun K _ db => (F K db).bind fun p => H K p.1 p.2 :=
  Follows.bind hF hH

theorem Tracked.map (hF : Tracked enforceRefs Like Over F) (m : α → β) :
    Tracked enforceRefs Like Over fun K _ db => (F K db).map fun p => (m p.1, p.2) :=
  Follows.map hF m

theorem Tracked.ite {p : Prop} [Decidable p] (hF : p → Tracked enforceRefs Like Over F)
    (hG : ¬p → Tracked enforceRefs Like Over G) :
    Tracked enforceRefs Like Over fun K _ db => if p then F K db else G K db :=
  Follows.ite hF hG

theorem Tracked.option {H : ∀ (K : Type) [RefCount K], Rlp → MemoryDB K → Option (α × MemoryDB K)}
    (hF : Tracked enforceRefs Like Over F)
    (hH : ∀ b, Tracked enforceRefs Like Over fun K _ => H K b) (b : Option Rlp) :
    Tracked enforceRefs Like Over fun K _ db =>
      match b with
      | none => F K db
      | some b => H K b db := by
  cases b with
  | none => exact hF
  | some b => exact hH b

theorem Tracked.congr (hF : Tracked enforceRefs Like Over F)
    (h : ∀ (K : Type) [RefCount K] (db : MemoryDB K), G K db = F K db) :
    Tracked enforceRefs Like Over G := by
  rwa [Tracked, show G N = F N from funext (h N), show G M = F M from funext (h M)]

variable (hc : Counts enforceRefs Like Over) (sha3 : Rlp → H256)
include hc

theorem tracked_lookup {H : ∀ (K : Type) [RefCount K], Rlp → MemoryDB K → Option (α × MemoryDB K)}
    (h : H256) (hH : ∀ r, Tracked enforceRefs Like Over fun K _ => H K r) :
    Tracked enforceRefs Like Over fun K _ db => H K (db.lookup h) db :=
  Follows.read (fun _ _ hdb => hdb.lookup hc h) hH

theorem tracked_existsEntry
    {H : ∀ (K : Type) [RefCount K], Bool → MemoryDB K → Option (α × MemoryDB K)} (h : H256)
    (hH : ∀ found, Tracked enforceRefs Like Over fun K _ => H K found) :
    Tracked enforceRefs Like Over fun K _ db => H K (db.existsEntry h) db :=
  Follows.read (fun _ _ hdb => hdb.existsEntry hc h) hH

theorem tracked_kill (a : α) (h : H256) :
    Tracked enforceRefs Like Over fun _ _ db => some (a, db.kill h) :=
  Follows.change a (fun _ hdb => hdb.kill hc h) fun _ _ hdb => .inr (hdb.kill hc h)

theorem tracked_insert (a : α) (h : H256) (v : Rlp) :
    Tracked enforceRefs Like Over fun _ _ db => some (a, db.insert h v) :=
  Follows.change a (fun _ hdb => hdb.insert hc h v) fun _ _ hdb => hdb.insert hc h v

/-! ## Nodes -/

theorem tracked_killNodeAt (a : α) (r : Rlp) (h : H256) :
    Tracked enforceRefs Like Over fun _ _ db => some (a, killNodeAt r h db) := by
  by_cases hsize : 32 ≤ size r
  · simp only [killNodeAt, if_pos hsize]
    exact tracked_kill hc a h
  · simp only [killNodeAt, if_neg hsize]
    exact .pure a

theorem tracked_killNode (a : α) (r : Rlp) :
    Tracked enforceRefs Like Over fun _ _ db => some (a, killNode sha3 r db) :=
  tracked_killNodeAt hc a r (sha3 r)

theorem tracked_streamNode (b : Rlp) :
    Tracked enforceRefs Like Over fun _ _ db => some (streamNode sha3 b db) := by
  by_cases hsize : size b < 32
  · simp only [streamNode, if_pos hsize]
    exact .pure b
  · simp only [streamNode, if_neg hsize]
    exact tracked_insert hc _ _ b

theorem tracked_place (orig : Rlp) (k : Nibbles) (s : Bytes) :
    Tracked enforceRefs Like Over fun _ _ => place sha3 orig k s :=
  .ite (fun _ => tracked_killNode hc sha3 _ orig) fun _ =>
    .ite (fun _ => tracked_killNode hc sha3 _ orig) fun _ =>
      .ite (fun _ => tracked_killNode hc sha3 _ orig) fun _ => .fail

theorem tracked_cleve (orig : Rlp) (n : ℕ) :
    Tracked enforceRefs Like Over fun _ _ db => some (cleve sha3 orig n db) :=
  ((tracked_killNode hc sha3 () orig).bind fun _ => tracked_streamNode hc sha3
    (pair ((keyOfNode orig).drop n) (isLeaf orig) (entry orig 1))).map
      (pair ((keyOfNode orig).take n) false)

theorem tracked_graft (orig : Rlp) : Tracked enforceRefs Like Over fun _ _ => graft orig := by
  have hjoin : ∀ n : Rlp, Tracked enforceRefs Like Over fun _ _ db =>
      if n.itemCount = 2 then
        some (pair (keyOfNode orig ++ keyOfNode n) (isLeaf n) (entry n 1), db)
      else none :=
    fun n => .ite (fun _ => .pure _) fun _ => .fail
  refine .ite (fun _ => hjoin (entry orig 1)) fun _ => ?_
  cases toHash (entry orig 1) with
  | none => exact .fail
  | some lh => exact tracked_lookup hc lh fun r => (tracked_kill hc r lh).bind hjoin

theorem tracked_branch (orig : Rlp) :
    Tracked enforceRefs Like Over fun _ _ db => some (branch sha3 orig db) := by
  simp only [branch]
  cases keyOfNode orig with
  | nil => exact tracked_killNode hc sha3 _ orig
  | cons b k =>
      by_cases hp : isLeaf orig ∨ k ≠ []
      · simp only [if_pos hp]
        exact ((tracked_killNode hc sha3 () orig).bind fun _ =>
          tracked_streamNode hc sha3 _).map (only b)
      · simp only [if_neg hp]
        exact tracked_killNode hc sha3 _ orig

/-! ## Insertion -/

theorem tracked_mergeAtAux {f : ∀ (K : Type) [RefCount K], MergeAt K}
    (hf : ∀ orig h k v inLine, Tracked enforceRefs Like Over fun K _ => f K orig h k v inLine)
    (orig : Rlp) (k : Nibbles) (v : Bytes) :
    Tracked enforceRefs Like Over fun K _ => mergeAtAux sha3 (f K) orig k v := by
  have hmerge : ∀ (r : Rlp) (isRemovable : Bool), Tracked enforceRefs Like Over fun K _ db =>
      (f K r (sha3 r) k v (!isRemovable) db).bind fun p => some (streamNode sha3 p.1 p.2) :=
    fun r isRemovable => (hf r (sha3 r) k v (!isRemovable)).bind fun b => tracked_streamNode hc sha3 b
  refine .ite (fun _ => ?_) fun _ => hmerge orig false
  cases toHash orig with
  | none => exact .fail
  | some h => exact tracked_lookup hc h fun r => hmerge r true

theorem tracked_mergeAt (fuel : ℕ) (orig : Rlp) (h : H256) (k : Nibbles) (v : Bytes)
    (inLine : Bool) :
    Tracked enforceRefs Like Over fun _ _ => mergeAt sha3 fuel orig h k v inLine := by
  induction fuel generalizing orig h k v inLine with
  | zero => exact .fail
  | succ fuel ih =>
      have haux := tracked_mergeAtAux hc sha3 (f := fun K _ => mergeAt sha3 fuel) ih
      have hkill : Tracked enforceRefs Like Over fun _ _ db =>
          some ((), if inLine then db else killNodeAt orig h db) := by
        cases inLine with
        | true => exact .pure ()
        | false => exact tracked_killNodeAt hc () orig h
      have hplace := tracked_place hc sha3 orig
      have hcleve : Tracked enforceRefs Like Over fun _ _ db =>
          (some (cleve sha3 orig (shared k (keyOfNode orig)) db)).bind fun p =>
            mergeAt sha3 fuel p.1 (sha3 p.1) k v true p.2 :=
        (tracked_cleve hc sha3 orig _).bind fun cleved => ih cleved (sha3 cleved) k v true
      have hbranch : Tracked enforceRefs Like Over fun _ _ db =>
          (some (branch sha3 orig db)).bind fun p =>
            mergeAt sha3 fuel p.1 (sha3 p.1) k v true p.2 :=
        (tracked_branch hc sha3 orig).bind fun branched => ih branched (sha3 branched) k v true
      refine .ite (fun _ => hplace k v) fun _ =>
        .ite (fun _ => ?_) fun _ => .ite (fun _ => ?_) fun _ => .fail
      · refine .ite (fun _ => hplace k v) fun _ =>
          .ite (fun _ => ?_) fun _ => .ite (fun _ => hcleve) fun _ => hbranch
        exact hkill.bind fun _ => (haux (entry orig 1) (k.drop (keyOfNode orig).length) v).bind
          fun r => .pure (Rlp.list [entry orig 0, r])
      · cases k with
        | nil => exact hplace [] v
        | cons n k =>
            exact hkill.bind fun _ => (haux (entry orig n) k v).bind
              fun r => .pure (Rlp.list (orig.items.set n r))

/-! ## Deletion -/

theorem tracked_deleteAtAux {f : ∀ (K : Type) [RefCount K], DeleteAt K}
    (hf : ∀ orig k, Tracked enforceRefs Like Over fun K _ => f K orig k) (orig : Rlp)
    (k : Nibbles) : Tracked enforceRefs Like Over fun K _ => deleteAtAux sha3 (f K) orig k := by
  have hsame : Tracked enforceRefs Like Over fun _ _ db => some ((none : Option Rlp), db) :=
    .pure none
  have hstream := hsame.option (H := fun _ _ b db =>
      some (some (streamNode sha3 b db).1, (streamNode sha3 b db).2))
    fun b => (tracked_streamNode hc sha3 b).map some
  refine .ite (fun _ => hstream none) fun _ => .ite (fun _ => (hf orig k).bind hstream) fun _ => ?_
  cases toHash orig with
  | none => exact .fail
  | some h => exact tracked_lookup hc h fun r => (hf r k).bind hstream

theorem tracked_graftOver (below s : Rlp) :
    Tracked enforceRefs Like Over fun _ _ => graftOver below s := by
  have hgraft : ∀ two : Bool, Tracked enforceRefs Like Over fun _ _ db =>
      if two then graft s db else some (s, db) :=
    fun two => .ite (fun _ => tracked_graft hc s) fun _ => .pure s
  show Tracked enforceRefs Like Over fun _ _ db =>
    (isTwoItemNode below db).bind fun two => if two then graft s db else some (s, db)
  simp only [isTwoItemNode]
  by_cases hdata : isData below
  · simp only [if_pos hdata]
    cases toHash below with
    | none => exact .fail
    | some h => exact tracked_lookup hc h fun r => hgraft (r.itemCount = 2)
  · simp only [if_neg hdata]
    exact hgraft _

/-- A new node below the one that is killed. -/
theorem tracked_grafted (orig below s : Rlp) : Tracked enforceRefs Like Over fun _ _ db =>
    (graftOver below s (killNode sha3 orig db)).bind fun p => some (some p.1, p.2) :=
  (tracked_killNode hc sha3 () orig).bind fun _ =>
    (tracked_graftOver hc below s).bind fun b => .pure (some b)

/-- A branch in place of the one that is killed. -/
theorem tracked_branchLeft (orig rlp : Rlp) : Tracked enforceRefs Like Over fun _ _ db =>
    match uniqueInUse rlp 255 with
    | none => some (some rlp, killNode sha3 orig db)
    | some used =>
        (graftOver (entry rlp used) (merge rlp used) (killNode sha3 orig db)).bind fun p =>
          some (some p.1, p.2) := by
  cases uniqueInUse rlp 255 with
  | none => exact tracked_killNode hc sha3 (some rlp) orig
  | some used => exact tracked_grafted hc sha3 orig (entry rlp used) (merge rlp used)

theorem tracked_deleteAt (fuel : ℕ) (orig : Rlp) (k : Nibbles) :
    Tracked enforceRefs Like Over fun _ _ => deleteAt sha3 fuel orig k := by
  induction fuel generalizing orig k with
  | zero => exact .fail
  | succ fuel ih =>
      have haux := tracked_deleteAtAux hc sha3 (f := fun K _ => deleteAt sha3 fuel) ih
      have hgraft := tracked_grafted hc sha3 orig
      -- What is done with the node below, when it has changed.
      have hsame : Tracked enforceRefs Like Over fun _ _ db => some ((none : Option Rlp), db) :=
        .pure none
      have hbelow := hsame.option fun r => hgraft r (.list [entry orig 0, r])
      have hchild := fun n : Fin 16 => hsame.option fun r =>
        tracked_branchLeft hc sha3 orig (.list (orig.items.set n r))
      refine .ite (fun _ => .pure none) fun _ => .ite (fun _ => ?_) fun _ => .ite (fun _ => ?_)
        fun _ => .fail
      · exact .ite (fun _ => tracked_killNode hc sha3 _ orig) fun _ =>
          .ite (fun _ => (haux (entry orig 1) (k.drop (keyOfNode orig).length)).bind hbelow)
            fun _ => .pure none
      · cases k with
        | nil =>
            refine .ite (fun _ => .fail) fun _ => ?_
            cases uniqueInUse orig 16 with
            | none => exact tracked_killNode hc sha3 _ orig
            | some used => exact hgraft (entry orig used) (merge orig used)
        | cons n k => exact (haux (entry orig n) k).bind (hchild n)

/-! ## The trie object -/

/-- The root of a trie object beside its database. -/
def GenericTrieDB.parts {K : Type} (g : GenericTrieDB K) : H256 × MemoryDB K := (g.m_root, g.m_db)

theorem tracked_replaceRoot (root : H256) (rv b : Rlp) :
    Tracked enforceRefs Like Over fun _ _ db =>
      some (GenericTrieDB.parts (GenericTrieDB.replaceRoot sha3 ⟨root, db⟩ rv b db)) := by
  have hinsert := tracked_insert hc (sha3 b) (sha3 b) b
  by_cases hsize : size rv < 32
  · simp only [GenericTrieDB.replaceRoot, GenericTrieDB.parts, if_pos hsize]
    exact (tracked_kill hc () root).bind fun _ => hinsert
  · simp only [GenericTrieDB.replaceRoot, GenericTrieDB.parts, if_neg hsize]
    exact hinsert

theorem tracked_setRoot (root : H256) :
    Tracked enforceRefs Like Over fun _ _ db =>
      (GenericTrieDB.setRoot sha3 root db).map GenericTrieDB.parts := by
  have hfound : Tracked enforceRefs Like Over fun _ _ db =>
      if (db.lookup root).isNull then none else some (root, db) :=
    tracked_lookup hc root (H := fun _ _ r db => if r.isNull then none else some (root, db))
      fun _ => .ite (fun _ => .fail) fun _ => .pure root
  refine (tracked_existsEntry hc root (H := fun K _ found db =>
    (some ((), if root = EmptyTrie sha3 ∧ ¬found then db.insert (EmptyTrie sha3) RLPNull
      else db)).bind fun p =>
        if (p.2.lookup root).isNull then none else some (root, p.2)) fun found => ?_).congr ?_
  · by_cases hempty : root = EmptyTrie sha3 ∧ ¬found
    · simp only [if_pos hempty]
      exact (tracked_insert hc () (EmptyTrie sha3) RLPNull).bind fun _ => hfound
    · simp only [if_neg hempty]
      exact hfound
  · intro K _ db
    rw [GenericTrieDB.setRoot, Option.bind_some]
    exact apply_ite (Option.map GenericTrieDB.parts) _ _ _

theorem tracked_init : Tracked enforceRefs Like Over fun _ _ db =>
    (GenericTrieDB.init sha3 db).map GenericTrieDB.parts :=
  (tracked_insert hc () (sha3 RLPNull) RLPNull).bind fun _ => tracked_setRoot hc sha3 (sha3 RLPNull)

theorem tracked_apply (root : H256) (op : Op) :
    Tracked enforceRefs Like Over fun _ _ db =>
      (op.apply sha3 ⟨root, db⟩).map GenericTrieDB.parts := by
  cases op with
  | insert key value =>
      refine (tracked_lookup hc root (H := fun K _ rv db => if rv.isNull then none else
        (mergeAt sha3 ((asNibbles key).length + 5) rv root (asNibbles key) value false db).bind
          fun p => some (GenericTrieDB.parts
            (GenericTrieDB.replaceRoot sha3 ⟨root, p.2⟩ rv p.1 p.2))) fun rv => ?_).congr ?_
      · exact .ite (fun _ => .fail) fun _ =>
          (tracked_mergeAt hc sha3 _ _ _ _ _ _).bind fun b => tracked_replaceRoot hc sha3 root rv b
      · intro K _ db
        rw [Op.apply, GenericTrieDB.insert]
        dsimp only
        split
        · rfl
        · rw [Option.map_map, Option.map_eq_bind]
          rfl
  | remove key =>
      have hsame : Tracked enforceRefs Like Over fun _ _ db => some (root, db) := .pure root
      have hchange := fun rv => hsame.option fun b => tracked_replaceRoot hc sha3 root rv b
      refine (tracked_lookup hc root fun rv => (tracked_deleteAt hc sha3
        ((asNibbles key).length + 1) rv (asNibbles key)).bind (hchange rv)).congr ?_
      intro K _ db
      rw [Op.apply, GenericTrieDB.remove]
      dsimp only
      rw [Option.map_map, Option.map_eq_bind]
      refine Option.bind_congr fun p _ => ?_
      cases p with
      | mk b db₁ => cases b <;> rfl

theorem tracked_runOps (root : H256) (ops : List Op) :
    Tracked enforceRefs Like Over fun _ _ db =>
      (runOps sha3 ops ⟨root, db⟩).map GenericTrieDB.parts := by
  induction ops generalizing root with
  | nil => exact .pure root
  | cons op ops ih =>
      refine ((tracked_apply hc sha3 root op).bind ih).congr ?_
      intro K _ db
      rw [runOps, List.foldlM_cons]
      show ((op.apply sha3 ⟨root, db⟩).bind (runOps sha3 ops)).map _ = _
      rw [Option.map_bind, Option.bind_map]
      rfl

/-- A run from `init` does the same with counts of either type. -/
theorem run_of_alike {ops : List Op} {g : GenericTrieDB N} (hdb : Alike enforceRefs Like db db')
    (hrun : (GenericTrieDB.init sha3 db).bind (runOps sha3 ops) = some g) :
    Overrun Over g.m_db ∨
      ∃ g', (GenericTrieDB.init sha3 db').bind (runOps sha3 ops) = some g' ∧
        g'.m_root = g.m_root ∧ Alike enforceRefs Like g.m_db g'.m_db := by
  have htracked : Tracked enforceRefs Like Over fun _ _ db =>
      ((GenericTrieDB.init sha3 db).bind (runOps sha3 ops)).map GenericTrieDB.parts := by
    refine ((tracked_init hc sha3).bind fun root => tracked_runOps hc sha3 root ops).congr ?_
    intro K _ db
    rw [Option.map_bind, Option.bind_map]
    rfl
  have hparts := congrArg (Option.map GenericTrieDB.parts) hrun
  refine (htracked.like hdb hparts).imp_right ?_
  rintro ⟨t', hmap, hlike⟩
  obtain ⟨g', hrun', heq⟩ := Option.map_eq_some_iff.mp hmap
  obtain ⟨hroot, rfl⟩ := Prod.mk.inj heq
  exact ⟨g', hrun', hroot, hlike⟩

end

end CppSwc.Trie
