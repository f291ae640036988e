import CppSwc.Core.Common
import CppSwc.Lib.Grouped
import CppSwc.Lib.Run

/-!
# Watches

A `ClientBase` keeps its filters by hash, and a watch names the hash of its filter.  The
entry of a filter has a reference count of one from the start.  `installWatch` does not
raise it when the filter is there already, while `uninstallWatch` lowers it for each watch.

`Watching` remembers with which filter a watch was installed.  The source does not.
-/

namespace CppSwc

open Lib Std

/-- `InstalledFilter`. -/
structure InstalledFilter (F L : Type) where
  filter : F
  refCount : ℕ := 1
  changes : List L := []

/-- `ClientWatch`, without the time of the last poll. -/
structure ClientWatch (L : Type) where
  id : H256
  changes : List L := []

/-- The filters and watches of a `ClientBase`. -/
structure ClientBase (F L : Type) where
  filters : ExtTreeMap H256 (InstalledFilter F L) := ∅
  specialFilters : ExtTreeMap H256 (List H256)
  watches : ExtTreeMap ℕ (ClientWatch L) := ∅

/-- `PendingChangedFilter`. -/
def pendingChangedFilter : H256 := 0

/-- `ChainChangedFilter`. -/
def chainChangedFilter : H256 := 1

namespace ClientBase

variable {F L : Type}

/-- No filters and no watches. -/
def start : ClientBase F L where
  specialFilters := (ExtTreeMap.empty.insert pendingChangedFilter []).insert chainChangedFilter []

/-! ## Installing and uninstalling -/

/-- The number of a new watch, an `unsigned`. -/
def nextWatch (s : ClientBase F L) : ℕ :=
  (lastKey? s.watches).elim 0 fun last => (last + 1) % 2 ^ 32

/-- `installWatch` for a hash. -/
def installWatchId (h : H256) (s : ClientBase F L) : ClientBase F L :=
  { s with watches := s.watches.insert s.nextWatch { id := h } }

/-- The entry of a filter that `installWatch` makes if there is none. -/
def addFilter (sha3 : F → H256) (f : F) (s : ClientBase F L) : ClientBase F L :=
  if s.filters.contains (sha3 f) then s
  else { s with filters := s.filters.insert (sha3 f) { filter := f } }

/-- `installWatch` for a filter. -/
def installWatch (sha3 : F → H256) (f : F) (s : ClientBase F L) : ClientBase F L :=
  (s.addFilter sha3 f).installWatchId (sha3 f)

/-- The part of `uninstallWatch` that gives up a filter. -/
def release (h : H256) (s : ClientBase F L) : ClientBase F L :=
  match s.filters[h]? with
  | none => s
  | some e =>
      if e.refCount - 1 = 0 then { s with filters := s.filters.erase h }
      else { s with filters := s.filters.insert h { e with refCount := e.refCount - 1 } }

/-- `uninstallWatch`. -/
def uninstallWatch (i : ℕ) (s : ClientBase F L) : ClientBase F L :=
  match s.watches[i]? with
  | none => s
  | some w => { s with watches := s.watches.erase i }.release w.id

/-- `checkWatch`, which throws if there is no such watch. -/
def checkWatch (i : ℕ) (s : ClientBase F L) : ClientBase F L × Option (List L) :=
  match s.watches[i]? with
  | none => (s, none)
  | some w => ({ s with watches := s.watches.insert i { w with changes := [] } }, some w.changes)

/-- The number of watches with an id. -/
def watchesOf (s : ClientBase F L) (h : H256) : ℕ :=
  sumOf (fun w => if w.id = h then 1 else 0) s.watches

/-- No watch has an id, apart from one that a new watch would replace. -/
def Unwatched (s : ClientBase F L) (h : H256) : Prop :=
  ∀ (i : ℕ) w, s.watches[i]? = some w → w.id = h → i = s.nextWatch

/-- A new watch with an id replaces no watch of another entry. -/
def Unreplaced (s : ClientBase F L) (h : H256) : Prop :=
  ∀ w, s.watches[s.nextWatch]? = some w → w.id ∈ s.filters → w.id = h

/-! ## Changes -/

/-- What `appendFromNewPending` and `appendFromBlock` do: a hash for the watches of a
special filter, and for each filter the log entries it finds.  The second component is
`io_changed`. -/
def append (special : H256) (hash : H256) (found : F → List L) (changed : List H256)
    (s : ClientBase F L) : ClientBase F L × List H256 :=
  ({ s with
      specialFilters := s.specialFilters.insert special
        ((s.specialFilters[special]?).getD [] ++ [hash])
      filters := s.filters.map fun _ e => { e with changes := e.changes ++ found e.filter } },
    special :: ((s.filters.toList.filter fun e => !(found e.2.filter).isEmpty).map Prod.fst)
      ++ changed)

/-- `appendFromNewPending`. -/
def appendFromNewPending (hash : H256) (found : F → List L) (changed : List H256)
    (s : ClientBase F L) : ClientBase F L × List H256 :=
  s.append pendingChangedFilter hash found changed

/-- `appendFromBlock`. -/
def appendFromBlock (block : H256) (found : F → List L) (changed : List H256)
    (s : ClientBase F L) : ClientBase F L × List H256 :=
  s.append chainChangedFilter block found changed

/-- The changes that `noteChanged` moves to a watch. -/
def noted (special : H256 → L) (changed : List H256) (s : ClientBase F L) (h : H256) : List L :=
  if changed.contains h then
    match s.filters[h]? with
    | some e => e.changes
    | none => ((s.specialFilters[h]?).getD []).map special
  else []

/-- `noteChanged`. -/
def noteChanged (special : H256 → L) (changed : List H256) (s : ClientBase F L) :
    ClientBase F L where
  watches := s.watches.map fun _ w => { w with changes := w.changes ++ s.noted special changed w.id }
  filters := s.filters.map fun _ e => { e with changes := [] }
  specialFilters := s.specialFilters.map fun _ _ => []

end ClientBase

/-! ## Runs -/

/-- A `ClientBase` and the filters of the watches that were installed with one and not
uninstalled since. -/
structure Watching (F L : Type) where
  base : ClientBase F L
  installed : ExtTreeMap ℕ F := ∅

namespace Watching

variable {F L : Type}

/-- The calls of clients and of the main loop. -/
inductive Call (F L : Type) where
  | installWatch (f : F)
  | installWatchId (h : H256)
  | uninstallWatch (i : ℕ)
  | checkWatch (i : ℕ)
  | appendFromNewPending (hash : H256) (found : F → List L)
  | appendFromBlock (block : H256) (found : F → List L)
  | noteChanged (changed : List H256)

variable (sha3 : F → H256) (special : H256 → L)

/-- One call. -/
def next (s : Watching F L) : Call F L → Watching F L
  | .installWatch f =>
      { base := s.base.installWatch sha3 f
        installed := s.installed.insert s.base.nextWatch f }
  | .installWatchId h =>
      { base := s.base.installWatchId h
        installed := s.installed.erase s.base.nextWatch }
  | .uninstallWatch i =>
      { base := s.base.uninstallWatch i
        installed := s.installed.erase i }
  | .checkWatch i => { s with base := (s.base.checkWatch i).1 }
  | .appendFromNewPending hash found =>
      { s with base := (s.base.appendFromNewPending hash found []).1 }
  | .appendFromBlock block found => { s with base := (s.base.appendFromBlock block found []).1 }
  | .noteChanged changed => { s with base := s.base.noteChanged special changed }

/-- Every entry counts the watches with its id, and every watch that was installed with a
filter has the entry of its filter. -/
structure Kept (s : Watching F L) : Prop where
  counted : ∀ (h : H256) e, s.base.filters[h]? = some e → e.refCount = s.base.watchesOf h
  entered : ∀ (i : ℕ) f, s.installed[i]? = some f → ∃ w e, s.base.watches[i]? = some w ∧
    w.id = sha3 f ∧ s.base.filters[sha3 f]? = some e ∧ sha3 e.filter = sha3 f

/-- A new watch of an entry is the only one. -/
def InstalledAlone (s : Watching F L) : Call F L → Prop
  | .installWatch f => s.base.Unwatched (sha3 f) ∧ s.base.Unreplaced (sha3 f)
  | .installWatchId h => (h ∈ s.base.filters → s.base.Unwatched h) ∧ s.base.Unreplaced h
  | _ => True

end Watching

/-! ## The step -/

namespace ClientBase

variable {F L : Type} {s : ClientBase F L} {h g : H256} {i : ℕ} {w : ClientWatch L}

/-- The count of a filter that is in the map is one, and its hash is the key. -/
def Single (sha3 : F → H256) (s : ClientBase F L) : Prop :=
  ∀ (h : H256) e, s.filters[h]? = some e → e.refCount = 1 ∧ sha3 e.filter = h

/-- No other watch has the id. -/
theorem sumOf_erase_eq_zero_iff (s : ClientBase F L) (g : H256) (n : ℕ) :
    sumOf (fun w => if w.id = g then 1 else 0) (s.watches.erase n) = 0 ↔
      ∀ (i : ℕ) w, s.watches[i]? = some w → w.id = g → i = n := by
  rw [sumOf_eq_zero_iff]
  refine forall_congr' fun i => forall_congr' fun w => ?_
  rw [getElem?_erase_eq]
  by_cases hi : n = i
  · simp [hi]
  · simp [hi, Ne.symm hi]

/-- The watches with an id are one of them and the others. -/
theorem watchesOf_of_getElem? (hw : s.watches[i]? = some w) (g : H256) :
    s.watchesOf g = (if w.id = g then 1 else 0) +
      sumOf (fun w => if w.id = g then 1 else 0) (s.watches.erase i) := by
  rw [watchesOf, sumOf_of_getElem? _ hw]

/-- The watch with a new number does not count an id. -/
theorem watchesOf_erase_of_ne (hw : ∀ w, s.watches[i]? = some w → w.id ≠ g) :
    sumOf (fun w => if w.id = g then 1 else 0) (s.watches.erase i) = s.watchesOf g := by
  cases h : s.watches[i]? with
  | none => rw [erase_of_getElem?_eq_none h, watchesOf]
  | some w => rw [watchesOf_of_getElem? h, if_neg (hw w h), Nat.zero_add]

/-- A new watch is counted right exactly if it is alone. -/
theorem Single.counted_installWatchId_iff {sha3 : F → H256} (hs : s.Single sha3)
    (hold : ∀ g ∈ s.filters, g ≠ h → s.watchesOf g = 1) :
    (∀ (g : H256) e, s.filters[g]? = some e →
        e.refCount = (s.installWatchId h).watchesOf g) ↔
      (h ∈ s.filters → s.Unwatched h) ∧ s.Unreplaced h := by
  have hnew : ∀ g, (s.installWatchId h).watchesOf g = (if h = g then 1 else 0) +
      sumOf (fun w => if w.id = g then 1 else 0) (s.watches.erase s.nextWatch) := by
    intro g
    rw [watchesOf, installWatchId, sumOf_insert]
  constructor
  · intro hcount
    constructor
    · intro hh
      obtain ⟨e, he⟩ := Option.isSome_iff_exists.mp (ExtTreeMap.mem_iff_isSome_getElem?.mp hh)
      have hone := hcount h e he
      rw [(hs h e he).1, hnew, if_pos rfl] at hone
      exact (sumOf_erase_eq_zero_iff s h _).mp (by omega)
    · intro w hw hmem
      by_contra hne
      obtain ⟨e, he⟩ := Option.isSome_iff_exists.mp (ExtTreeMap.mem_iff_isSome_getElem?.mp hmem)
      have hone := hcount w.id e he
      have hbefore := hold w.id hmem hne
      rw [(hs _ e he).1, hnew, if_neg (Ne.symm hne)] at hone
      rw [watchesOf_of_getElem? hw, if_pos rfl] at hbefore
      omega
  · rintro ⟨halone, hfree⟩ g e he
    have hg : g ∈ s.filters := by
      rw [ExtTreeMap.mem_iff_isSome_getElem?, he]
      rfl
    rw [(hs g e he).1, hnew]
    by_cases hhg : h = g
    · subst hhg
      rw [if_pos rfl, (sumOf_erase_eq_zero_iff s h _).mpr (halone hg)]
    · have hkeep : ∀ w, s.watches[s.nextWatch]? = some w → w.id ≠ g := by
        intro w hw hid
        exact hhg ((hfree w hw (hid ▸ hg)).symm.trans hid)
      rw [if_neg hhg, watchesOf_erase_of_ne hkeep, hold g hg (Ne.symm hhg)]

@[simp] theorem addFilter_watches (sha3 : F → H256) (f : F) :
    (s.addFilter sha3 f).watches = s.watches := by
  rw [addFilter]
  split <;> rfl

@[simp] theorem addFilter_nextWatch (sha3 : F → H256) (f : F) :
    (s.addFilter sha3 f).nextWatch = s.nextWatch := by
  rw [nextWatch, nextWatch, addFilter_watches]

/-- The entry of the filter is there, and the other entries are as before. -/
theorem addFilter_filters (sha3 : F → H256) (f : F) (g : H256) :
    (s.addFilter sha3 f).filters[g]? =
      if g = sha3 f then some ((s.filters[g]?).getD { filter := f }) else s.filters[g]? := by
  rw [addFilter]
  by_cases hg : g = sha3 f
  · subst hg
    rw [if_pos rfl, ExtTreeMap.contains_eq_isSome_getElem?]
    cases h : s.filters[sha3 f]? with
    | none => simp
    | some e => simp [h]
  · rw [if_neg hg]
    split
    · rfl
    · rw [getElem?_insert_eq, if_neg (Ne.symm hg)]

theorem mem_addFilter_filters (sha3 : F → H256) (f : F) (g : H256) :
    g ∈ (s.addFilter sha3 f).filters ↔ g = sha3 f ∨ g ∈ s.filters := by
  rw [ExtTreeMap.mem_iff_isSome_getElem?, addFilter_filters, ExtTreeMap.mem_iff_isSome_getElem?]
  split
  · rename_i hg
    simp [hg]
  · rename_i hg
    simp [hg]

theorem Single.addFilter {sha3 : F → H256} (hs : s.Single sha3) (f : F) :
    (s.addFilter sha3 f).Single sha3 := by
  intro g e he
  rw [addFilter_filters] at he
  split at he
  · rename_i hg
    cases hold : s.filters[g]? with
    | none =>
        rw [hold] at he
        cases he
        exact ⟨rfl, hg.symm⟩
    | some e' =>
        rw [hold, Option.getD_some, Option.some.injEq] at he
        exact he ▸ hs g e' hold
  · exact hs g e he

/-- With its last reference an entry goes. -/
theorem Single.release {sha3 : F → H256} (hs : s.Single sha3) (h : H256) :
    s.release h = { s with filters := s.filters.erase h } := by
  rw [ClientBase.release]
  cases he : s.filters[h]? with
  | none => simp only [erase_of_getElem?_eq_none he]
  | some e => simp [(hs h e he).1]

/-- The same entries, watches and counts, up to their changes. -/
structure Same (s t : ClientBase F L) : Prop where
  filters : ∀ h : H256, (t.filters[h]?).map (fun e => (e.refCount, e.filter)) =
    (s.filters[h]?).map fun e => (e.refCount, e.filter)
  watches : ∀ i : ℕ, (t.watches[i]?).map ClientWatch.id = (s.watches[i]?).map ClientWatch.id
  watchesOf : ∀ g, t.watchesOf g = s.watchesOf g

theorem Same.exists_filter {t : ClientBase F L} (hsame : Same s t) {e : InstalledFilter F L}
    (he : t.filters[h]? = some e) :
    ∃ e', s.filters[h]? = some e' ∧ e'.refCount = e.refCount ∧ e'.filter = e.filter := by
  have := hsame.filters h
  rw [he, Option.map_some, eq_comm, Option.map_eq_some_iff] at this
  obtain ⟨e', he', heq⟩ := this
  exact ⟨e', he', congrArg Prod.fst heq, congrArg Prod.snd heq⟩

theorem Same.symm {t : ClientBase F L} (hsame : Same s t) : Same t s where
  filters h := (hsame.filters h).symm
  watches i := (hsame.watches i).symm
  watchesOf g := (hsame.watchesOf g).symm

theorem Same.single {sha3 : F → H256} {t : ClientBase F L} (hsame : Same s t)
    (hs : s.Single sha3) : t.Single sha3 := by
  intro h e he
  obtain ⟨e', he', hcount, hfilter⟩ := hsame.exists_filter he
  rw [← hcount, ← hfilter]
  exact hs h e' he'

theorem same_checkWatch (i : ℕ) : Same s (s.checkWatch i).1 := by
  rw [checkWatch]
  cases hw : s.watches[i]? with
  | none => exact ⟨fun _ => rfl, fun _ => rfl, fun _ => rfl⟩
  | some w =>
      refine ⟨fun _ => rfl, ?_, ?_⟩
      · intro j
        rw [getElem?_insert_eq]
        split
        · rename_i hij
          rw [← hij, hw]
          rfl
        · rfl
      · intro g
        rw [watchesOf_of_getElem? hw, watchesOf, sumOf_insert]

theorem same_append (sp hash : H256) (found : F → List L) (changed : List H256) :
    Same s (s.append sp hash found changed).1 := by
  refine ⟨?_, fun _ => rfl, fun _ => rfl⟩
  intro h
  simp only [append, ExtTreeMap.getElem?_map, Option.map_map]
  rfl

theorem same_noteChanged (special : H256 → L) (changed : List H256) :
    Same s (s.noteChanged special changed) := by
  refine ⟨?_, ?_, ?_⟩
  · intro h
    simp only [noteChanged, ExtTreeMap.getElem?_map, Option.map_map]
    rfl
  · intro i
    simp only [noteChanged, ExtTreeMap.getElem?_map, Option.map_map]
    rfl
  · intro g
    exact sumOf_map _ _ _ fun _ _ => rfl

/-- A watch gets the changes of its filter. -/
theorem noteChanged_watches (special : H256 → L) {changed : List H256}
    (hw : s.watches[i]? = some w) {e : InstalledFilter F L} (he : s.filters[w.id]? = some e)
    (hmem : w.id ∈ changed) :
    (s.noteChanged special changed).watches[i]? =
      some { w with changes := w.changes ++ e.changes } := by
  simp only [noteChanged, ExtTreeMap.getElem?_map, hw, Option.map_some, noted,
    if_pos (List.contains_iff_mem.mpr hmem), he]

end ClientBase

namespace Watching

variable {F L : Type} {sha3 : F → H256} {special : H256 → L} {s : Watching F L}

/-- What holds along a run that meets the condition. -/
structure Shared (sha3 : F → H256) (s : Watching F L) : Prop extends Kept sha3 s where
  single : s.base.Single sha3

/-- An entry has one watch. -/
theorem Shared.watchesOf (hs : Shared sha3 s) {g : H256} (hg : g ∈ s.base.filters) :
    s.base.watchesOf g = 1 := by
  obtain ⟨e, he⟩ := Option.isSome_iff_exists.mp (ExtTreeMap.mem_iff_isSome_getElem?.mp hg)
  rw [← hs.counted g e he, (hs.single g e he).1]

/-- **A watch whose filter was kept receives the changes of the filter.** -/
theorem Kept.receives (hs : Kept sha3 s) {i : ℕ} {f : F} (hi : s.installed[i]? = some f)
    {changed : List H256} (hf : sha3 f ∈ changed) :
    ∃ w e, s.base.watches[i]? = some w ∧ s.base.filters[sha3 f]? = some e ∧
      (s.base.noteChanged special changed).watches[i]? =
        some { w with changes := w.changes ++ e.changes } := by
  obtain ⟨w, e, hw, hid, he, -⟩ := hs.entered i f hi
  refine ⟨w, e, hw, he, ?_⟩
  exact ClientBase.noteChanged_watches special hw (hid ▸ he) (hid ▸ hf)

theorem Kept.of_same {t : ClientBase F L} (hs : Kept sha3 s) (hsame : ClientBase.Same s.base t) :
    Kept sha3 { s with base := t } := by
  constructor
  · intro h e he
    obtain ⟨e', he', hcount, -⟩ := hsame.exists_filter he
    rw [hsame.watchesOf, ← hcount, hs.counted h e' he']
  · intro i f hi
    obtain ⟨w, e, hw, hid, he, hfilter⟩ := hs.entered i f hi
    obtain ⟨e', he', -, heq⟩ := hsame.symm.exists_filter he
    have hwatch := hsame.watches i
    rw [hw, Option.map_some, Option.map_eq_some_iff] at hwatch
    obtain ⟨w', hw', hid'⟩ := hwatch
    exact ⟨w', e', hw', hid'.trans hid, he', heq ▸ hfilter⟩

/-- A new watch without a filter of its own leaves the others their filters. -/
theorem Shared.kept_installWatchId_iff (hs : Shared sha3 s) (h : H256) :
    Kept sha3 (s.next sha3 special (.installWatchId h)) ↔
      InstalledAlone sha3 s (.installWatchId h) := by
  have hiff := hs.single.counted_installWatchId_iff (h := h) fun g hg _ => hs.watchesOf hg
  constructor
  · intro hk
    exact hiff.mp hk.counted
  · intro hok
    refine ⟨hiff.mpr hok, ?_⟩
    intro i f hi
    simp only [next, getElem?_erase_eq] at hi
    split at hi
    · cases hi
    · rename_i hne
      obtain ⟨w, e, hw, hrest⟩ := hs.entered i f hi
      refine ⟨w, e, ?_, hrest⟩
      simp only [next, ClientBase.installWatchId, getElem?_insert_eq, if_neg hne, hw]

/-- So does a new watch with a filter. -/
theorem Shared.kept_installWatch_iff (hs : Shared sha3 s) (f : F) :
    Kept sha3 (s.next sha3 special (.installWatch f)) ↔
      InstalledAlone sha3 s (.installWatch f) := by
  have hiff := (hs.single.addFilter f).counted_installWatchId_iff (h := sha3 f) (by
    intro g hg hne
    rw [ClientBase.mem_addFilter_filters] at hg
    rw [ClientBase.watchesOf, ClientBase.addFilter_watches]
    exact hs.watchesOf (hg.resolve_left hne))
  have hcond : (sha3 f ∈ (s.base.addFilter sha3 f).filters →
        (s.base.addFilter sha3 f).Unwatched (sha3 f)) ∧
        (s.base.addFilter sha3 f).Unreplaced (sha3 f) ↔
      InstalledAlone sha3 s (.installWatch f) := by
    simp only [ClientBase.Unwatched, ClientBase.Unreplaced, InstalledAlone,
      ClientBase.addFilter_watches, ClientBase.addFilter_nextWatch,
      ClientBase.mem_addFilter_filters, true_or, true_imp_iff]
    refine and_congr_right fun _ => forall_congr' fun w => imp_congr_right fun _ => ?_
    tauto
  constructor
  · intro hk
    exact hcond.mp (hiff.mp hk.counted)
  · intro hok
    refine ⟨hiff.mpr (hcond.mpr hok), ?_⟩
    intro i f' hi
    simp only [next, getElem?_insert_eq] at hi
    simp only [next, ClientBase.installWatch, ClientBase.installWatchId, getElem?_insert_eq,
      ClientBase.addFilter_watches, ClientBase.addFilter_nextWatch]
    by_cases hn : s.base.nextWatch = i
    · rw [if_pos hn] at hi
      cases hi
      have he := ClientBase.addFilter_filters (s := s.base) sha3 f (sha3 f)
      rw [if_pos rfl] at he
      exact ⟨_, _, if_pos hn, rfl, he, (hs.single.addFilter f _ _ he).2⟩
    · rw [if_neg hn] at hi
      obtain ⟨w, e, hw, hid, he, hfilter⟩ := hs.entered i f' hi
      refine ⟨w, e, by rw [if_neg hn, hw], hid, ?_, hfilter⟩
      rw [ClientBase.addFilter_filters, he]
      split <;> rfl

/-- A watch that goes takes the entry it shares with no other watch. -/
theorem Shared.kept_uninstallWatch (hs : Shared sha3 s) (i : ℕ) :
    Kept sha3 (s.next sha3 special (.uninstallWatch i)) := by
  have hinstalled : ∀ (j : ℕ) f, (s.installed.erase i)[j]? = some f →
      i ≠ j ∧ s.installed[j]? = some f := by
    intro j f hj
    rw [getElem?_erase_eq] at hj
    split at hj
    · cases hj
    · rename_i hne
      exact ⟨hne, hj⟩
  rw [next, ClientBase.uninstallWatch]
  cases hw : s.base.watches[i]? with
  | none => exact ⟨hs.counted, fun j f hj => hs.entered j f (hinstalled j f hj).2⟩
  | some w =>
      simp only
      rw [ClientBase.Single.release (s := { s.base with watches := s.base.watches.erase i })
        hs.single w.id]
      constructor
      · intro g e he
        simp only [getElem?_erase_eq] at he
        split at he
        · cases he
        · rename_i hne
          have hold := hs.counted g e he
          rw [ClientBase.watchesOf_of_getElem? hw, if_neg hne, Nat.zero_add] at hold
          exact hold
      · intro j f hj
        obtain ⟨hij, hj⟩ := hinstalled j f hj
        obtain ⟨w', e, hw', hid, he, hfilter⟩ := hs.entered j f hj
        have hne : w.id ≠ sha3 f := by
          intro heq
          have hone := hs.watchesOf (ExtTreeMap.mem_iff_isSome_getElem?.mpr (by rw [he]; rfl))
          rw [ClientBase.watchesOf_of_getElem? hw, if_pos heq] at hone
          have hzero := (ClientBase.sumOf_erase_eq_zero_iff s.base (sha3 f) i).mp (by omega)
          exact hij (hzero j w' hw' hid).symm
        simp only [getElem?_erase_eq, if_neg hij, if_neg hne]
        exact ⟨w', e, hw', hid, he, hfilter⟩

/-- Single steps from the invariant. -/
theorem Shared.kept_next_iff (hs : Shared sha3 s) (call : Call F L) :
    Kept sha3 (s.next sha3 special call) ↔ InstalledAlone sha3 s call := by
  cases call with
  | installWatch f => exact hs.kept_installWatch_iff f
  | installWatchId h => exact hs.kept_installWatchId_iff h
  | uninstallWatch i => exact iff_of_true (hs.kept_uninstallWatch i) trivial
  | checkWatch i =>
      exact iff_of_true (hs.toKept.of_same (ClientBase.same_checkWatch i)) trivial
  | appendFromNewPending hash found =>
      exact iff_of_true (hs.toKept.of_same (ClientBase.same_append _ hash found [])) trivial
  | appendFromBlock block found =>
      exact iff_of_true (hs.toKept.of_same (ClientBase.same_append _ block found [])) trivial
  | noteChanged changed =>
      exact iff_of_true (hs.toKept.of_same (ClientBase.same_noteChanged special changed)) trivial

/-- No call makes a count other than one. -/
theorem single_next (hs : s.base.Single sha3) (call : Call F L) :
    (s.next sha3 special call).base.Single sha3 := by
  cases call with
  | installWatch f => exact hs.addFilter f
  | installWatchId h => exact hs
  | uninstallWatch i =>
      rw [next, ClientBase.uninstallWatch]
      cases hw : s.base.watches[i]? with
      | none => exact hs
      | some w =>
          simp only
          rw [ClientBase.Single.release (s := { s.base with watches := s.base.watches.erase i })
            hs w.id]
          intro g e he
          simp only [getElem?_erase_eq] at he
          split at he
          · cases he
          · exact hs g e he
  | checkWatch i => exact (ClientBase.same_checkWatch i).single hs
  | appendFromNewPending hash found => exact (ClientBase.same_append _ hash found []).single hs
  | appendFromBlock block found => exact (ClientBase.same_append _ block found []).single hs
  | noteChanged changed => exact (ClientBase.same_noteChanged special changed).single hs

/-- A client without watches. -/
def start : Watching F L where
  base := ClientBase.start

theorem shared_start : Shared sha3 (start : Watching F L) where
  counted := by
    intro h e he
    simp [start, ClientBase.start] at he
  entered := by
    intro i f hi
    simp [start] at hi
  single := by
    intro h e he
    simp [start, ClientBase.start] at he

/-- **Every watch keeps its filter exactly if each is installed alone.** -/
theorem watches_kept (sha3 : F → H256) (special : H256 → L) (calls : List (Call F L)) :
    (∀ s ∈ trail (next sha3 special) id start calls, Kept sha3 s) ↔
      Along (next sha3 special) (InstalledAlone sha3) start calls := by
  refine forall_trail_iff (I := Shared sha3) (fun s hs => hs.toKept) ?_ ?_ calls shared_start
  · intro s call hs
    exact hs.kept_next_iff call
  · intro s call hs hok
    exact ⟨(hs.kept_next_iff call).mpr hok, single_next hs.single call⟩

/-- Of two watches with the same filter the second loses it with the first. -/
theorem filter_lost :
    ¬∀ s ∈ trail (next (id : H256 → H256) (id : H256 → H256)) id start
        [.installWatch 5, .installWatch 5, .uninstallWatch 0],
      Kept (id : H256 → H256) s := by
  intro h
  have hlast := h _ (List.mem_of_getElem? (i := 3) rfl)
  obtain ⟨w, e, -, -, he, -⟩ := hlast.entered 1 5 (by decide +kernel)
  have hsome := Option.isSome_of_mem he
  revert hsome
  decide +kernel

end Watching

end CppSwc
