import CppSwc.Core.Common
import CppSwc.Lib.Run
import CppSwc.Lib.Tree
import Mathlib.Data.List.Perm.Basic
import Mathlib.Logic.Function.Basic

/-!
# The node table

A `NodeTable` has a bucket for every distance.  A node that turns up when its bucket is
full starts an eviction test: the node that was seen least recently is pinged, and the
test is recorded in `evictions`.  A pong is to keep the old node, and a timer is to put
the new one in its place.

* The entry of a node lives as long as it is in `nodes`.
* Endpoints, the packets that are sent and the events for the host are left out.
* Times are in nanoseconds.  A step says how much time has passed since the last one.
-/

namespace CppSwc

open Lib Std

/-- `s_bins`. -/
def s_bins : ℕ := 255

/-- `s_bucketSize`. -/
def s_bucketSize : ℕ := 16

/-- `c_reqTimeout`, 300 milliseconds. -/
def c_reqTimeout : ℕ := 300 * 10 ^ 6

/-- `NodeEntry`. -/
structure NodeEntry where
  pending : Bool := true

/-- `EvictionTimeout`. -/
structure EvictionTimeout where
  newNodeID : NodeID
  evictedTimePoint : ℕ
deriving DecidableEq

/-- `NodeIPEndpoint`, as far as the table looks at it. -/
structure NodeIPEndpoint where
  address : ℕ
  isAllowed : Bool
  /-- The conversion to `bool`. -/
  isSpecified : Bool

/-- The node of the table. -/
structure Center where
  /-- `m_node.address()`. -/
  address : NodeID
  /-- The bucket of a node, which is one below its distance. -/
  bucket : NodeID → Fin s_bins

/-- `NodeTable`. -/
structure NodeTable where
  nodes : ExtTreeMap NodeID NodeEntry
  state : Fin s_bins → List NodeID := fun _ => []
  evictions : ExtTreeMap NodeID EvictionTimeout := ∅
  pubkDiscoverPings : ExtTreeSet ℕ := ∅
  /-- The scheduled calls of `doCheckEvictions`. -/
  timers : ℕ := 0
  /-- `steady_clock::now()`. -/
  now : ℕ := 0

namespace NodeTable

/-- `addNode` for a node whose relation is unknown. -/
def addNode (id : NodeID) (endpoint : NodeIPEndpoint) (s : NodeTable) : NodeTable :=
  if !endpoint.isSpecified then s
  else if id = 0 then { s with pubkDiscoverPings := s.pubkDiscoverPings.insert endpoint.address }
  else if s.nodes.contains id then s
  else { s with nodes := s.nodes.insert id {} }

/-- `evict`. -/
def evict (leastSeen new : NodeID) (isOpen : Bool) (s : NodeTable) : NodeTable :=
  if !isOpen then s
  else
    let evictions := s.evictions.insertIfNew leastSeen ⟨new, s.now⟩
    { s with
      evictions := evictions
      timers := if evictions.size = 1 then s.timers + 1 else s.timers }

/-- The bucket of a node. -/
def bucket (c : Center) (s : NodeTable) (id : NodeID) : List NodeID := s.state (c.bucket id)

/-- The bucket of a node is another list now. -/
def setBucket (c : Center) (id : NodeID) (l : List NodeID) (s : NodeTable) : NodeTable :=
  { s with state := Function.update s.state (c.bucket id) l }

/-- `noteActiveNode`. -/
def noteActiveNode (c : Center) (pubk : NodeID) (endpoint : NodeIPEndpoint) (isOpen : Bool)
    (s : NodeTable) : NodeTable :=
  if pubk = c.address || !endpoint.isAllowed then s
  else
    match s.nodes[pubk]? with
    | none => s
    | some newNode =>
        if newNode.pending then s
        else
          let nodes := s.bucket c pubk
          if pubk ∈ nodes then s.setBucket c pubk (nodes.erase pubk ++ [pubk])
          else if nodes.length < s_bucketSize then s.setBucket c pubk (nodes ++ [pubk])
          else
            match nodes.head? with
            | none => s
            | some nodeToEvict =>
                if s.nodes.contains nodeToEvict then s.evict nodeToEvict pubk isOpen
                else s.setBucket c pubk (nodes.tail ++ [pubk])

/-- `dropNode`. -/
def dropNode (c : Center) (id : NodeID) (s : NodeTable) : NodeTable :=
  s.setBucket c id ((s.bucket c id).filter (· ≠ id))

/-- The node has answered. -/
def confirm (id : NodeID) (s : NodeTable) : NodeTable :=
  match s.nodes[id]? with
  | none => s
  | some n => { s with nodes := s.nodes.insert id { n with pending := false } }

/-- The entry that `onReceived` takes for one that the pong of a node settles. -/
def settled (id : NodeID) (s : NodeTable) : Option EvictionTimeout :=
  (s.evictions[id]?).filter fun e => s.now < e.evictedTimePoint

/-- `onReceived` for a pong. -/
def onPong (c : Center) (sourceid : NodeID) (source : NodeIPEndpoint) (isOpen : Bool)
    (s : NodeTable) : NodeTable :=
  match s.settled sourceid with
  | some e =>
      let s := { s with evictions := s.evictions.erase sourceid }
      let s := if s.nodes.contains e.newNodeID then s.dropNode c e.newNodeID else s
      (s.confirm sourceid).noteActiveNode c sourceid source isOpen
  | none =>
      if s.nodes.contains sourceid then
        (s.confirm sourceid).noteActiveNode c sourceid source isOpen
      else if s.pubkDiscoverPings.contains source.address then
        let s := { s with pubkDiscoverPings := s.pubkDiscoverPings.erase source.address }
        (s.addNode sourceid source).noteActiveNode c sourceid source isOpen
      else s

/-- The tests whose time is up, as far as their new nodes are known. -/
def overdue (s : NodeTable) : List EvictionTimeout :=
  (s.evictions.toList.map Prod.snd).filter fun e =>
    c_reqTimeout < s.now - e.evictedTimePoint && s.nodes.contains e.newNodeID

/-- What `doCheckEvictions` does when its timer fires.  To drop a node twice is to drop it
once, so `unique` is left out. -/
def doCheckEvictions (c : Center) (s : NodeTable) : NodeTable :=
  let drop := s.overdue
  let evictionsRemain := 0 < s.evictions.size - drop.length
  let s := drop.foldl (fun s e => s.dropNode c e.newNodeID) { s with timers := s.timers - 1 }
  if evictionsRemain then { s with timers := s.timers + 1 } else s

/-! ## Runs -/

/-- What happens to a table. -/
inductive Event where
  | addNode (id : NodeID) (endpoint : NodeIPEndpoint)
  | noteActiveNode (pubk : NodeID) (endpoint : NodeIPEndpoint) (isOpen : Bool)
  | pong (sourceid : NodeID) (source : NodeIPEndpoint) (isOpen : Bool)
  | timer

/-- A timer fires if there is one. -/
def handle (c : Center) (s : NodeTable) : Event → NodeTable
  | .addNode id endpoint => s.addNode id endpoint
  | .noteActiveNode pubk endpoint isOpen => s.noteActiveNode c pubk endpoint isOpen
  | .pong sourceid source isOpen => s.onPong c sourceid source isOpen
  | .timer => if s.timers = 0 then s else s.doCheckEvictions c

/-- The table when time has passed. -/
def after (elapsed : ℕ) (s : NodeTable) : NodeTable := { s with now := s.now + elapsed }

/-- One step: time passes, and something happens. -/
def next (c : Center) (s : NodeTable) (x : ℕ × Event) : NodeTable := (s.after x.1).handle c x.2

/-- A table of known nodes with empty buckets. -/
def start (nodes : ExtTreeMap NodeID NodeEntry) : NodeTable where
  nodes := nodes

/-- No bucket has too many nodes or the same one twice. -/
def BucketsSound (s : NodeTable) : Prop :=
  ∀ i, (s.state i).length ≤ s_bucketSize ∧ (s.state i).Nodup

/-- The step is the pong of a node. -/
def isPongOf (id : NodeID) : Event → Prop
  | .pong sourceid _ _ => sourceid = id
  | _ => False

/-- The step is a timer that fires. -/
def isFiring (s : NodeTable) : Event → Prop
  | .timer => s.timers ≠ 0
  | _ => False

instance (s : NodeTable) : (e : Event) → Decidable (isFiring s e)
  | .timer => inferInstanceAs (Decidable (s.timers ≠ 0))
  | .addNode .. => inferInstanceAs (Decidable False)
  | .noteActiveNode .. => inferInstanceAs (Decidable False)
  | .pong .. => inferInstanceAs (Decidable False)

/-- The pong of the old node ends a test in time. -/
def IsAnswered (s : NodeTable) (x : ℕ × Event) (leastSeen : NodeID) (e : EvictionTimeout) : Prop :=
  isPongOf leastSeen x.2 ∧ s.now + x.1 - e.evictedTimePoint ≤ c_reqTimeout

/-- The timer ends a test whose time is up. -/
def IsOverdue (s : NodeTable) (x : ℕ × Event) (e : EvictionTimeout) : Prop :=
  isFiring s x.2 ∧ c_reqTimeout < s.now + x.1 - e.evictedTimePoint

/-- A test that a step ends keeps the old node or puts the new one in its place, and its
entry is erased. -/
def TestsEnd (c : Center) (s : NodeTable) (x : ℕ × Event) : Prop :=
  ∀ (leastSeen : NodeID) e, s.evictions[leastSeen]? = some e →
    (s.IsAnswered x leastSeen e →
      leastSeen ∈ (next c s x).bucket c leastSeen ∧ e.newNodeID ∉ (next c s x).bucket c e.newNodeID ∧
        (next c s x).evictions[leastSeen]? = none) ∧
    (s.IsOverdue x e →
      leastSeen ∉ (next c s x).bucket c leastSeen ∧ e.newNodeID ∈ (next c s x).bucket c e.newNodeID ∧
        (next c s x).evictions[leastSeen]? = none)

/-- A step ends no test. -/
def NoTestDue (s : NodeTable) (x : ℕ × Event) : Prop :=
  ∀ (leastSeen : NodeID) e, s.evictions[leastSeen]? = some e →
    ¬s.IsAnswered x leastSeen e ∧ ¬s.IsOverdue x e

/-! ## What the operations keep -/

variable {c : Center} {s s' : NodeTable} {id : NodeID}

/-- What holds in every run.  A new node of a test is still outside its bucket, which is
still full. -/
structure Invariant (c : Center) (s : NodeTable) : Prop where
  sound : s.BucketsSound
  placed : ∀ i, ∀ id ∈ s.state i, c.bucket id = i
  live : ∀ i, ∀ id ∈ s.state i, s.nodes.contains id = true
  past : ∀ (l : NodeID) e, s.evictions[l]? = some e → e.evictedTimePoint ≤ s.now
  full : ∀ (l : NodeID) e, s.evictions[l]? = some e →
    (s.bucket c e.newNodeID).length = s_bucketSize ∧ e.newNodeID ∉ s.bucket c e.newNodeID

/-- What a step leaves as it was: the tests, the nodes that are known, and the nodes of a
full bucket. -/
structure Frozen (s s' : NodeTable) : Prop where
  evictions : ∀ (l : NodeID) e, s.evictions[l]? = some e → s'.evictions[l]? = some e
  nodes : ∀ id, s.nodes.contains id = true → s'.nodes.contains id = true
  buckets : ∀ i, (s.state i).length = s_bucketSize → (s'.state i).Perm (s.state i)

theorem Frozen.refl (s : NodeTable) : Frozen s s :=
  ⟨fun _ _ h => h, fun _ h => h, fun _ _ => .refl _⟩

theorem Frozen.trans {s₁ s₂ s₃ : NodeTable} (h : Frozen s₁ s₂) (h' : Frozen s₂ s₃) :
    Frozen s₁ s₃ where
  evictions l e he := h'.evictions l e (h.evictions l e he)
  nodes id hid := h'.nodes id (h.nodes id hid)
  buckets i hi := (h'.buckets i ((h.buckets i hi).length_eq.trans hi)).trans (h.buckets i hi)

@[simp] theorem bucket_setBucket_self (l : List NodeID) : (s.setBucket c id l).bucket c id = l :=
  Function.update_self ..

/-- A bucket that gets another list. -/
theorem state_setBucket (l : List NodeID) (i : Fin s_bins) :
    (s.setBucket c id l).state i = if i = c.bucket id then l else s.state i :=
  Function.update_apply ..

/-- The nodes of a bucket in another order, or one more where there is room. -/
theorem Invariant.setBucket (hs : Invariant c s) {l : List NodeID}
    (hid : s.nodes.contains id = true)
    (hl : l.Perm (s.bucket c id) ∨
      (s.bucket c id).length < s_bucketSize ∧ id ∉ s.bucket c id ∧ l = s.bucket c id ++ [id]) :
    Invariant c (s.setBucket c id l) ∧ Frozen s (s.setBucket c id l) := by
  have hmem : ∀ x ∈ l, x = id ∨ x ∈ s.bucket c id := by
    intro x hx
    rcases hl with hperm | ⟨-, -, rfl⟩
    · exact .inr (hperm.mem_iff.mp hx)
    · rcases List.mem_append.mp hx with hx | hx
      · exact .inr hx
      · exact .inl (List.mem_singleton.mp hx)
  have hfull : ∀ i, (s.state i).length = s_bucketSize →
      ((s.setBucket c id l).state i).Perm (s.state i) := by
    intro i hi
    rw [state_setBucket]
    split
    · rename_i heq
      subst heq
      rcases hl with hperm | ⟨hlt, -, -⟩
      · exact hperm
      · exact absurd hi (Nat.ne_of_lt hlt)
    · exact .refl _
  refine ⟨⟨?_, ?_, ?_, hs.past, ?_⟩, ⟨fun _ _ h => h, fun _ h => h, hfull⟩⟩
  · intro i
    rw [state_setBucket]
    split
    · obtain ⟨hlength, hnodup⟩ := hs.sound (c.bucket id)
      rcases hl with hperm | ⟨hlt, hnot, rfl⟩
      · exact ⟨hperm.length_eq ▸ hlength, hperm.nodup_iff.mpr hnodup⟩
      · refine ⟨?_, ?_⟩
        · rw [List.length_append, List.length_singleton]
          exact hlt
        · rw [List.nodup_append]
          refine ⟨hnodup, List.nodup_singleton id, ?_⟩
          intro a ha b hb heq
          rw [List.mem_singleton.mp hb] at heq
          exact hnot (heq ▸ ha)
    · exact hs.sound i
  · intro i x hx
    rw [state_setBucket] at hx
    split at hx
    · rename_i heq
      rcases hmem x hx with rfl | hx
      · exact heq.symm
      · exact heq ▸ hs.placed _ x hx
    · exact hs.placed i x hx
  · intro i x hx
    rw [state_setBucket] at hx
    split at hx
    · rcases hmem x hx with rfl | hx
      · exact hid
      · exact hs.live _ x hx
    · exact hs.live i x hx
  · intro t e he
    obtain ⟨hlength, hnot⟩ := hs.full t e he
    have hperm := hfull (c.bucket e.newNodeID) hlength
    exact ⟨hperm.length_eq.trans hlength, fun hin => hnot (hperm.mem_iff.mp hin)⟩

/-- A test for a node outside its full bucket. -/
theorem Invariant.evict (hs : Invariant c s) {leastSeen : NodeID} (isOpen : Bool)
    (hfull : (s.bucket c id).length = s_bucketSize) (hnot : id ∉ s.bucket c id) :
    Invariant c (s.evict leastSeen id isOpen) ∧ Frozen s (s.evict leastSeen id isOpen) := by
  rw [NodeTable.evict]
  split
  · exact ⟨hs, .refl s⟩
  · have hcases : ∀ (l : NodeID) e,
        (s.evictions.insertIfNew leastSeen ⟨id, s.now⟩)[l]? = some e →
          e = ⟨id, s.now⟩ ∨ s.evictions[l]? = some e := by
      intro l e he
      rw [ExtTreeMap.getElem?_insertIfNew] at he
      split at he
      · exact .inl (Option.some.inj he).symm
      · exact .inr he
    refine ⟨⟨hs.sound, hs.placed, hs.live, ?_, ?_⟩, ⟨?_, fun _ h => h, fun _ _ => .refl _⟩⟩
    · intro l e he
      rcases hcases l e he with rfl | he
      · exact Nat.le_refl _
      · exact hs.past l e he
    · intro l e he
      rcases hcases l e he with rfl | he
      · exact ⟨hfull, hnot⟩
      · exact hs.full l e he
    · intro l e he
      dsimp only
      rw [ExtTreeMap.getElem?_insertIfNew, if_neg]
      · exact he
      · rintro ⟨heq, hnew⟩
        rw [LawfulEqCmp.compare_eq_iff_eq] at heq
        subst heq
        rw [ExtTreeMap.mem_iff_isSome_getElem?, he] at hnew
        exact hnew rfl

theorem Invariant.noteActiveNode (hs : Invariant c s) (id : NodeID) (endpoint : NodeIPEndpoint)
    (isOpen : Bool) :
    Invariant c (s.noteActiveNode c id endpoint isOpen) ∧
      Frozen s (s.noteActiveNode c id endpoint isOpen) := by
  rw [NodeTable.noteActiveNode]
  split
  · exact ⟨hs, .refl s⟩
  · cases hnode : s.nodes[id]? with
    | none => exact ⟨hs, .refl s⟩
    | some newNode =>
        have hid : s.nodes.contains id = true := by
          rw [ExtTreeMap.contains_eq_isSome_getElem?, hnode]
          rfl
        dsimp only
        split
        · exact ⟨hs, .refl s⟩
        · split
          · rename_i hin
            refine hs.setBucket hid (.inl ?_)
            exact (List.perm_append_singleton id _).trans (List.perm_cons_erase hin).symm
          · rename_i hnot
            split
            · rename_i hlt
              exact hs.setBucket hid (.inr ⟨hlt, hnot, rfl⟩)
            · rename_i hge
              have hfull : (s.bucket c id).length = s_bucketSize := by
                have := (hs.sound (c.bucket id)).1
                rw [bucket] at hge ⊢
                omega
              cases hhead : (s.bucket c id).head? with
              | none => exact ⟨hs, .refl s⟩
              | some nodeToEvict =>
                  have hlive := hs.live _ nodeToEvict (List.mem_of_mem_head? hhead)
                  dsimp only
                  rw [if_pos hlive]
                  exact hs.evict isOpen hfull hnot

/-- More nodes are known, or are known better. -/
theorem Invariant.withNodes (hs : Invariant c s) {nodes : ExtTreeMap NodeID NodeEntry}
    (pings : ExtTreeSet ℕ)
    (hnodes : ∀ id, s.nodes.contains id = true → nodes.contains id = true) :
    Invariant c { s with nodes := nodes, pubkDiscoverPings := pings } ∧
      Frozen s { s with nodes := nodes, pubkDiscoverPings := pings } :=
  ⟨⟨hs.sound, hs.placed, fun i id h => hnodes id (hs.live i id h), hs.past, hs.full⟩,
    ⟨fun _ _ h => h, hnodes, fun _ _ => .refl _⟩⟩

theorem Invariant.addNode (hs : Invariant c s) (id : NodeID) (endpoint : NodeIPEndpoint) :
    Invariant c (s.addNode id endpoint) ∧ Frozen s (s.addNode id endpoint) := by
  rw [NodeTable.addNode]
  split
  · exact ⟨hs, .refl s⟩
  · split
    · exact hs.withNodes _ fun _ h => h
    · split
      · exact ⟨hs, .refl s⟩
      · refine hs.withNodes _ fun id' h => ?_
        rw [ExtTreeMap.contains_insert, h, Bool.or_true]

theorem Invariant.confirm (hs : Invariant c s) (id : NodeID) :
    Invariant c (s.confirm id) ∧ Frozen s (s.confirm id) := by
  rw [NodeTable.confirm]
  split
  · exact ⟨hs, .refl s⟩
  · refine hs.withNodes _ fun id' h => ?_
    rw [ExtTreeMap.contains_insert, h, Bool.or_true]

/-- No pong settles a test: the time at which it began is never in the future. -/
theorem Invariant.settled (hs : Invariant c s) (id : NodeID) : s.settled id = none := by
  rw [NodeTable.settled, Option.filter_eq_none_iff]
  intro e he
  have := hs.past id e he
  simpa using this

theorem Invariant.onPong (hs : Invariant c s) (source : NodeIPEndpoint) (isOpen : Bool) :
    Invariant c (s.onPong c id source isOpen) ∧ Frozen s (s.onPong c id source isOpen) := by
  rw [NodeTable.onPong, hs.settled]
  dsimp only
  split
  · obtain ⟨h₁, f₁⟩ := hs.confirm id
    obtain ⟨h₂, f₂⟩ := h₁.noteActiveNode id source isOpen
    exact ⟨h₂, f₁.trans f₂⟩
  · split
    · obtain ⟨h₁, f₁⟩ := hs.withNodes (s.pubkDiscoverPings.erase source.address) fun _ h => h
      obtain ⟨h₂, f₂⟩ := h₁.addNode id source
      obtain ⟨h₃, f₃⟩ := h₂.noteActiveNode id source isOpen
      exact ⟨h₃, f₁.trans (f₂.trans f₃)⟩
    · exact ⟨hs, .refl s⟩

/-- A node outside its bucket is dropped from nothing. -/
theorem dropNode_of_notMem (h : id ∉ s.bucket c id) : s.dropNode c id = s := by
  have hfilter : (s.bucket c id).filter (· ≠ id) = s.bucket c id := by
    rw [List.filter_eq_self]
    intro x hx
    rw [decide_eq_true_eq]
    rintro rfl
    exact h hx
  rw [dropNode, hfilter, NodeTable.setBucket, bucket, Function.update_eq_self]

theorem foldl_dropNode {l : List EvictionTimeout}
    (h : ∀ e ∈ l, e.newNodeID ∉ s.bucket c e.newNodeID) :
    l.foldl (fun s e => s.dropNode c e.newNodeID) s = s := by
  induction l with
  | nil => rfl
  | cons e l ih =>
      rw [List.foldl_cons, dropNode_of_notMem (h e (List.mem_cons_self ..))]
      exact ih fun e' he' => h e' (List.mem_cons_of_mem _ he')

/-- The timer drops nothing: the new nodes are in no bucket. -/
theorem Invariant.doCheckEvictions (hs : Invariant c s) :
    ∃ timers, s.doCheckEvictions c = { s with timers := timers } := by
  have hoverdue : ∀ e ∈ s.overdue, e.newNodeID ∉ s.bucket c e.newNodeID := by
    intro e he
    rw [overdue, List.mem_filter, List.mem_map] at he
    obtain ⟨⟨⟨l, e'⟩, hmem, rfl⟩, -⟩ := he
    exact (hs.full l e' (getElem?_of_mem_toList hmem)).2
  have hdrop : s.overdue.foldl (fun s e => s.dropNode c e.newNodeID)
      { s with timers := s.timers - 1 } = { s with timers := s.timers - 1 } :=
    foldl_dropNode hoverdue
  rw [NodeTable.doCheckEvictions, hdrop]
  split
  · exact ⟨_, rfl⟩
  · exact ⟨_, rfl⟩

/-- **A step keeps the invariant, the recorded tests and the nodes of the full buckets.** -/
theorem Invariant.next (hs : Invariant c s) (x : ℕ × Event) :
    Invariant c (next c s x) ∧ Frozen s (next c s x) := by
  have hafter : Invariant c (s.after x.1) ∧ Frozen s (s.after x.1) := by
    refine ⟨⟨hs.sound, hs.placed, hs.live, ?_, hs.full⟩, ⟨fun _ _ h => h, fun _ h => h,
      fun _ _ => .refl _⟩⟩
    intro l e he
    exact (hs.past l e he).trans (Nat.le_add_right _ _)
  obtain ⟨ha, fa⟩ := hafter
  have hhandle : Invariant c ((s.after x.1).handle c x.2) ∧
      Frozen (s.after x.1) ((s.after x.1).handle c x.2) := by
    cases x.2 with
    | addNode id endpoint => exact ha.addNode id endpoint
    | noteActiveNode pubk endpoint isOpen => exact ha.noteActiveNode pubk endpoint isOpen
    | pong sourceid source isOpen => exact ha.onPong source isOpen
    | timer =>
        rw [handle]
        split
        · exact ⟨ha, .refl _⟩
        · obtain ⟨timers, htimers⟩ := ha.doCheckEvictions
          rw [htimers]
          exact ⟨⟨ha.sound, ha.placed, ha.live, ha.past, ha.full⟩, ⟨fun _ _ h => h, fun _ h => h,
            fun _ _ => .refl _⟩⟩
  exact ⟨hhandle.1, fa.trans hhandle.2⟩

theorem invariant_start (c : Center) (nodes : ExtTreeMap NodeID NodeEntry) :
    Invariant c (start nodes) where
  sound i := ⟨Nat.zero_le _, List.nodup_nil⟩
  placed i id hid := absurd hid List.not_mem_nil
  live i id hid := absurd hid List.not_mem_nil
  past l e he := by simp [start] at he
  full l e he := by simp [start] at he

/-! ## The end of a test -/

/-- The entry of a test stays, so a test that is due has no end. -/
theorem Invariant.testsEnd_iff (hs : Invariant c s) (x : ℕ × Event) :
    TestsEnd c s x ↔ s.NoTestDue x := by
  constructor
  · intro hend leastSeen e he
    have hstays := (hs.next x).2.evictions leastSeen e he
    obtain ⟨hanswered, hoverdue⟩ := hend leastSeen e he
    constructor
    · intro h
      rw [(hanswered h).2.2] at hstays
      cases hstays
    · intro h
      rw [(hoverdue h).2.2] at hstays
      cases hstays
  · intro hdue leastSeen e he
    obtain ⟨hanswered, hoverdue⟩ := hdue leastSeen e he
    exact ⟨fun h => absurd h hanswered, fun h => absurd h hoverdue⟩

/-- **The buckets are sound and every test has its end exactly as long as no test has to
end.** -/
theorem tests_end (c : Center) (nodes : ExtTreeMap NodeID NodeEntry) (xs : List (ℕ × Event)) :
    (∀ s ∈ trail (next c) (fun s => s) (start nodes) xs, BucketsSound s) ∧
        Along (next c) (TestsEnd c) (start nodes) xs ↔
      Along (next c) NoTestDue (start nodes) xs := by
  have hkeep : ∀ s x, Invariant c s → Invariant c (next c s x) := fun s x hs => (hs.next x).1
  have hsound : ∀ s ∈ trail (next c) (fun s => s) (start nodes) xs, BucketsSound s := by
    intro s hs
    exact (forall_trail hkeep xs (invariant_start c nodes) s hs).sound
  rw [along_congr hkeep (fun s x hs => hs.testsEnd_iff x) xs (invariant_start c nodes)]
  exact and_iff_right hsound

/-- A center with all nodes in one bucket. -/
def oneBucket : Center where
  address := 0
  bucket := fun _ => ⟨0, by decide⟩

/-- The nodes 1 to 17 have answered before. -/
def seventeen : ExtTreeMap NodeID NodeEntry :=
  (List.range 17).foldl (fun m i => m.insert (.ofNat 512 (i + 1)) { pending := false }) ∅

/-- The timer leaves a node that does not answer in its bucket, and the test recorded. -/
theorem test_without_end :
    ¬Along (next oneBucket) (TestsEnd oneBucket) (start seventeen)
      ((List.range 17).map (fun i => (0, .noteActiveNode (.ofNat 512 (i + 1)) ⟨1, true, true⟩ true))
        ++ [(c_reqTimeout + 1, .timer)]) := by
  rw [along_append]
  rintro ⟨-, hend, -⟩
  obtain ⟨-, hoverdue⟩ := hend 1 ⟨17, 0⟩ (by decide +kernel)
  have hgone := (hoverdue ⟨by decide +kernel, by decide +kernel⟩).1
  revert hgone
  decide +kernel

/-- **A bucket that is full keeps its nodes for ever.** -/
theorem full_bucket_frozen (c : Center) (nodes : ExtTreeMap NodeID NodeEntry)
    (xs ys : List (ℕ × Event)) (i : Fin s_bins)
    (hfull : ((xs.foldl (next c) (start nodes)).state i).length = s_bucketSize) :
    (((xs ++ ys).foldl (next c) (start nodes)).state i).Perm
      ((xs.foldl (next c) (start nodes)).state i) := by
  have hkeep : ∀ s x, Invariant c s → Invariant c (next c s x) := fun s x hs => (hs.next x).1
  have hs := invariant_foldl hkeep xs (invariant_start c nodes)
  rw [List.foldl_append]
  generalize xs.foldl (next c) (start nodes) = s at hs hfull
  have hfrozen := invariant_foldl (I := fun t => Invariant c t ∧ Frozen s t) (by
    rintro t x ⟨ht, hst⟩
    exact ⟨(ht.next x).1, hst.trans (ht.next x).2⟩) ys ⟨hs, .refl s⟩
  exact hfrozen.2.buckets i hfull

end NodeTable

end CppSwc
