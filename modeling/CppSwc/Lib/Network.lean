import Mathlib.Data.List.Basic
import CppSwc.Lib.Run

/-!
# Nodes that exchange messages

A `Protocol` says how one node handles one input and what it sends.  A `World` is
the state of all nodes, the packets in flight and the record of what was handled.
A packet in flight may be delivered at any later point or never, so messages are
delayed, reordered and lost.

A step handles one input at one node.  Safety properties are proved with
`Protocol.invariant`, whose obligation is about one handled input.  The record
answers where a message came from: `Provenance` traces every delivered packet
back to an earlier step of its source that sent it.
-/

namespace CppSwc.Lib

variable {ι σ α ω μ κ : Type*}

/-- The behaviour of the nodes `ι` with states `σ`, inputs `α`, outputs `ω` and
messages `μ`.  `κ` is what a node reads from its environment on a delivery. -/
structure Protocol (ι σ α ω μ κ : Type*) where
  /-- The nodes that take part. -/
  ids : List ι
  /-- The state of a node before its first step. -/
  start : ι → σ
  /-- How a node handles an input. -/
  handle : ι → σ → α → σ × List ω
  /-- The inputs that need no message. -/
  isLocal : α → Bool
  /-- The input that a message from a node makes. -/
  receive : ι → μ → κ → α
  /-- The messages an output stands for. -/
  sends : ω → List (ι × μ)

/-- A message on its way. -/
structure Packet (ι μ : Type*) where
  src : ι
  dst : ι
  msg : μ

/-- One handled input, with the state of the node before it. -/
structure Record (ι σ α : Type*) where
  node : ι
  input : α
  before : σ

/-- The nodes, the packets in flight and the steps so far, oldest first. -/
structure World (ι σ α μ : Type*) where
  node : ι → σ
  flight : List (Packet ι μ)
  trace : List (Record ι σ α)

/-- What the environment does next. -/
inductive Action (ι α κ : Type*) where
  /-- A node handles a local input. -/
  | input (i : ι) (x : α)
  /-- A packet in flight arrives. -/
  | deliver (index : Nat) (reading : κ)

namespace Protocol

variable [DecidableEq ι] (N : Protocol ι σ α ω μ κ)

/-- The state and the outputs after a record. -/
def outcome (r : Record ι σ α) : σ × List ω := N.handle r.node r.before r.input

/-- The packets that a record puts in flight.  A node has no connection to
itself. -/
def packets (r : Record ι σ α) : List (Packet ι μ) :=
  ((N.outcome r).2.flatMap N.sends).filterMap fun e =>
    if e.1 ∈ N.ids ∧ e.1 ≠ r.node then some ⟨r.node, e.1, e.2⟩ else none

/-- The world in which nothing has happened. -/
def initial : World ι σ α μ := { node := N.start, flight := [], trace := [] }

/-- The record of node `i` handling `x` now. -/
def record (w : World ι σ α μ) (i : ι) (x : α) : Record ι σ α :=
  { node := i, input := x, before := w.node i }

/-- The world after node `i` has handled `x`, with `rest` of the packets left. -/
def log (w : World ι σ α μ) (rest : List (Packet ι μ)) (i : ι) (x : α) : World ι σ α μ where
  node j := if j = i then (N.outcome (record w i x)).1 else w.node j
  flight := rest ++ N.packets (record w i x)
  trace := w.trace ++ [record w i x]

/-- The node that an action concerns and the input it handles. -/
def event (w : World ι σ α μ) : Action ι α κ → Option (ι × α)
  | .input i x => if i ∈ N.ids ∧ N.isLocal x = true then some (i, x) else none
  | .deliver index reading =>
      w.flight[index]?.map fun p => (p.dst, N.receive p.src p.msg reading)

/-- The packets an action leaves in flight. -/
def rest (w : World ι σ α μ) : Action ι α κ → List (Packet ι μ)
  | .input _ _ => w.flight
  | .deliver index _ => w.flight.eraseIdx index

/-- All runs of the protocol. -/
def system : System (World ι σ α μ) (Action ι α κ) where
  init w := w = N.initial
  step w a := (N.event w a).map fun e => N.log w (rest w a) e.1 e.2

/-- A condition on the handled input, as one on actions. -/
def Guard (ok : World ι σ α μ → ι → α → Prop) (w : World ι σ α μ) (a : Action ι α κ) : Prop :=
  ∀ e ∈ N.event w a, ok w e.1 e.2

instance (ok : World ι σ α μ → ι → α → Prop) [∀ w i x, Decidable (ok w i x)]
    (w : World ι σ α μ) (a : Action ι α κ) : Decidable (N.Guard ok w a) :=
  inferInstanceAs (Decidable (∀ e ∈ N.event w a, ok w e.1 e.2))

/-- An input that node `i` may handle now. -/
inductive Enabled (w : World ι σ α μ) (i : ι) : α → Prop where
  | ofLocal {x : α} : i ∈ N.ids → N.isLocal x = true → Enabled w i x
  | ofPacket {src : ι} {msg : μ} (reading : κ) : ⟨src, i, msg⟩ ∈ w.flight →
      Enabled w i (N.receive src msg reading)

variable {N} {ok : World ι σ α μ → ι → α → Prop} {w : World ι σ α μ}

omit [DecidableEq ι] in
theorem rest_subset (w : World ι σ α μ) (a : Action ι α κ) : rest w a ⊆ w.flight := by
  cases a with
  | input i x => exact List.Subset.refl _
  | deliver index reading => exact List.eraseIdx_subset

theorem enabled_of_event {a : Action ι α κ} {e : ι × α} (h : N.event w a = some e) :
    N.Enabled w e.1 e.2 := by
  cases a with
  | input i x =>
      simp only [event] at h
      split at h
      · rename_i hlocal
        cases h
        exact .ofLocal hlocal.1 hlocal.2
      · cases h
  | deliver index reading =>
      simp only [event, Option.map_eq_some_iff] at h
      obtain ⟨p, hp, rfl⟩ := h
      exact .ofPacket reading (List.mem_of_getElem? hp)

/-- What holds initially and is kept by every admitted handled input holds in
every world reached. -/
theorem invariant {I : World ι σ α μ → Prop} (start : I N.initial)
    (keep : ∀ w rest i x, N.system.Reach (N.Guard ok) w → rest ⊆ w.flight →
      N.Enabled w i x → ok w i x → I w → I (N.log w rest i x))
    (h : N.system.Reach (N.Guard ok) w) : I w := by
  refine System.Reach.invariant ?_ ?_ h
  · intro w hw
    exact hw ▸ start
  · intro w a w' hreach hw hok hstep
    simp only [system, Option.map_eq_some_iff] at hstep
    obtain ⟨e, he, rfl⟩ := hstep
    exact keep w _ _ _ hreach (rest_subset w a) (enabled_of_event he) (hok e he) hw

/-! ## The record -/

@[simp] theorem log_node_self (rest : List (Packet ι μ)) (i : ι) (x : α) :
    (N.log w rest i x).node i = (N.outcome (record w i x)).1 := by
  simp [log]

theorem log_node_of_ne {i j : ι} (h : j ≠ i) (rest : List (Packet ι μ)) (x : α) :
    (N.log w rest i x).node j = w.node j := by
  simp [log, h]

theorem mem_trace_log {rest : List (Packet ι μ)} {i : ι} {x : α} {r : Record ι σ α} :
    r ∈ (N.log w rest i x).trace ↔ r ∈ w.trace ∨ r = record w i x := by
  simp [log]

theorem mem_flight_log {rest : List (Packet ι μ)} {i : ι} {x : α} {p : Packet ι μ}
    (hrest : rest ⊆ w.flight) (h : p ∈ (N.log w rest i x).flight) :
    p ∈ w.flight ∨ p ∈ N.packets (record w i x) := by
  rcases List.mem_append.mp h with h | h
  · exact .inl (hrest h)
  · exact .inr h

theorem mem_packets {r : Record ι σ α} {p : Packet ι μ} :
    p ∈ N.packets r ↔ p.src = r.node ∧ p.dst ≠ p.src ∧ p.dst ∈ N.ids ∧
      ∃ o ∈ (N.outcome r).2, (p.dst, p.msg) ∈ N.sends o := by
  simp only [packets, List.mem_filterMap, List.mem_flatMap]
  constructor
  · rintro ⟨e, ⟨o, ho, he⟩, hp⟩
    split at hp
    · rename_i hdst
      cases hp
      exact ⟨rfl, hdst.2, hdst.1, o, ho, he⟩
    · cases hp
  · rintro ⟨hsrc, hne, hids, o, ho, he⟩
    refine ⟨(p.dst, p.msg), ⟨o, ho, he⟩, ?_⟩
    rw [← hsrc]
    simp [hids, hne]

/-- Every packet in flight and every message that was handled was sent. -/
structure Provenance (N : Protocol ι σ α ω μ κ) (w : World ι σ α μ) : Prop where
  /-- Packets in flight. -/
  sent : ∀ p ∈ w.flight, ∃ r ∈ w.trace, p ∈ N.packets r
  /-- Messages handled. -/
  received : ∀ r ∈ w.trace, (r.node ∈ N.ids ∧ N.isLocal r.input = true) ∨
    ∃ src msg reading, r.input = N.receive src msg reading ∧
      ∃ q ∈ w.trace, ⟨src, r.node, msg⟩ ∈ N.packets q

theorem provenance_log {rest : List (Packet ι μ)} {i : ι} {x : α} (hrest : rest ⊆ w.flight)
    (hx : N.Enabled w i x) (h : N.Provenance w) : N.Provenance (N.log w rest i x) := by
  have hold : ∀ {p : Packet ι μ}, (∃ r ∈ w.trace, p ∈ N.packets r) →
      ∃ r ∈ (N.log w rest i x).trace, p ∈ N.packets r := by
    rintro p ⟨r, hr, hp⟩
    exact ⟨r, mem_trace_log.mpr (.inl hr), hp⟩
  constructor
  · intro p hp
    rcases mem_flight_log hrest hp with hp | hp
    · exact hold (h.sent p hp)
    · exact ⟨_, mem_trace_log.mpr (.inr rfl), hp⟩
  · intro r hr
    rcases mem_trace_log.mp hr with hr | rfl
    · rcases h.received r hr with hlocal | ⟨src, msg, reading, heq, hq⟩
      · exact .inl hlocal
      · exact .inr ⟨src, msg, reading, heq, hold hq⟩
    · cases hx with
      | ofLocal hi hlocal => exact .inl ⟨hi, hlocal⟩
      | ofPacket reading hp => exact .inr ⟨_, _, reading, rfl, hold (h.sent _ hp)⟩

/-- In every run the packets and the record fit together. -/
theorem provenance (h : N.system.Reach (N.Guard ok) w) : N.Provenance w := by
  refine invariant ?_ ?_ h
  · constructor
    · intro p hp
      cases hp
    · intro r hr
      cases hr
  · intro w rest i x _ hrest hx _ hw
    exact provenance_log hrest hx hw

end Protocol

/-! ## Order in a list -/

variable {a b c : α} {l : List α}

/-- Two members of a list are equal or occur in one of the two orders. -/
theorem pair_sublist_of_mem (ha : a ∈ l) (hb : b ∈ l) :
    a = b ∨ [a, b].Sublist l ∨ [b, a].Sublist l := by
  obtain ⟨s, t, rfl⟩ := List.append_of_mem ha
  rcases List.mem_append.mp hb with hb | hb
  · right
    right
    exact (List.singleton_sublist.mpr hb).append (List.singleton_sublist.mpr List.mem_cons_self)
  · rcases List.mem_cons.mp hb with rfl | hb
    · exact .inl rfl
    · right
      left
      exact ((List.singleton_sublist.mpr hb).cons_cons a).trans (List.sublist_append_right s _)

/-- A pair that occurs in order after an element is added at the end. -/
theorem pair_sublist_concat (h : [a, b].Sublist (l ++ [c])) :
    [a, b].Sublist l ∨ (a ∈ l ∧ b = c) := by
  rw [List.sublist_append_iff] at h
  obtain ⟨s, t, heq, hs, ht⟩ := h
  rcases List.sublist_singleton.mp ht with rfl | rfl
  · left
    rw [List.append_nil] at heq
    exact heq ▸ hs
  · right
    have hsplit : [a] ++ [b] = s ++ [c] := heq
    obtain ⟨rfl, hb⟩ := List.append_inj' hsplit rfl
    exact ⟨List.singleton_sublist.mp hs, List.singleton_injective hb⟩

end CppSwc.Lib
