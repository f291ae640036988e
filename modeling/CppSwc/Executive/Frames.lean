import CppSwc.Executive.Conservation
import CppSwc.Lib.Frames
import Mathlib.Data.BitVec

/-!
# What frames leave behind

A frame has a `SubState` of its own.  `ExtVM` adds that of a frame to the one of its caller
after the frame, whether it has failed or not, and a frame that fails has cleared it
before (`revert`).

What is done in a transaction is told by `Deed`s (`Lib/Frames`): the logs, refunds and
suicides, and the frames inside.  `Acts` says by which deeds the operations of a host have
taken a world to another one, `Ran` what the deeds of an `Executive` are.  Whether a frame
has succeeded is told from what `exec` ends with, not from what `Executive` makes of it.
-/

namespace CppSwc

open Std Lib Evm CodeHash

attribute [ext] SubState

namespace SubState

instance : Add SubState := ⟨add⟩

instance : Zero SubState := ⟨{}⟩

variable (s t : SubState)

@[simp] theorem logs_add : (s + t).logs = s.logs ++ t.logs := rfl

@[simp] theorem refunds_add : (s + t).refunds = s.refunds + t.refunds := rfl

@[simp] theorem mem_suicides_add {a : Address} :
    a ∈ (s + t).suicides ↔ a ∈ s.suicides ∨ a ∈ t.suicides :=
  ExtTreeSet.mem_union_iff

@[simp] theorem logs_zero : (0 : SubState).logs = [] := rfl

@[simp] theorem refunds_zero : (0 : SubState).refunds = 0 := rfl

@[simp] theorem not_mem_suicides_zero {a : Address} : a ∉ (0 : SubState).suicides :=
  ExtTreeSet.not_mem_empty

/-- Two that have the same suicides, logs and refunds. -/
theorem eq_of {s t : SubState} (hsuicides : ∀ a, a ∈ s.suicides ↔ a ∈ t.suicides)
    (hlogs : s.logs = t.logs) (hrefunds : s.refunds = t.refunds) : s = t :=
  SubState.ext (ExtTreeSet.ext_mem hsuicides) hlogs hrefunds

instance : AddMonoid SubState where
  add_assoc s t u := by
    refine eq_of (fun a => ?_) (List.append_assoc _ _ _) (BitVec.add_assoc _ _ _)
    simp only [mem_suicides_add, or_assoc]
  zero_add s := by
    refine eq_of (fun a => ?_) (List.nil_append _) (BitVec.zero_add _)
    simp only [mem_suicides_add, not_mem_suicides_zero, false_or]
  add_zero s := by
    refine eq_of (fun a => ?_) (List.append_nil _) (BitVec.add_zero _)
    simp only [mem_suicides_add, not_mem_suicides_zero, or_false]
  nsmul := nsmulRec

end SubState

/-! ## Effects and deeds -/

/-- What a frame does to its `SubState`. -/
inductive FrameEffect where
  | log (entry : LogEntry)
  | refund (gas : U256)
  | suicide (address : Address)
deriving DecidableEq, Repr

namespace FrameEffect

/-- What `SubState` has after the effect alone. -/
def sub : FrameEffect → SubState
  | log entry => { logs := [entry] }
  | refund gas => { refunds := gas }
  | suicide a => { suicides := (∅ : ExtTreeSet Address).insert a }

/-- The log entry, if it is one. -/
def log? : FrameEffect → Option LogEntry
  | log entry => some entry
  | _ => none

/-- What is refunded. -/
def refunded : FrameEffect → U256
  | refund gas => gas
  | _ => 0

/-- The logs of effects. -/
theorem logs_sum (effects : List FrameEffect) :
    (effects.map sub).sum.logs = effects.filterMap log? := by
  induction effects with
  | nil => rfl
  | cons effect effects ih =>
      rw [List.map_cons, List.sum_cons, SubState.logs_add, ih, List.filterMap_cons]
      cases effect <;> rfl

/-- The refunds of effects. -/
theorem refunds_sum (effects : List FrameEffect) :
    (effects.map sub).sum.refunds = (effects.map refunded).sum := by
  induction effects with
  | nil => rfl
  | cons effect effects ih =>
      rw [List.map_cons, List.map_cons, List.sum_cons, List.sum_cons, SubState.refunds_add, ih]
      cases effect <;> rfl

/-- The suicides of effects. -/
theorem mem_suicides_sum (effects : List FrameEffect) (a : Address) :
    a ∈ (effects.map sub).sum.suicides ↔ suicide a ∈ effects := by
  induction effects with
  | nil => simp
  | cons effect effects ih =>
      rw [List.map_cons, List.sum_cons, SubState.mem_suicides_add, ih, List.mem_cons]
      cases effect with
      | log entry => simp [sub]
      | refund gas => simp [sub]
      | suicide b =>
          simp only [sub, mem_insert_iff, ExtTreeSet.not_mem_empty, or_false, suicide.injEq]
          rw [eq_comm]

end FrameEffect

section

variable {H : Type} [DecidableEq H] [CodeHash H] (M : Setting)

/-- Whether a frame succeeds, from what `exec` ends with: there is no exception, neither of
the machine nor of the deposit of a new contract. -/
def Setting.succeeds (isCreation : Bool) (r : VMResult) : Bool :=
  match r.outcome with
  | .error _ => false
  | .ok out =>
      !isCreation ||
        (decide (out.length ≤ M.schedule.maxCodeSize.toNat) &&
          (decide (out.length * M.schedule.createDataGas.toNat % 2 ^ 64 ≤ r.gas.toNat) ||
            !M.schedule.exceptionalFailedCodeDeposit))

/-- What is done in the frames that a host enters. -/
structure Chronicle (H : Type) where
  call : Message → CallParameters → World H → List (Deed FrameEffect) → Prop
  create : Message → CreateParameters → World H → List (Deed FrameEffect) → Prop

variable (N : Nested H) (C : Chronicle H)

/-- The deeds by which the operations of the host of a frame take a world to another one. -/
inductive Acts (m : Message) (w : World H) : List (Deed FrameEffect) → World H → Prop where
  | start : Acts m w [] w
  | setStore {deeds : List (Deed FrameEffect)} {w' : World H} (h : Acts m w deeds w')
      (key value : U256) : Acts m w deeds ((extVM M N m).setStore w' key value)
  | blockHash {deeds : List (Deed FrameEffect)} {w' : World H} (h : Acts m w deeds w')
      (number : U256) : Acts m w deeds ((extVM M N m).blockHash w' number).1
  | log {deeds : List (Deed FrameEffect)} {w' : World H} (h : Acts m w deeds w')
      (topics : List U256) (data : Bytes) :
      Acts m w (deeds ++ [.own (.log ⟨m.myAddress, topics, data⟩)])
        ((extVM M N m).log w' topics data)
  | addRefunds {deeds : List (Deed FrameEffect)} {w' : World H} (h : Acts m w deeds w')
      (gas : Nat) :
      Acts m w (deeds ++ [.own (.refund (BitVec.ofNat 256 gas))])
        ((extVM M N m).addRefunds w' gas)
  | suicide {deeds : List (Deed FrameEffect)} {w' : World H} (h : Acts m w deeds w')
      (dest : Address) :
      Acts m w (deeds ++ [.own (.suicide m.myAddress)]) ((extVM M N m).suicide w' dest)
  | call {deeds inner : List (Deed FrameEffect)} {w' : World H} (h : Acts m w deeds w')
      (p : CallParameters) (hinner : C.call m p w' inner) :
      Acts m w (deeds ++ inner) ((extVM M N m).call w' p).1
  | create {deeds inner : List (Deed FrameEffect)} {w' : World H} (h : Acts m w deeds w')
      (p : CreateParameters) (hinner : C.create m p w' inner) :
      Acts m w (deeds ++ inner) ((extVM M N m).create w' p).1

namespace Executive

/-- What an `Executive` does: it enters a frame, and `go` runs its code. -/
def running (enter : Action H Bool) : Action H Unit := do
  let done ← enter
  runIf (done = false) (go M N)

/-- The first part of `go`, for a creation. -/
def clear (m : Message) : Action H Unit := do
  let e ← get
  runIf (e.isCreation = true) (orExit (onState M fun _ => State.clearStorage m.myAddress))

/-- The last part of `go`, from what `exec` ends with. -/
def finish (isCreation : Bool) (m : Message) : Except VMException Bytes → Action H Unit
  | .error x => caught x
  | .ok out =>
      if isCreation then finishCreation M m.myAddress out
      else modify fun e => { e with output := out }

/-- The deeds of an `Executive`: the one frame that it enters, if there is code in it. -/
inductive Ran (enter : Action H Bool) (start : Executive H) : List (Deed FrameEffect) → Prop where
  /-- The process has ended, or the transaction was not valid. -/
  | ended {x : Failure} {e : Executive H} (h : running M N enter start = .error x e) :
      Ran enter start []
  /-- There was no code to run. -/
  | plain {done : Bool} {e : Executive H} (h : enter start = .ok done e)
      (hplain : done = true ∨ e.ext = none) : Ran enter start []
  | code {m : Message} {e e₁ e' : Executive H} {deeds : List (Deed FrameEffect)}
      (henter : enter start = .ok false e) (hext : e.ext = some m)
      (hclear : clear M m e = .ok () e₁)
      (hacts : Acts M N C m e₁.world deeds (M.vm.exec (M.context N m) e₁.gas e₁.world).2)
      (h : running M N enter start = .ok () e') :
      Ran enter start
        [.frame (M.succeeds e.isCreation (M.vm.exec (M.context N m) e₁.gas e₁.world).1) deeds]

end Executive

namespace Chronicle

/-- The start of a frame that a host enters. -/
def starting (m : Message) (w : World H) : Executive H :=
  { world := { w with sub := {} }, depth := m.depth + 1 }

/-- What is done in frames up to `n` levels deep. -/
def upTo : Nat → Chronicle H
  | 0 => ⟨fun _ _ _ deeds => deeds = [], fun _ _ _ deeds => deeds = []⟩
  | n + 1 =>
      { call := fun m p w =>
          Executive.Ran M (Nested.upTo M n) (upTo n) (Executive.call M p m.gasPrice m.origin)
            (starting m w)
        create := fun m p w =>
          Executive.Ran M (Nested.upTo M n) (upTo n) (Nested.createBy M m p) (starting m w) }

end Chronicle

/-! ## Every run has its deeds -/

variable {M} {N} {C}

/-- All that is done by nested frames is told. -/
structure Chronicle.Covers (C : Chronicle H) : Prop where
  call : ∀ m p w, ∃ deeds, C.call m p w deeds
  create : ∀ m p w, ∃ deeds, C.create m p w deeds

namespace Acts

variable {m : Message} {w w' w'' : World H} {deeds deeds' : List (Deed FrameEffect)}

theorem trans (h : Acts M N C m w deeds w') (h' : Acts M N C m w' deeds' w'') :
    Acts M N C m w (deeds ++ deeds') w'' := by
  induction h' with
  | start => rwa [List.append_nil]
  | setStore _ key value ih => exact ih.setStore key value
  | blockHash _ number ih => exact ih.blockHash number
  | log _ topics data ih => exact List.append_assoc _ _ _ ▸ ih.log topics data
  | addRefunds _ gas ih => exact List.append_assoc _ _ _ ▸ ih.addRefunds gas
  | suicide _ dest ih => exact List.append_assoc _ _ _ ▸ ih.suicide dest
  | call _ p hinner ih => exact List.append_assoc _ _ _ ▸ ih.call p hinner
  | create _ p hinner ih => exact List.append_assoc _ _ _ ▸ ih.create p hinner

/-- There are deeds from one world to the other. -/
def Reaches (M : Setting) (N : Nested H) (C : Chronicle H) (m : Message) (w w' : World H) : Prop :=
  ∃ deeds, Acts M N C m w deeds w'

instance : Std.Refl (Reaches M N C m) where
  refl _ := ⟨[], .start⟩

instance : IsTrans (World H) (Reaches M N C m) where
  trans _ _ _ := fun ⟨_, h⟩ ⟨_, h'⟩ => ⟨_, h.trans h'⟩

/-- What the machine does is told. -/
theorem of_exec (hvm : M.vm.Confined) (hC : C.Covers) (m : Message) (gas : U256) (w : World H) :
    ∃ deeds, Acts M N C m w deeds (M.vm.exec (M.context N m) gas w).2 := by
  have hhost : (M.context N m).host.Keeps (Reaches M N C m) :=
    { setStore := fun w key value => ⟨_, Acts.start.setStore key value⟩
      create := fun w p => by
        obtain ⟨inner, hinner⟩ := hC.create m p w
        exact ⟨_, Acts.start.create p hinner⟩
      call := fun w p => by
        obtain ⟨inner, hinner⟩ := hC.call m p w
        exact ⟨_, Acts.start.call p hinner⟩
      log := fun w topics data => ⟨_, Acts.start.log topics data⟩
      blockHash := fun w number => ⟨_, Acts.start.blockHash number⟩
      addRefunds := fun w gas => ⟨_, Acts.start.addRefunds gas⟩ }
  exact hvm (M.context N m) (Reaches M N C m) hhost
    (fun w dest => ⟨_, Acts.start.suicide dest⟩) gas w

end Acts

namespace Executive

/-- A frame with code that has run. -/
theorem go_ok {m : Message} {e e' : Executive H} (hext : e.ext = some m)
    (h : go M N e = .ok () e') :
    ∃ e₁ e₂ e₃ r, clear M m e = .ok () e₁ ∧ exec M N m e₁ = .ok r e₂ ∧
      finish M e.isCreation m r e₂ = .ok () e₃ ∧ e'.world = e₃.world ∧ e'.ext = e₃.ext ∧
      e'.logs = e₃.logs := by
  rw [go, get_bind, hext] at h
  obtain ⟨u, e₃, hrun, hend⟩ := bind_eq_ok.mp h
  rw [runCode, get_bind] at hrun
  obtain ⟨u, e₁, hclear, hrun⟩ := bind_eq_ok.mp hrun
  obtain ⟨r, e₂, hexec, hfinish⟩ := bind_eq_ok.mp hrun
  rw [modify_eq_ok.mp hend]
  exact ⟨e₁, e₂, e₃, r, hclear, hexec, hfinish, rfl, rfl, rfl⟩

/-- Every run of an `Executive` has its deeds. -/
theorem Ran.exists (hvm : M.vm.Confined) (hC : C.Covers) (enter : Action H Bool)
    (start : Executive H) : ∃ deeds, Ran M N C enter start deeds := by
  cases hrun : running M N enter start with
  | error x e => exact ⟨[], .ended hrun⟩
  | ok u e' =>
      obtain ⟨done, e, henter, hgo⟩ := bind_eq_ok.mp hrun
      cases done with
      | true => exact ⟨[], .plain henter (.inl rfl)⟩
      | false =>
          cases hext : e.ext with
          | none => exact ⟨[], .plain henter (.inr hext)⟩
          | some m =>
              obtain ⟨e₁, _, _, _, hclear, -⟩ := go_ok hext hgo
              obtain ⟨deeds, hacts⟩ := Acts.of_exec hvm hC m e₁.gas e₁.world
              exact ⟨_, .code henter hext hclear hacts hrun⟩

end Executive

theorem Chronicle.covers_upTo (hvm : M.vm.Confined) (n : Nat) :
    (Chronicle.upTo M n : Chronicle H).Covers := by
  induction n with
  | zero => exact ⟨fun _ _ _ => ⟨[], rfl⟩, fun _ _ _ => ⟨[], rfl⟩⟩
  | succ n ih =>
      exact ⟨fun _ _ _ => Executive.Ran.exists hvm ih _ _,
        fun _ _ _ => Executive.Ran.exists hvm ih _ _⟩

/-! ## Entering a frame -/

namespace Executive

/-- If there is nothing in the `SubState` and in the logs, then nothing comes in. -/
def Bare (e e' : Executive H) : Prop :=
  e.world.sub = 0 ∧ e.logs = [] → e'.world.sub = 0 ∧ e'.logs = []

instance : Std.Refl (@Bare H) where
  refl _ := id

instance : IsTrans (Executive H) Bare where
  trans _ _ _ h h' := h' ∘ h

omit [DecidableEq H] [CodeHash H] in
/-- A change of other members. -/
theorem bare_modify {f : Executive H → Executive H}
    (hf : ∀ e, (f e).world.sub = e.world.sub ∧ (f e).logs = e.logs) :
    Moves Bare (modify f : Action H Unit) := by
  refine Moves.modify fun e h => ?_
  rwa [(hf e).1, (hf e).2]

omit [DecidableEq H] [CodeHash H] in
theorem bare_onState {α : Type} (m : State.Pick → State.Action H α) :
    Moves Bare (onState M m) :=
  moves_onState (fun _ _ => id) m

omit [DecidableEq H] [CodeHash H] in
theorem bare_note (event : Event) : Moves Bare (note event : Action H Unit) :=
  bare_modify fun _ => ⟨rfl, rfl⟩

omit [DecidableEq H] in
theorem bare_revert : Moves Bare (revert : Action H Unit) := by
  refine Moves.modify fun e h => ⟨?_, h.2⟩
  show (if e.ext.isSome then ({} : SubState) else e.world.sub) = 0
  split
  · rfl
  · exact h.1

theorem bare_addBalance (a : Address) (amount : U256) :
    Moves Bare (addBalance M a amount : Action H Unit) :=
  Moves.bind Moves.get fun _ => Moves.bind (bare_note _) fun _ => bare_onState _

theorem bare_subBalance (a : Address) (value : U256) :
    Moves Bare (subBalance M a value : Action H Unit) :=
  Moves.bind Moves.get fun _ => Moves.bind (bare_note _) fun _ => bare_onState _

theorem bare_transferBalance (source target : Address) (value : U256) :
    Moves Bare (transferBalance M source target value : Action H Unit) :=
  Moves.bind (bare_note _) fun _ => Moves.bind (bare_subBalance _ _) fun _ => bare_addBalance _ _

omit [DecidableEq H] in
theorem bare_incSenderNonce (sender : Address) :
    Moves Bare (incSenderNonce M sender : Action H Unit) :=
  Moves.runIf (bare_onState _)

theorem bare_prepareCall (p : CallParameters) (gasPrice : U256) (origin : Address) :
    Moves Bare (prepareCall M p gasPrice origin : Action H Bool) := by
  refine Moves.ite (Moves.ite ?_ ?_) (Moves.bind ?_ fun _ => Moves.pure _)
  · refine Moves.bind (bare_modify fun _ => ⟨rfl, rfl⟩) fun _ => ?_
    exact Moves.bind (Moves.runIf (bare_addBalance _ _)) fun _ => Moves.pure _
  · refine Moves.bind (bare_modify fun _ => ⟨rfl, rfl⟩) fun _ => ?_
    exact Moves.bind (Moves.runIf (bare_modify fun _ => ⟨rfl, rfl⟩)) fun _ => Moves.pure _
  · refine Moves.bind (bare_modify fun _ => ⟨rfl, rfl⟩) fun _ => ?_
    refine Moves.bind (bare_onState _) fun _ => Moves.runIf ?_
    exact Moves.bind (bare_onState _) fun _ => bare_modify fun _ => ⟨rfl, rfl⟩

theorem bare_call (p : CallParameters) (gasPrice : U256) (origin : Address) :
    Moves Bare (call M p gasPrice origin : Action H Bool) := by
  refine Moves.bind Moves.get fun _ => ?_
  refine Moves.bind (Moves.runIf (bare_incSenderNonce _)) fun _ => ?_
  refine Moves.bind (bare_modify fun _ => ⟨rfl, rfl⟩) fun _ => ?_
  refine Moves.bind (bare_prepareCall p _ _) fun _ => Moves.ite (Moves.pure _) ?_
  refine Moves.bind (bare_transferBalance _ _ _) fun _ => ?_
  exact Moves.bind Moves.get fun _ => Moves.pure _

theorem bare_executeCreate (sender : Address) (endowment gasPrice gas : U256) (init : Bytes)
    (origin : Address) :
    Moves Bare (executeCreate M sender endowment gasPrice gas init origin : Action H Bool) := by
  refine Moves.bind (bare_incSenderNonce _) fun _ => ?_
  refine Moves.bind (bare_modify fun _ => ⟨rfl, rfl⟩) fun _ => Moves.bind Moves.get fun _ => ?_
  refine Moves.bind (bare_onState _) fun _ => Moves.bind (bare_onState _) fun _ => ?_
  refine Moves.ite ?_ ?_
  · refine Moves.bind (bare_modify fun _ => ⟨rfl, rfl⟩) fun _ => Moves.bind bare_revert fun _ => ?_
    exact Moves.bind (bare_modify fun _ => ⟨rfl, rfl⟩) fun _ => Moves.pure _
  · refine Moves.bind (bare_transferBalance _ _ _) fun _ => ?_
    refine Moves.bind (bare_onState _) fun _ => Moves.bind (bare_onState _) fun _ => ?_
    exact Moves.bind (Moves.runIf (bare_modify fun _ => ⟨rfl, rfl⟩)) fun _ => Moves.pure _

theorem bare_createOpcode (sender : Address) (endowment gasPrice gas : U256) (init : Bytes)
    (origin : Address) :
    Moves Bare (createOpcode M sender endowment gasPrice gas init origin : Action H Bool) := by
  refine Moves.bind (bare_onState _) fun _ => ?_
  refine Moves.bind (bare_modify fun _ => ⟨rfl, rfl⟩) fun _ => ?_
  exact Moves.bind (bare_note _) fun _ => bare_executeCreate _ _ _ _ _ _

theorem bare_createBy (m : Message) (p : CreateParameters) :
    Moves Bare (Nested.createBy M m p : Action H Bool) := by
  refine Moves.ite (bare_createOpcode _ _ _ _ _ _) ?_
  refine Moves.bind (bare_modify fun _ => ⟨rfl, rfl⟩) fun _ => ?_
  exact Moves.bind (bare_note _) fun _ => bare_executeCreate _ _ _ _ _ _

theorem bare_execute (t : TransactionBase) : Moves Bare (execute M t : Action H Bool) := by
  refine Moves.bind (moves_liftExcept _) fun _ => ?_
  refine Moves.bind (Moves.bind Moves.get fun _ => bare_subBalance _ _) fun _ => ?_
  exact Moves.bind Moves.get fun _ => Moves.ite (bare_createOpcode _ _ _ _ _ _) (bare_call _ _ _)

omit [DecidableEq H] [CodeHash H] in
theorem bare_initializeWith (t : TransactionBase) :
    Moves Bare (initializeWith M t : Action H Unit) := by
  refine Moves.bind (bare_modify fun _ => ⟨rfl, rfl⟩) fun _ => ?_
  refine Moves.bind (moves_liftExcept _) fun _ => Moves.runIf ?_
  refine Moves.bind (moves_liftExcept _) fun _ => Moves.bind (bare_onState _) fun _ => ?_
  refine Moves.bind (Moves.throwIf _ _) fun _ => Moves.bind (bare_onState _) fun _ => ?_
  exact Moves.bind (Moves.throwIf _ _) fun _ => bare_modify fun _ => ⟨rfl, rfl⟩

end Executive

/-! ## The end of a frame -/

namespace Executive

variable {m : Message} {e e' : Executive H} {u : Unit}

/-- The end of a frame with code, which has the given `SubState` in the end. -/
structure Left (e e' : Executive H) (sub : SubState) : Prop where
  ext : e'.ext = e.ext
  logs : e'.logs = e.logs
  sub : e'.world.sub = sub

omit [DecidableEq H] in
theorem revert_left (hext : e.ext = some m) (h : revert e = .ok u e') : Left e e' 0 := by
  rw [modify_eq_ok.mp h]
  refine ⟨rfl, rfl, ?_⟩
  show (if e.ext.isSome then ({} : SubState) else e.world.sub) = 0
  rw [hext]
  rfl

omit [DecidableEq H] in
/-- An exception clears the `SubState`. -/
theorem caught_left {x : VMException} (hext : e.ext = some m) (h : caught x e = .ok u e') :
    Left e e' 0 := by
  cases x with
  | revertInstruction output =>
      obtain ⟨u, reverted, hrevert, h⟩ := bind_eq_ok.mp h
      have hleft := revert_left hext hrevert
      rw [modify_eq_ok.mp h]
      exact ⟨hleft.ext, hleft.logs, hleft.sub⟩
  | overflowError => cases h
  | _ =>
      obtain ⟨u, changed, hchange, hrevert⟩ := bind_eq_ok.mp h
      rw [modify_eq_ok.mp hchange] at hrevert
      have hleft := revert_left (m := m) (by exact hext) hrevert
      exact ⟨hleft.ext, hleft.logs, hleft.sub⟩

theorem deposit_left {a : Address} {code : Bytes} (h : deposit M a code e = .ok u e') :
    Left e e' e.world.sub := by
  obtain ⟨u, changed, hchange, hset⟩ := bind_eq_ok.mp h
  obtain ⟨s, -, rfl⟩ := onState_ok (orExit_ok hset)
  rw [modify_eq_ok.mp hchange]
  exact ⟨rfl, rfl, rfl⟩

omit [DecidableEq H] in
theorem clear_left (h : clear M m e = .ok u e') : Left e e' e.world.sub := by
  rw [clear, get_bind] at h
  rcases runIf_eq_ok.mp h with ⟨-, h⟩ | ⟨-, rfl⟩
  · obtain ⟨s, -, rfl⟩ := onState_ok (orExit_ok h)
    exact ⟨rfl, rfl, rfl⟩
  · exact ⟨rfl, rfl, rfl⟩

/-- **A frame that fails leaves nothing, and one that succeeds leaves all.** -/
theorem finish_left {isCreation : Bool} {r : VMResult} (hext : e.ext = some m)
    (hgas : e.gas = r.gas) (h : finish M isCreation m r.outcome e = .ok u e') :
    Left e e' (if M.succeeds isCreation r then e.world.sub else 0) := by
  unfold Setting.succeeds
  cases hr : r.outcome with
  | error x =>
      rw [hr] at h
      exact caught_left hext h
  | ok out =>
      rw [hr] at h
      cases isCreation with
      | false =>
          replace h : (modify fun e => { e with output := out } : Action H Unit) e = .ok u e' := h
          rw [modify_eq_ok.mp h]
          exact ⟨rfl, rfl, rfl⟩
      | true =>
          replace h : finishCreation M m.myAddress out e = .ok u e' := h
          rw [finishCreation, get_bind, hgas] at h
          simp only [Bool.not_true, Bool.false_or]
          split at h
          · next hsize =>
              rw [decide_eq_false (Nat.not_le.mpr hsize)]
              exact caught_left hext h
          · next hsize =>
              rw [decide_eq_true (Nat.not_lt.mp hsize), Bool.true_and]
              split at h
              · next hpaid =>
                  rw [decide_eq_true hpaid]
                  rw [modify_bind] at h
                  have hleft := deposit_left h
                  exact ⟨hleft.ext, hleft.logs, hleft.sub⟩
              · next hunpaid =>
                  rw [decide_eq_false hunpaid, Bool.false_or]
                  split at h
                  · next hfails =>
                      rw [hfails]
                      exact caught_left hext h
                  · next hkeeps =>
                      rw [Bool.eq_false_of_not_eq_true hkeeps]
                      exact deposit_left h

end Executive

/-! ## The `SubState` of a frame -/

omit [DecidableEq H] [CodeHash H] in
theorem perform_sub (a : State.Pick → State.Action H Unit) (w : World H) :
    (w.perform M a).sub = w.sub := by
  unfold World.perform World.act
  cases outcome (a (M.pick w.draws)) w.state with
  | ok a => rfl
  | error x => rfl

/-- The operations of `ExtVM` that enter frames add what these have accrued. -/
structure Nested.Accrues (N : Nested H) (C : Chronicle H) : Prop where
  call : ∀ {m p w deeds}, C.call m p w deeds →
    (N.call m p w).1.sub = w.sub + accrued FrameEffect.sub deeds
  create : ∀ {m p w deeds}, C.create m p w deeds →
    (N.create m p w).1.sub = w.sub + accrued FrameEffect.sub deeds
  lookup : ∀ m number w, (N.lookup m number w).1.sub = w.sub

/-- **While its code runs, the `SubState` of a frame is what its deeds have accrued.** -/
theorem Acts.sub (hN : N.Accrues C) {m : Message} {w w' : World H}
    {deeds : List (Deed FrameEffect)} (h : Acts M N C m w deeds w') :
    w'.sub = w.sub + accrued FrameEffect.sub deeds := by
  induction h with
  | start => exact (add_zero _).symm
  | setStore h key value ih =>
      rw [← ih]
      exact perform_sub _ _
  | @blockHash deeds w' h number ih =>
      rw [← ih]
      show (CppSwc.blockHash M N m w' number).1.sub = w'.sub
      unfold CppSwc.blockHash
      split
      · rfl
      · split
        · exact hN.lookup m number w'
        · rfl
  | @log deeds w' h topics data ih =>
      rw [accrued_append, accrued_own, ← add_assoc, ← ih]
      refine SubState.eq_of (fun a => ?_) rfl (BitVec.add_zero _).symm
      rw [SubState.mem_suicides_add]
      simp [FrameEffect.sub, extVM, World.note]
  | @addRefunds deeds w' h gas ih =>
      rw [accrued_append, accrued_own, ← add_assoc, ← ih]
      refine SubState.eq_of (fun a => ?_) (List.append_nil _).symm rfl
      rw [SubState.mem_suicides_add]
      simp [FrameEffect.sub, extVM]
  | @suicide deeds w' h dest ih =>
      rw [accrued_append, accrued_own, ← add_assoc, ← ih]
      have hsub : ((extVM M N m).suicide w' dest).sub =
          { w'.sub with suicides := w'.sub.suicides.insert m.myAddress } := by
        show SubState.mk (ExtTreeSet.insert (World.perform M _ _).sub.suicides _)
          (World.perform M _ _).sub.logs (World.perform M _ _).sub.refunds = _
        rw [perform_sub, perform_sub]
        rfl
      rw [hsub]
      refine SubState.eq_of (fun a => ?_) (List.append_nil _).symm (BitVec.add_zero _).symm
      rw [SubState.mem_suicides_add]
      simp only [FrameEffect.sub, mem_insert_iff, ExtTreeSet.not_mem_empty, or_false]
      exact or_comm
  | call h p hinner ih => rw [accrued_append, ← add_assoc, ← ih, ← hN.call hinner]; rfl
  | create h p hinner ih => rw [accrued_append, ← add_assoc, ← ih, ← hN.create hinner]; rfl

namespace Executive

variable {start e' : Executive H} {deeds : List (Deed FrameEffect)} {enter : Action H Bool}

/-- An `Executive` that has run to its end. -/
theorem Ran.sub (hN : N.Accrues C) (henter : Moves Bare enter)
    (hstart : start.world.sub = 0 ∧ start.logs = []) (h : Ran M N C enter start deeds)
    {u : Unit} (hrun : running M N enter start = .ok u e') :
    e'.world.sub = accrued FrameEffect.sub deeds ∧ e'.logs = [] ∧
      (e'.ext = none → deeds = []) := by
  obtain ⟨done, e, hentered, hgo⟩ := bind_eq_ok.mp hrun
  have hbare := henter start hstart
  rw [after_of_ok hentered] at hbare
  cases h with
  | ended h => cases hrun.symm.trans h
  | plain h hplain =>
      cases hentered.symm.trans h
      have hsame : e' = e := by
        rcases runIf_eq_ok.mp hgo with ⟨hdone, hgo⟩ | ⟨-, hsame⟩
        · have hext := hplain.resolve_left (Bool.eq_false_iff.mp hdone)
          rw [go, get_bind, hext] at hgo
          exact (pure_eq_ok.mp hgo).2
        · exact hsame
      rw [hsame]
      exact ⟨hbare.1, hbare.2, fun _ => rfl⟩
  | @code m e₀ e₁ _ inner henter hext hclear hacts h =>
      cases hentered.symm.trans henter
      obtain ⟨e₁', e₂, e₃, r, hclear', hexec, hfinish, hworld, hext', hlogs⟩ := go_ok hext hgo
      cases hclear.symm.trans hclear'
      have hleft := clear_left hclear
      obtain ⟨rfl, -, rfl⟩ := exec_ok hexec
      have hend := finish_left (r := (M.vm.exec (M.context N m) e₁.gas e₁.world).1)
        (by exact hleft.ext.trans hext) rfl hfinish
      have hsub := hacts.sub hN
      rw [hleft.sub, hbare.1, zero_add] at hsub
      refine ⟨?_, ?_, fun hnone => ?_⟩
      · rw [hworld, hend.sub, accrued_frame]
        exact congrArg (fun sub => ite _ sub _) hsub
      · rw [hlogs, hend.logs]
        exact hleft.logs.trans hbare.2
      · rw [hext', hend.ext] at hnone
        exact absurd (hnone.symm.trans (hleft.ext.trans hext)) (by simp)

end Executive

/-- What a frame adds to the `SubState` of its caller. -/
theorem Nested.leave_sub (hN : N.Accrues C) {enter : Executive.Action H Bool}
    (henter : Moves Executive.Bare enter) {m : Message} {w : World H}
    {deeds : List (Deed FrameEffect)}
    (h : Executive.Ran M N C enter (Chronicle.starting m w) deeds) :
    (leave w (Executive.running M N enter (Chronicle.starting m w))).sub =
      w.sub + accrued FrameEffect.sub deeds := by
  cases hrun : Executive.running M N enter (Chronicle.starting m w) with
  | ok u e' =>
      obtain ⟨hsub, -, hnone⟩ := h.sub hN henter ⟨rfl, rfl⟩ hrun
      show (if e'.ext.isSome then w.sub.add e'.world.sub else w.sub) = _
      cases hext : e'.ext with
      | none => rw [hnone hext, accrued_nil, add_zero]; rfl
      | some m' => rw [hsub]; rfl
  | error x e' =>
      show w.sub = _
      cases h with
      | ended h => rw [accrued_nil, add_zero]
      | plain h hplain => rw [accrued_nil, add_zero]
      | code henter hext hclear hacts h => cases hrun.symm.trans h

theorem Nested.accrues_upTo (n : Nat) :
    (Nested.upTo M n : Nested H).Accrues (Chronicle.upTo M n) := by
  induction n with
  | zero =>
      refine ⟨fun h => ?_, fun h => ?_, fun _ _ _ => rfl⟩
      · cases h
        exact (add_zero _).symm
      · cases h
        exact (add_zero _).symm
  | succ n ih =>
      refine ⟨fun h => ?_, fun h => ?_, fun m number w => ?_⟩
      · exact leave_sub ih (Executive.bare_call _ _ _) h
      · exact leave_sub ih (Executive.bare_createBy _ _) h
      · show (lookupFrame M (upTo M n) m number w).1.sub = w.sub
        unfold lookupFrame executeOn
        cases Executive.transact M (upTo M n : Nested H) _ _ _ with
        | ok r e => rfl
        | error x e => rfl

/-! ## The end of a transaction -/

namespace Executive

variable {e e' : Executive H}

/-- Nothing changes of what `finalize` takes from the frame and gives. -/
structure Aside (e e' : Executive H) : Prop where
  ext : e'.ext = e.ext
  sub : e'.world.sub = e.world.sub
  logs : e'.logs = e.logs
  refunded : e'.refunded = e.refunded

instance : Std.Refl (@Aside H) where
  refl _ := ⟨rfl, rfl, rfl, rfl⟩

instance : IsTrans (Executive H) Aside where
  trans _ _ _ h h' :=
    ⟨h'.ext.trans h.ext, h'.sub.trans h.sub, h'.logs.trans h.logs, h'.refunded.trans h.refunded⟩

omit [DecidableEq H] [CodeHash H] in
theorem aside_onState {α : Type} (m : State.Pick → State.Action H α) :
    Moves Aside (onState M m) :=
  moves_onState (fun _ _ => ⟨rfl, rfl, rfl, rfl⟩) m

theorem aside_addBalance (a : Address) (amount : U256) :
    Moves Aside (addBalance M a amount : Action H Unit) :=
  Moves.bind Moves.get fun _ => Moves.bind (Moves.modify fun _ => ⟨rfl, rfl, rfl, rfl⟩) fun _ =>
    aside_onState _

theorem aside_pay : Moves Aside (pay M : Action H Unit) := by
  refine Moves.bind Moves.get fun e => ?_
  cases e.t with
  | none => exact Moves.pure _
  | some t =>
      refine Moves.bind (Moves.bind (moves_liftExcept _) fun _ => ?_) fun _ => ?_
      · exact Moves.bind Moves.get fun _ => aside_addBalance _ _
      · exact Moves.bind Moves.get fun _ => aside_addBalance _ _

omit [DecidableEq H] [CodeHash H] in
theorem aside_collect : Moves Aside (collect : Action H Unit) := by
  refine Moves.bind Moves.get fun _ => Moves.runIf (Moves.bind ?_ fun _ => ?_)
  · exact Moves.bind Moves.get fun _ => Moves.bind (Moves.throwIf _ _) fun _ => Moves.pure _
  · exact Moves.modify fun _ => ⟨rfl, rfl, rfl, rfl⟩

/-- The refunds of a transaction: what is counted, and at most half of the gas that is used. -/
def refundOf (sub : SubState) (schedule : EVMSchedule) (used : U256) : U256 :=
  let counted := sub.refunds +
    BitVec.ofNat 256 (schedule.suicideRefundGas.toNat * sub.suicides.size % 2 ^ 64)
  if counted < used.udiv 2 then counted else used.udiv 2

/-- What `finalize` makes of the `SubState` that is left. -/
theorem finalize_ok {status : Bool} (h : finalize M e = .ok status e') :
    e'.logs = (if e.ext.isSome then e.world.sub.logs else e.logs) ∧
      e'.refunded =
        if e.ext.isNone then 0
        else refundOf e.world.sub M.schedule (e.t.elim 0 TransactionBase.gas - e.gas) := by
  obtain ⟨u, r, hrefund, h⟩ := bind_eq_ok.mp h
  obtain ⟨u, p, hpay, h⟩ := bind_eq_ok.mp h
  obtain ⟨u, k, hkill, h⟩ := bind_eq_ok.mp h
  obtain ⟨u, c, hcollect, h⟩ := bind_eq_ok.mp h
  rw [get_bind] at h
  obtain ⟨-, rfl⟩ := pure_eq_ok.mp h
  -- the refunds
  obtain ⟨u, counted, hcount, hrefund⟩ := bind_eq_ok.mp hrefund
  obtain ⟨u, found, hfind, hrefund⟩ := bind_eq_ok.mp hrefund
  have hrefunded : r.ext = e.ext ∧ r.world.sub.logs = e.world.sub.logs ∧ r.logs = e.logs ∧
      r.refunded = if e.ext.isNone then 0
        else refundOf e.world.sub M.schedule (e.t.elim 0 TransactionBase.gas - e.gas) := by
    rw [modify_eq_ok.mp hrefund, modify_eq_ok.mp hfind, modify_eq_ok.mp hcount]
    cases hext : e.ext with
    | none => simp [hext]
    | some m => simp [refundOf]
  have hpaid := aside_pay.ends hpay
  -- the suicides
  rw [killSuicides, get_bind] at hkill
  obtain ⟨u, killed, hkilled, hkill⟩ := bind_eq_ok.mp hkill
  have hsame : Aside p killed :=
    (Moves.runIf (Moves.forM fun _ => aside_onState _)).ends hkilled
  have hmoved := trans_of Aside hpaid hsame
  have hcollected := aside_collect.ends hcollect
  rw [modify_eq_ok.mp hkill] at hcollected
  refine ⟨?_, ?_⟩
  · rw [hcollected.logs]
    show (if killed.ext.isSome then killed.world.sub.logs else killed.logs) = _
    rw [hmoved.ext, hmoved.sub, hmoved.logs, hrefunded.1, hrefunded.2.1, hrefunded.2.2.1]
  · rw [hcollected.refunded]
    show killed.refunded = _
    rw [hmoved.refunded, hrefunded.2.2.2]

/-- The start of a transaction. -/
def opened (w : World H) : Executive H := { world := { w with sub := {} }, res := some {} }

/-- A transaction is checked, and its frame is entered. -/
def entering (M : Setting) (t : TransactionBase) : Action H Bool := do
  initializeWith M t
  execute M t

/-- What is done in a transaction. -/
def Done (M : Setting) (n : Nat) (t : TransactionBase) (w : World H)
    (deeds : List (Deed FrameEffect)) : Prop :=
  Ran M (Nested.upTo M n) (Chronicle.upTo M n) (entering M t) (opened w) deeds

/-- What is left of a transaction is what survives of its deeds. -/
structure Survives (M : Setting) (deeds : List (Deed FrameEffect)) (receipt : TransactionReceipt H)
    (e e' : Executive H) : Prop where
  logs : receipt.logs = (survivors deeds).filterMap FrameEffect.log?
  refunds : e.world.sub.refunds = ((survivors deeds).map FrameEffect.refunded).sum
  suicides : ∀ a, a ∈ e.world.sub.suicides ↔ .suicide a ∈ survivors deeds
  refunded : e'.refunded =
    refundOf e.world.sub M.schedule (e.t.elim 0 TransactionBase.gas - e.gas)

theorem refundOf_zero (schedule : EVMSchedule) (used : U256) :
    refundOf 0 schedule used = 0 := by
  have hcounted : (0 : SubState).refunds + BitVec.ofNat 256
      (schedule.suicideRefundGas.toNat * (0 : SubState).suicides.size % 2 ^ 64) = 0 := by
    show (0 : U256) + BitVec.ofNat 256 (_ * 0 % 2 ^ 64) = 0
    simp
  unfold refundOf
  rw [hcounted]
  show (if 0 < used.udiv 2 then (0 : U256) else used.udiv 2) = 0
  split
  · rfl
  · next h => exact BitVec.eq_of_toNat_eq (Nat.le_zero.mp (BitVec.le_def.mp (BitVec.not_lt.mp h)))

/-- **Frames that fail leave no logs, refunds or suicides.**  What is done in a transaction
has its deeds, and for all of them the logs of the receipt, and the refunds and suicides that
`finalize` finds, are those of the deeds all of whose frames have succeeded. -/
theorem failed_frames_leave_nothing (M : Setting) (hvm : M.vm.Confined) (n : Nat)
    (t : TransactionBase) (p : Permanence) (w w' : World H) (res : ExecutionResult)
    (receipt : TransactionReceipt H)
    (h : executeOn M (Nested.upTo M n) t p w = .ok (res, receipt) w') :
    ∃ (e e' : Executive H) (status : Bool),
      running M (Nested.upTo M n) (entering M t) (opened w) = .ok () e ∧
      finalize M e = .ok status e' ∧ (∃ deeds, Done M n t w deeds) ∧
      ∀ deeds, Done M n t w deeds → Survives M deeds receipt e e' := by
  unfold executeOn at h
  cases htransact : transact M (Nested.upTo M n) t p (opened w) with
  | error x f =>
      rw [opened] at htransact
      rw [htransact] at h
      cases h
  | ok r f =>
      have hr : r = (res, receipt) := by
        rw [opened] at htransact
        rw [htransact] at h
        cases h
        rfl
      obtain ⟨status, e', hexecute, hrest⟩ := bind_eq_ok.mp htransact
      obtain ⟨_, start, hinit, hexecute⟩ := bind_eq_ok.mp hexecute
      obtain ⟨_, e, hrun, hfinal⟩ := bind_eq_ok.mp hexecute
      obtain ⟨done, entered, hentered, hgo⟩ := bind_eq_ok.mp hrun
      have hrunning : running M (Nested.upTo M n) (entering M t) (opened w) = .ok () e :=
        bind_eq_ok.mpr ⟨done, entered, bind_eq_ok.mpr ⟨_, start, hinit, hentered⟩, hgo⟩
      -- the receipt takes the logs of `finalize`
      have hlogs : receipt.logs = e'.logs := by
        obtain ⟨_, settled, hsettle, hcount⟩ := bind_eq_ok.mp hrest
        obtain ⟨used, same, hused, hread⟩ := bind_eq_ok.mp hcount
        rw [gasUsed, get_bind] at hused
        obtain ⟨-, hused⟩ := throwIf_bind_eq_ok.mp hused
        have hsame := (pure_eq_ok.mp hused).2
        rw [get_bind] at hread
        obtain ⟨hreceipt, -⟩ := pure_eq_ok.mp hread
        rw [(Prod.mk.inj (hr.symm.trans hreceipt)).2, hsame, modify_eq_ok.mp hsettle]
      obtain ⟨hfinalLogs, hfinalRefunded⟩ := finalize_ok hfinal
      refine ⟨e, e', status, hrunning, hfinal, ?_, fun deeds hdone => ?_⟩
      · exact Ran.exists hvm (Chronicle.covers_upTo hvm n) _ _
      · obtain ⟨hsub, hnone, hplain⟩ := hdone.sub (Nested.accrues_upTo n)
          (Moves.bind (bare_initializeWith t) fun _ => bare_execute t) ⟨rfl, rfl⟩ hrunning
        rw [accrued, kept_eq_survivors] at hsub
        refine ⟨?_, ?_, fun a => ?_, ?_⟩
        · rw [hlogs, hfinalLogs, hsub, FrameEffect.logs_sum, hnone]
          cases hext : e.ext with
          | none => rw [hplain hext]; rfl
          | some m => rfl
        · rw [hsub, FrameEffect.refunds_sum]
        · rw [hsub, FrameEffect.mem_suicides_sum]
        · rw [hfinalRefunded]
          cases hext : e.ext with
          | none =>
              have hzero : e.world.sub = 0 := by
                rw [hsub, hplain hext]
                rfl
              rw [hzero, refundOf_zero]
              rfl
          | some m => rfl

/-! ## A transaction with frames that fail -/

/-- A log entry. -/
def logCode : Bytes := [0x60, 0, 0x60, 0, 0xa0]

/-- `CALL` of an account without value. -/
def callCode (a : UInt8) : Bytes :=
  [0x60, 0, 0x60, 0, 0x60, 0, 0x60, 0, 0x60, 0, 0x60, a, 0x61, 0x3f, 0xff, 0xf1]

/-- A block far from the forks. -/
def nestedSetting : Setting where
  engine := { evmSchedule := fun _ => .byzantium }
  info := { number := 300, gasLimit := 1000000 }
  vm := legacyVM 30
  sha3 := fun _ => 7

/-- The account 2 logs and calls 3 and 4.  The account 3 calls 5, which logs, and fails, and
the account 4 logs and kills itself. -/
def nestedWorld : World Bytes where
  state := State.opened
    (((((ExtTreeMap.empty.insert 1 ⟨0, 1000000, ∅, []⟩).insert 2
      ⟨0, 0, ∅, logCode ++ callCode 3 ++ callCode 4⟩).insert 3
      ⟨0, 0, ∅, callCode 5 ++ [0xfe]⟩).insert 4
      ⟨0, 0, ∅, logCode ++ [0x60, 9, 0xff]⟩).insert 5 ⟨0, 0, ∅, logCode⟩) id 0

/-- A call of the account 2. -/
def nestedCall : TransactionBase where
  receiveAddress := 2
  gasPrice := 1
  gas := 200000
  cachedSender := 1

/-- The theorem at this transaction: the log of the account 5 does not survive. -/
theorem failed_frames_leave_nothing_nested :
    ∃ (receipt : TransactionReceipt Bytes) (e e' : Executive Bytes)
      (deeds : List (Deed FrameEffect)),
      receipt.logs.map LogEntry.address = [2, 4] ∧ Event.log 5 ∈ e.world.trace ∧
      e.world.sub.suicides.toList = [4] ∧ Survives nestedSetting deeds receipt e e' := by
  have hlogs : (outcome (executeOn nestedSetting (Nested.upTo nestedSetting 3) nestedCall
      .uncommitted) nestedWorld).toOption.map (fun x => x.2.logs.map LogEntry.address) =
        some [2, 4] := by
    decide +kernel
  obtain ⟨⟨res, receipt⟩, hoption, hreceipt⟩ := Option.map_eq_some_iff.mp hlogs
  obtain ⟨e, e', status, hrun, -, ⟨deeds, hdone⟩, hsurvives⟩ :=
    failed_frames_leave_nothing nestedSetting (legacyVM_confined 30) 3 nestedCall .uncommitted
      nestedWorld _ res receipt (eq_ok_of_outcome hoption)
  have hworld := after_of_ok hrun
  refine ⟨receipt, e, e', deeds, hreceipt, ?_, ?_, hsurvives deeds hdone⟩
  · rw [← hworld]
    decide +kernel
  · rw [← hworld]
    decide +kernel

end Executive

end

end CppSwc
