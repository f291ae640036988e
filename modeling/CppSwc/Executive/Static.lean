import CppSwc.Executive.Executive

/-!
# Static frames

A frame with `staticCall` set must only read.  What a frame does is in the trace of the
world, and the trace of all frames only grows (`Extends`).  `Calm` says that what is added
to it is read-only, unless one of two things has happened: a `CREATE2`, which
`interpretCases` does not check for `staticCall` and whose frame is not static, or the
execution of a transaction for a block hash, whose frames are not static either.
-/

namespace CppSwc

open Std Lib Evm CodeHash

/-- The event does not change the state for others.  The two halves of a transfer are
judged with the transfer. -/
def Event.ReadOnly : Event → Prop
  | .setStore _ | .log _ | .suicide _ | .create _ => False
  | .transfer source target value => value = 0 ∨ source = target
  | .credit _ _ _ | .debit _ _ _ | .lookup => True

/-- The event starts frames that are not static, where the schedule has `CREATE2` and block
hashes are looked up by a transaction. -/
def Event.Escapes (M : Setting) : Event → Prop
  | .create op => op = .create2 ∧ M.schedule.haveCreate2 = true
  | .lookup => M.looksUp
  | _ => False

namespace World

variable {H : Type}

/-- The trace has grown. -/
def Extends (w w' : World H) : Prop := ∃ new, w'.trace = new ++ w.trace

/-- What is added to the trace is read-only, unless it escapes. -/
def Calm (M : Setting) (w w' : World H) : Prop :=
  ∃ new, w'.trace = new ++ w.trace ∧
    ((∀ event ∈ new, ¬event.Escapes M) → ∀ event ∈ new, event.ReadOnly)

instance : Std.Refl (@Extends H) where
  refl _ := ⟨[], rfl⟩

instance (M : Setting) : Std.Refl (Calm M (H := H)) where
  refl _ := ⟨[], rfl, fun _ _ hmem => absurd hmem List.not_mem_nil⟩

instance : IsTrans (World H) Extends where
  trans _ _ _ := by
    rintro ⟨l, hl⟩ ⟨l', hl'⟩
    exact ⟨l' ++ l, by rw [hl', hl, List.append_assoc]⟩

/-- What is not in the trace was not there before. -/
theorem Extends.not_mem {w w' : World H} {event : Event} (h : Extends w w')
    (hmem : event ∉ w'.trace) : event ∉ w.trace := by
  obtain ⟨new, hnew⟩ := h
  rw [hnew, List.mem_append, not_or] at hmem
  exact hmem.2

instance (M : Setting) : IsTrans (World H) (Calm M) where
  trans _ _ _ := by
    rintro ⟨l, hl, hcalm⟩ ⟨l', hl', hcalm'⟩
    refine ⟨l' ++ l, by rw [hl', hl, List.append_assoc], fun hnot event hmem => ?_⟩
    rcases List.mem_append.mp hmem with hmem | hmem
    · exact hcalm' (fun x hx => hnot x (List.mem_append_left _ hx)) event hmem
    · exact hcalm (fun x hx => hnot x (List.mem_append_right _ hx)) event hmem

/-- A relation between worlds that is about their traces, and allows some events. -/
structure Records (R : World H → World H → Prop) (allowed : Event → Prop) : Prop where
  silent : ∀ {w w' : World H}, w'.trace = w.trace → R w w'
  note : ∀ {event : Event}, allowed event → ∀ w : World H, R w (w.note event)
  credit : ∀ a before amount, allowed (.credit a before amount)
  debit : ∀ a before amount, allowed (.debit a before amount)

theorem records_extends : Records (@Extends H) fun _ => True where
  silent h := ⟨[], h⟩
  note _ _ := ⟨[_], rfl⟩
  credit _ _ _ := trivial
  debit _ _ _ := trivial

theorem records_calm (M : Setting) : Records (H := H) (Calm M) Event.ReadOnly where
  silent h := ⟨[], h, fun _ _ hmem => absurd hmem List.not_mem_nil⟩
  note hevent _ := by
    refine ⟨[_], rfl, fun _ event hmem => ?_⟩
    rwa [List.mem_singleton.mp hmem]
  credit _ _ _ := trivial
  debit _ _ _ := trivial

/-- What comes behind an event that escapes is calm. -/
theorem Calm.of_escapes {M : Setting} {w w' : World H} {event : Event} (hevent : event.Escapes M)
    (h : Extends (w.note event) w') : Calm M w w' := by
  obtain ⟨l, hl⟩ := h
  refine ⟨l ++ [event], ?_, fun hnot => ?_⟩
  · rw [hl, List.append_assoc]
    rfl
  · exact absurd hevent (hnot event (List.mem_append_right _ (List.mem_singleton.mpr rfl)))

variable (M : Setting) {R : World H → World H → Prop} {allowed : Event → Prop}

theorem perform_trace (m : State.Pick → State.Action H Unit) (w : World H) :
    (w.perform M m).trace = w.trace := by
  unfold perform act
  split
  · next heq => rw [← congrArg (fun x => x.2.trace) heq]
  · next heq => rw [← congrArg (fun x => x.2.trace) heq]

variable [DecidableEq H] [CodeHash H]

theorem suicide_trace (a dest : Address) (w : World H) :
    (suicide M a dest w).trace = .suicide a :: w.trace := by
  show ((World.perform M _ _).perform M _).trace = _
  rw [perform_trace, perform_trace]
  rfl

end World

namespace Executive

section Moves

variable {H : Type} {M : Setting} {R : Executive H → Executive H → Prop} {α : Type}

/-- An operation of the state goes along a relation that leaves the state open. -/
theorem moves_onState
    (h : ∀ (e : Executive H) (s : State H),
      R e { e with world := { e.world with state := s, draws := e.world.draws + 1 } })
    (m : State.Pick → State.Action H α) : Moves R (onState M m) := by
  intro e
  unfold after onState World.act
  cases outcome (m (M.pick e.world.draws)) e.world.state with
  | ok a => exact h e _
  | error x => exact h e _

theorem moves_liftExcept [Std.Refl R] (x : Except Failure α) :
    Moves R (liftExcept x : Action H α) := by
  cases x with
  | ok a => exact Moves.pure a
  | error e => exact Moves.throw e

theorem moves_orExit {m : Action H α} (hm : Moves R m) : Moves R (orExit m) := by
  intro e
  have hm := hm e
  unfold after at hm ⊢
  unfold orExit
  cases hme : m e with
  | ok a e' => simpa only [hme] using hm
  | error x e' => simpa only [hme] using hm

end Moves

open World

variable {H : Type} {M : Setting} {R : World H → World H → Prop}
  {P : Message → Prop} {allowed : Event → Prop}

/-- The worlds are related and the message is still of a kind, if it was so before. -/
def Keeps (R : World H → World H → Prop) (P : Message → Prop) (e e' : Executive H) : Prop :=
  (∀ m ∈ e.ext, P m) → R e.world e'.world ∧ ∀ m ∈ e'.ext, P m

instance [Std.Refl R] : Std.Refl (Keeps R P) where
  refl e hm := ⟨refl_of R e.world, hm⟩

instance [IsTrans (World H) R] : IsTrans (Executive H) (Keeps R P) where
  trans _ _ _ hst htu hm := by
    obtain ⟨hworld, hm⟩ := hst hm
    obtain ⟨hworld', hm⟩ := htu hm
    exact ⟨trans_of R hworld hworld', hm⟩

section Records

variable (h : Records R allowed)

include h

/-- A change of other members. -/
theorem keeps_modify {f : Executive H → Executive H}
    (hf : ∀ e, (f e).world.trace = e.world.trace ∧ (f e).ext = e.ext) :
    Moves (Keeps R P) (modify f : Action H Unit) :=
  Moves.modify fun e hm => ⟨h.silent (hf e).1, (hf e).2 ▸ hm⟩

theorem keeps_onState {α : Type} (m : State.Pick → State.Action H α) :
    Moves (Keeps R P) (onState M m) :=
  moves_onState (fun _ _ hm => ⟨h.silent rfl, hm⟩) m

theorem keeps_note {event : Event} (hevent : allowed event) :
    Moves (Keeps R P) (note event : Action H Unit) :=
  Moves.modify fun e hm => ⟨h.note hevent e.world, hm⟩

theorem keeps_revert [CodeHash H] : Moves (Keeps R P) (revert : Action H Unit) :=
  keeps_modify h fun _ => ⟨rfl, rfl⟩

variable [DecidableEq H] [CodeHash H] [Std.Refl R] [IsTrans (World H) R]

theorem keeps_addBalance (a : Address) (amount : U256) :
    Moves (Keeps R P) (addBalance M a amount : Action H Unit) := by
  refine Moves.bind Moves.get fun _ => Moves.bind (keeps_note h (h.credit _ _ _)) fun _ => ?_
  exact keeps_onState h _

theorem keeps_subBalance (a : Address) (value : U256) :
    Moves (Keeps R P) (subBalance M a value : Action H Unit) := by
  refine Moves.bind Moves.get fun _ => Moves.bind (keeps_note h (h.debit _ _ _)) fun _ => ?_
  exact keeps_onState h _

theorem keeps_transferBalance {source target : Address} {value : U256}
    (htransfer : allowed (.transfer source target value)) :
    Moves (Keeps R P) (transferBalance M source target value : Action H Unit) := by
  refine Moves.bind (keeps_note h htransfer) fun _ => ?_
  exact Moves.bind (keeps_subBalance h _ _) fun _ => keeps_addBalance h _ _

omit [DecidableEq H] [IsTrans (World H) R] in
theorem keeps_incSenderNonce (sender : Address) :
    Moves (Keeps R P) (incSenderNonce M sender : Action H Unit) :=
  Moves.runIf (keeps_onState h _)

theorem keeps_callPrecompiled (p : CallParameters) :
    Moves (Keeps R P) (callPrecompiled M p : Action H Bool) := by
  refine Moves.ite ?_ ?_
  · refine Moves.bind (keeps_modify h fun _ => ⟨rfl, rfl⟩) fun _ => ?_
    exact Moves.bind (Moves.runIf (keeps_addBalance h _ _)) fun _ => Moves.pure _
  · refine Moves.bind (keeps_modify h fun _ => ⟨rfl, rfl⟩) fun _ => ?_
    refine Moves.bind (Moves.runIf (keeps_modify h fun _ => ⟨rfl, rfl⟩)) fun _ => Moves.pure _

theorem keeps_callContract (p : CallParameters) (gasPrice : U256) (origin : Address)
    (hmessage : ∀ m : Message, m.staticCall = p.staticCall → P m) :
    Moves (Keeps R P) (callContract M p gasPrice origin : Action H Unit) := by
  refine Moves.bind (keeps_modify h fun _ => ⟨rfl, rfl⟩) fun _ => ?_
  refine Moves.bind (keeps_onState h _) fun _ => Moves.runIf ?_
  refine Moves.bind (keeps_onState h _) fun _ => Moves.modify fun e _ => ⟨h.silent rfl, ?_⟩
  intro m hm
  cases hm
  exact hmessage _ rfl

theorem keeps_call (p : CallParameters) (gasPrice : U256) (origin : Address)
    (htransfer : allowed (.transfer p.senderAddress p.receiveAddress p.valueTransfer))
    (hmessage : ∀ m : Message, m.staticCall = p.staticCall → P m) :
    Moves (Keeps R P) (call M p gasPrice origin : Action H Bool) := by
  refine Moves.bind Moves.get fun _ => ?_
  refine Moves.bind (Moves.runIf (keeps_incSenderNonce h _)) fun _ => ?_
  refine Moves.bind (keeps_modify h fun _ => ⟨rfl, rfl⟩) fun _ => ?_
  refine Moves.bind (m := prepareCall M p gasPrice origin) ?_ fun failed => ?_
  · refine Moves.ite (keeps_callPrecompiled h p) ?_
    exact Moves.bind (keeps_callContract h p gasPrice origin hmessage) fun _ => Moves.pure _
  · refine Moves.ite (Moves.pure _) (Moves.bind (keeps_transferBalance h htransfer) fun _ => ?_)
    exact Moves.bind Moves.get fun _ => Moves.pure _

omit [DecidableEq H] in
theorem keeps_caught (x : VMException) : Moves (Keeps R P) (caught x : Action H Unit) := by
  cases x with
  | revertInstruction output =>
      exact Moves.bind (keeps_revert h) fun _ => keeps_modify h fun _ => ⟨rfl, rfl⟩
  | overflowError => exact Moves.throw _
  | _ => exact Moves.bind (keeps_modify h fun _ => ⟨rfl, rfl⟩) fun _ => keeps_revert h

omit [Refl R] in
theorem keeps_deposit (a : Address) (code : Bytes) :
    Moves (Keeps R P) (deposit M a code : Action H Unit) :=
  Moves.bind (keeps_modify h fun _ => ⟨rfl, rfl⟩) fun _ => moves_orExit (keeps_onState h _)

theorem keeps_finishCreation (a : Address) (out : Bytes) :
    Moves (Keeps R P) (finishCreation M a out : Action H Unit) := by
  refine Moves.bind Moves.get fun _ => Moves.ite (keeps_caught h _) (Moves.ite ?_ (Moves.ite ?_ ?_))
  · exact Moves.bind (keeps_modify h fun _ => ⟨rfl, rfl⟩) fun _ => keeps_deposit h a out
  · exact keeps_caught h _
  · exact keeps_deposit h a []

variable {N : Nested H}

theorem keeps_runCode {m : Message} (hexec : Moves (Keeps R P) (exec M N m)) :
    Moves (Keeps R P) (runCode M N m : Action H Unit) := by
  refine Moves.bind Moves.get fun e => ?_
  refine Moves.bind (Moves.runIf (moves_orExit (keeps_onState h _))) fun _ => ?_
  refine Moves.bind hexec fun outcome => ?_
  cases outcome with
  | error x => exact keeps_caught h x
  | ok out => exact Moves.ite (keeps_finishCreation h _ _) (keeps_modify h fun _ => ⟨rfl, rfl⟩)

/-- `go`, if the machine keeps the relation for messages of the kind. -/
theorem keeps_go (hexec : ∀ m, P m → Moves (Keeps R P) (exec M N m)) :
    Moves (Keeps R P) (go M N : Action H Unit) := by
  intro e hm
  unfold go
  rw [after_get_bind]
  cases hext : e.ext with
  | none => exact ⟨refl_of R _, hm⟩
  | some m =>
      refine Moves.bind (keeps_runCode h (hexec m (hm m hext))) (fun _ => ?_) e hm
      exact keeps_modify h fun _ => ⟨rfl, rfl⟩

end Records

/-! ## The trace only grows -/

/-- Whatever the message is, the trace grows. -/
def Grows (e e' : Executive H) : Prop := Keeps Extends (fun _ => True) e e'

instance : Std.Refl (@Grows H) := inferInstanceAs (Std.Refl (Keeps Extends _))

instance : IsTrans (Executive H) Grows := inferInstanceAs (IsTrans _ (Keeps Extends _))

variable [DecidableEq H] [CodeHash H] {N : Nested H}

theorem grows_executeCreate (sender : Address) (endowment gasPrice gas : U256) (init : Bytes)
    (origin : Address) :
    Moves Grows (executeCreate M sender endowment gasPrice gas init origin : Action H Bool) := by
  have h := @records_extends H
  refine Moves.bind (keeps_incSenderNonce h _) fun _ => ?_
  refine Moves.bind (keeps_modify h fun _ => ⟨rfl, rfl⟩) fun _ => Moves.bind Moves.get fun e => ?_
  refine Moves.bind (keeps_onState h _) fun _ => Moves.bind (keeps_onState h _) fun _ => ?_
  refine Moves.ite ?_ ?_
  · refine Moves.bind (keeps_modify h fun _ => ⟨rfl, rfl⟩) fun _ => ?_
    refine Moves.bind (keeps_revert h) fun _ => Moves.bind (Moves.modify fun e _ => ?_) fun _ => ?_
    · exact ⟨h.silent rfl, fun _ _ => trivial⟩
    · exact Moves.pure _
  · refine Moves.bind (keeps_transferBalance h trivial) fun _ => ?_
    refine Moves.bind (keeps_onState h _) fun _ => Moves.bind (keeps_onState h _) fun _ => ?_
    refine Moves.bind (Moves.runIf (Moves.modify fun e _ => ?_)) fun _ => Moves.pure _
    exact ⟨h.silent rfl, fun _ _ => trivial⟩

theorem grows_createOpcode (sender : Address) (endowment gasPrice gas : U256) (init : Bytes)
    (origin : Address) :
    Moves Grows (createOpcode M sender endowment gasPrice gas init origin : Action H Bool) := by
  have h := @records_extends H
  refine Moves.bind (keeps_onState h _) fun _ => ?_
  refine Moves.bind (keeps_modify h fun _ => ⟨rfl, rfl⟩) fun _ => ?_
  exact Moves.bind (keeps_note h trivial) fun _ => grows_executeCreate _ _ _ _ _ _

theorem grows_execute (t : TransactionBase) : Moves Grows (execute M t : Action H Bool) := by
  have h := @records_extends H
  refine Moves.bind (moves_liftExcept _) fun _ => ?_
  refine Moves.bind (Moves.bind Moves.get fun _ => keeps_subBalance h _ _) fun _ => ?_
  refine Moves.bind Moves.get fun _ => Moves.ite (grows_createOpcode _ _ _ _ _ _) ?_
  exact keeps_call h _ _ _ trivial fun _ _ => trivial

omit [DecidableEq H] [CodeHash H] in
theorem grows_initializeWith (t : TransactionBase) :
    Moves Grows (initializeWith M t : Action H Unit) := by
  have h := @records_extends H
  refine Moves.bind (keeps_modify h fun _ => ⟨rfl, rfl⟩) fun _ => ?_
  refine Moves.bind (moves_liftExcept _) fun _ => Moves.runIf ?_
  refine Moves.bind (moves_liftExcept _) fun _ => Moves.bind (keeps_onState h _) fun _ => ?_
  refine Moves.bind (Moves.throwIf _ _) fun _ => Moves.bind (keeps_onState h _) fun _ => ?_
  exact Moves.bind (Moves.throwIf _ _) fun _ => keeps_modify h fun _ => ⟨rfl, rfl⟩

omit [DecidableEq H] [CodeHash H] in
theorem grows_gasUsed : Moves Grows (gasUsed : Action H U256) :=
  Moves.bind Moves.get fun _ => Moves.bind (Moves.throwIf _ _) fun _ => Moves.pure _

theorem grows_finalize : Moves Grows (finalize M : Action H Bool) := by
  have h := @records_extends H
  have hrefund : Moves Grows (refund M : Action H Unit) := by
    refine Moves.bind (Moves.modify fun e => ?_) fun _ => ?_
    · split
      · exact refl_of Grows e
      · exact fun _ => ⟨h.silent rfl, fun _ _ => trivial⟩
    · refine Moves.bind (keeps_modify h fun _ => ⟨rfl, rfl⟩) fun _ => ?_
      exact keeps_modify h fun _ => ⟨rfl, rfl⟩
  have hkill : Moves Grows (killSuicides M : Action H Unit) := by
    refine Moves.bind Moves.get fun e => Moves.bind (Moves.runIf ?_) fun _ => ?_
    · exact Moves.forM fun _ => keeps_onState h _
    · exact keeps_modify h fun _ => ⟨rfl, rfl⟩
  have hcollect : Moves Grows (collect : Action H Unit) := by
    refine Moves.bind Moves.get fun e => Moves.runIf (Moves.bind grows_gasUsed fun _ => ?_)
    exact keeps_modify h fun _ => ⟨rfl, rfl⟩
  have hpay : Moves Grows (pay M : Action H Unit) := by
    refine Moves.bind Moves.get fun e => ?_
    cases e.t with
    | none => exact Moves.pure _
    | some t =>
        refine Moves.bind (Moves.bind (moves_liftExcept _) fun _ => ?_) fun _ => ?_
        · exact Moves.bind Moves.get fun _ => keeps_addBalance h _ _
        · exact Moves.bind Moves.get fun _ => keeps_addBalance h _ _
  refine Moves.bind hrefund fun _ => Moves.bind hpay fun _ => Moves.bind hkill fun _ => ?_
  exact Moves.bind hcollect fun _ => Moves.bind Moves.get fun _ => Moves.pure _

theorem grows_executeAndGo (hexec : ∀ m, Moves Grows (exec M N m)) (t : TransactionBase) :
    Moves Grows (executeAndGo M N t : Action H Unit) := by
  refine Moves.bind (grows_execute t) fun _ => Moves.runIf ?_
  exact keeps_go records_extends fun m _ => hexec m

theorem grows_executeTransaction (hexec : ∀ m, Moves Grows (exec M N m)) (t : TransactionBase) :
    Moves Grows (executeTransaction M N t : Action H Bool) :=
  Moves.bind (grows_initializeWith t) fun _ =>
    Moves.bind (grows_executeAndGo hexec t) fun _ => grows_finalize

end Executive

namespace Nested

open World Executive

variable {H : Type} {M : Setting} {N : Nested H}

/-- Nested frames only add to the trace. -/
structure Grows (N : Nested H) : Prop where
  call : ∀ m p w, Extends w (N.call m p w).1
  create : ∀ m p w, Extends w (N.create m p w).1
  lookup : ∀ m number w, Extends w (N.lookup m number w).1

/-- What static frames may ask for is calm. -/
structure Calm (M : Setting) (N : Nested H) : Prop where
  call : ∀ m p w, p.staticCall = true →
    p.valueTransfer = 0 ∨ p.senderAddress = p.receiveAddress → World.Calm M w (N.call m p w).1
  create2 : M.schedule.haveCreate2 = true → ∀ m p w, p.op = .create2 →
    World.Calm M w (N.create m p w).1
  lookup : M.looksUp → ∀ m number w, World.Calm M w (N.lookup m number w).1

/-- A block hash that is looked up or not. -/
theorem blockHash_cases {R : World H → World H → Prop} [Std.Refl R] {m : Message}
    (hlookup : M.looksUp → ∀ number w, R w (N.lookup m number w).1) (w : World H) (number : U256) :
    R w (blockHash M N m w number).1 := by
  unfold blockHash
  split
  · exact refl_of R w
  · split
    · next hlooks => exact hlookup hlooks number w
    · exact refl_of R w

variable [DecidableEq H] [CodeHash H]

/-- The machine runs in the world of the executive. -/
theorem after_exec (m : Message) (e : Executive H) :
    after (exec M N m) e =
      { e with
        world := { (M.vm.exec (M.context N m) e.gas e.world).2 with
          covered := (M.vm.exec (M.context N m) e.gas e.world).2.covered &&
            (M.vm.exec (M.context N m) e.gas e.world).1.covered }
        gas := (M.vm.exec (M.context N m) e.gas e.world).1.gas } := by
  rw [exec, after_get_bind, after_modify_bind, after_throwIf_bind]
  split <;> rfl

/-- The machine only adds to the trace. -/
theorem grows_exec (hvm : M.vm.Confined) (hN : N.Grows) (m : Message) :
    Moves Executive.Grows (exec M N m) := by
  intro e _
  have hhost : (M.context N m).host.Keeps Extends :=
    { setStore := fun w key value =>
        ⟨[.setStore m.myAddress], perform_trace M _ (w.note (.setStore m.myAddress))⟩
      create := fun w p => hN.create m p w
      call := fun w p => hN.call m p w
      log := fun w topics data => ⟨[.log m.myAddress], rfl⟩
      blockHash := blockHash_cases fun _ number w => hN.lookup m number w
      addRefunds := fun w gas => ⟨[], rfl⟩ }
  have hworld := hvm (M.context N m) Extends hhost
    (fun w dest => ⟨[.suicide m.myAddress], suicide_trace M m.myAddress dest w⟩) e.gas e.world
  obtain ⟨new, hnew⟩ := hworld
  rw [after_exec]
  exact ⟨⟨new, hnew⟩, fun _ _ => trivial⟩

omit [DecidableEq H] [CodeHash H] in
theorem leave_trace {α : Type} (w : World H) (m : Executive.Action H α) (e : Executive H) :
    (leave w (m e)).trace = (after m e).world.trace := by
  unfold after leave
  cases m e with
  | ok a e' => rfl
  | error x e' => rfl

omit [DecidableEq H] [CodeHash H] in
/-- What a frame with an action of its own does to the trace. -/
theorem extends_leave {α : Type} {w : World H} {m : Executive.Action H α}
    (hm : Moves Executive.Grows m) {e : Executive H} (he : e.world.trace = w.trace) :
    Extends w (leave w (m e)) := by
  obtain ⟨⟨new, hnew⟩, -⟩ := hm e fun _ _ => trivial
  exact ⟨new, by rw [leave_trace, hnew, he]⟩

theorem grows_transact (hexec : ∀ m, Moves Executive.Grows (exec M N m)) (t : TransactionBase)
    (p : Permanence) : Moves Executive.Grows (transact M N t p) := by
  refine Moves.bind (grows_executeTransaction hexec t) fun _ => ?_
  refine Moves.bind (keeps_modify records_extends fun _ => ⟨rfl, rfl⟩) fun _ => ?_
  refine Moves.bind grows_gasUsed fun _ => Moves.bind Moves.get fun _ => Moves.pure _

theorem extends_executeOn (hexec : ∀ m, Moves Executive.Grows (exec M N m)) (t : TransactionBase)
    (p : Permanence) (w : World H) : Extends w (after (executeOn M N t p) w) := by
  obtain ⟨⟨new, hnew⟩, -⟩ := grows_transact hexec t p
    { world := { w with sub := {} }, res := some {} } fun _ _ => trivial
  refine ⟨new, Eq.trans ?_ hnew⟩
  unfold after executeOn
  cases transact M N t p _ with
  | ok r e => rfl
  | error x e => rfl

theorem extends_lookupFrame (hexec : ∀ m, Moves Executive.Grows (exec M N m)) (m : Message)
    (number : U256) (w : World H) :
    Extends (w.note .lookup) (lookupFrame M N m number w).1 := by
  obtain ⟨new, hnew⟩ := extends_executeOn hexec (lookupTransaction m number w) .reverted
    (w.note .lookup)
  refine ⟨new, Eq.trans ?_ hnew⟩
  unfold after lookupFrame
  cases executeOn M N _ .reverted _ with
  | ok r w' => rfl
  | error x w' => rfl

theorem grows_frames (hvm : M.vm.Confined) (hN : N.Grows) :
    Grows ⟨callFrame M N, createFrame M N, lookupFrame M N⟩ where
  call m p w := by
    refine extends_leave (Moves.bind ?_ fun _ => Moves.runIf ?_) rfl
    · exact keeps_call records_extends p _ _ trivial fun _ _ => trivial
    · exact keeps_go records_extends fun m _ => grows_exec hvm hN m
  create m p w := by
    refine extends_leave (Moves.bind (Moves.ite ?_ ?_) fun _ => Moves.runIf ?_) rfl
    · exact grows_createOpcode _ _ _ _ _ _
    · refine Moves.bind (keeps_modify records_extends fun _ => ⟨rfl, rfl⟩) fun _ => ?_
      exact Moves.bind (keeps_note records_extends trivial) fun _ => grows_executeCreate _ _ _ _ _ _
    · exact keeps_go records_extends fun m _ => grows_exec hvm hN m
  lookup m number w :=
    trans_of Extends (records_extends.note trivial w)
      (extends_lookupFrame (fun m => grows_exec hvm hN m) m number w)

/-- A creation by `CREATE2` starts with its event. -/
theorem extends_create2 (hvm : M.vm.Confined) (hN : N.Grows) {m : Message} {p : CreateParameters}
    (hop : p.op = .create2) (w : World H) :
    Extends (w.note (.create .create2)) (createFrame M N m p w).1 := by
  have hcreate : p.op ≠ .create := by simp [hop]
  have hgo : ∀ done : Bool, Moves Executive.Grows (runIf (done = false) (go M N)) := fun _ =>
    Moves.runIf (keeps_go records_extends fun m _ => grows_exec hvm hN m)
  unfold createFrame createBy
  rw [if_neg hcreate]
  show ∃ new, _
  rw [leave_trace, create2Opcode, bind_assoc, after_modify_bind, bind_assoc, Executive.note,
    after_modify_bind]
  obtain ⟨⟨new, hnew⟩, -⟩ := Moves.bind (grows_executeCreate _ _ _ _ _ _) hgo _ fun _ _ => trivial
  exact ⟨new, hnew⟩

theorem grows_upTo (hvm : M.vm.Confined) (n : Nat) : (upTo M n : Nested H).Grows := by
  induction n with
  | zero => exact ⟨fun _ _ _ => ⟨[], rfl⟩, fun _ _ _ => ⟨[], rfl⟩, fun _ _ _ => ⟨[], rfl⟩⟩
  | succ n ih => exact grows_frames hvm ih

/-! ## Static frames are calm -/

/-- A static message. -/
def IsStatic (m : Message) : Prop := m.staticCall = true

theorem calm_exec {fuel : Nat} (hvm : M.vm = legacyVM fuel) (hN : N.Calm M) (m : Message)
    (hstatic : IsStatic m) : Moves (Keeps (World.Calm M) IsStatic) (exec M N m) := by
  intro e hm
  have hhost : (M.context N m).KeepsStatic (World.Calm M) :=
    { blockHash := blockHash_cases fun hlooks number w => hN.lookup hlooks m number w
      create2 := fun hcreate2 w p hop => hN.create2 hcreate2 m p w hop
      call := fun w p hcall htransfer => hN.call m p w hcall htransfer }
  obtain ⟨new, hnew, hcalm⟩ :=
    legacyVM_static fuel (M.context N m) (World.Calm M) hstatic hhost e.gas e.world
  rw [after_exec, hvm]
  exact ⟨⟨new, hnew, hcalm⟩, hm⟩

omit [DecidableEq H] [CodeHash H] in
theorem calm_leave {α : Type} {w : World H} {m : Executive.Action H α}
    (hm : Moves (Keeps (World.Calm M) IsStatic) m) {e : Executive H}
    (he : e.world.trace = w.trace) (hext : e.ext = none) : World.Calm M w (leave w (m e)) := by
  have hnone : ∀ m ∈ e.ext, IsStatic m := by simp [hext]
  obtain ⟨⟨new, hnew, hcalm⟩, -⟩ := hm e hnone
  exact ⟨new, by rw [leave_trace, hnew, he], hcalm⟩

theorem calm_frames {fuel : Nat} (hvm : M.vm = legacyVM fuel) (hgrows : N.Grows) (hN : N.Calm M) :
    Calm M ⟨callFrame M N, createFrame M N, lookupFrame M N⟩ where
  call m p w hstatic htransfer := by
    refine calm_leave (Moves.bind ?_ fun _ => Moves.runIf ?_) rfl rfl
    · exact keeps_call (records_calm M) p _ _ htransfer fun m hm => hm.trans hstatic
    · exact keeps_go (records_calm M) fun m hm => calm_exec hvm hN m hm
  create2 hcreate2 m p w hop := by
    have hconfined : M.vm.Confined := hvm ▸ legacyVM_confined fuel
    have hevent : Event.Escapes M (.create .create2) := ⟨rfl, hcreate2⟩
    exact Calm.of_escapes hevent (extends_create2 hconfined hgrows hop w)
  lookup hlooks m number w := by
    have hconfined : M.vm.Confined := hvm ▸ legacyVM_confined fuel
    have hevent : Event.Escapes M .lookup := hlooks
    exact Calm.of_escapes hevent
      (extends_lookupFrame (fun m => grows_exec hconfined hgrows m) m number w)

theorem calm_upTo {fuel : Nat} (hvm : M.vm = legacyVM fuel) (n : Nat) :
    (upTo M n : Nested H).Calm M := by
  have hconfined : M.vm.Confined := hvm ▸ legacyVM_confined fuel
  induction n with
  | zero =>
      have hsilent : ∀ w : World H, World.Calm M w { w with exited := true } := fun w =>
        (records_calm M).silent rfl
      exact ⟨fun _ _ w _ _ => hsilent w, fun _ _ _ w _ => hsilent w, fun _ _ _ w => hsilent w⟩
  | succ n ih => exact calm_frames hvm (grows_upTo hconfined n) ih

end Nested

namespace Executive

variable {H : Type} [DecidableEq H] [CodeHash H]

/-- **Static frames are read-only.**  What a static frame of `LegacyVM` and the frames below
it do is read-only, if none of them carries out a `CREATE2` or has a block hash looked up by
a transaction. -/
theorem static_readOnly (M : Setting) (fuel n : Nat) (e : Executive H) (m : Message)
    (hvm : M.vm = legacyVM fuel) (hext : e.ext = some m) (hstatic : m.staticCall = true) :
    ∃ new, (after (go M (Nested.upTo M n)) e).world.trace = new ++ e.world.trace ∧
      ((∀ event ∈ new, ¬event.Escapes M) → ∀ event ∈ new, event.ReadOnly) := by
  have hm : ∀ m ∈ e.ext, Nested.IsStatic m := by
    intro m' hm'
    rw [hext] at hm'
    cases hm'
    exact hstatic
  have hN := Nested.calm_upTo (H := H) hvm n
  exact (keeps_go (World.records_calm M) (fun m => Nested.calm_exec hvm hN m) e hm).1

/-! ## Two frames -/

/-- A block with the given schedule, far from the forks. -/
def plainSetting (schedule : EVMSchedule) : Setting where
  engine := { evmSchedule := fun _ => schedule }
  info := { number := 300, gasLimit := 1000000 }
  vm := legacyVM 20
  sha3 := fun _ => 7

/-- A static frame at the account 1 with the given code. -/
def staticFrame (code : Bytes) : Executive Bytes where
  world := { state := State.opened (ExtTreeMap.empty.insert 1 ⟨1, 10, ∅, code⟩) id 0 }
  gas := 100000
  ext := some { myAddress := 1, code, depth := 1, staticCall := true }

/-- `CALL` of the account 2 without value, and of the account 1 by `CALLCODE` with value. -/
def callingCode : Bytes :=
  [0x60, 0, 0x60, 0, 0x60, 0, 0x60, 0, 0x60, 0, 0x60, 2, 0x60, 0, 0xf1,
    0x60, 0, 0x60, 0, 0x60, 0, 0x60, 0, 0x60, 5, 0x60, 2, 0x60, 0, 0xf2, 0x00]

/-- The theorem at a frame that calls. -/
theorem static_readOnly_calling :
    ∃ new, (after (go (plainSetting .byzantium) (Nested.upTo (plainSetting .byzantium) 2))
        (staticFrame callingCode)).world.trace = new ++ [] ∧
      new.length = 6 ∧ (∀ event ∈ new, event.ReadOnly) := by
  obtain ⟨new, hnew, hcalm⟩ := static_readOnly (plainSetting .byzantium) 20 2
    (staticFrame callingCode) _ rfl rfl rfl
  refine ⟨new, hnew, ?_, hcalm ?_⟩
  · have hlength : ((after (go (plainSetting .byzantium)
        (Nested.upTo (plainSetting .byzantium) 2)) (staticFrame callingCode)).world.trace).length = 6 := by
      decide +kernel
    rw [hnew] at hlength
    simpa [staticFrame] using hlength
  · intro event _
    cases event with
    | create op => exact fun h => absurd h.2 (by decide)
    | lookup => exact fun h => absurd (show (plainSetting _).looksUp from h) (by decide)
    | _ => exact id

/-- `CREATE2` in a static frame creates a contract. -/
theorem create2_in_static_frame :
    ¬∀ (M : Setting) (fuel n : Nat) (e : Executive Bytes) (m : Message),
      M.vm = legacyVM fuel → M.schedule ∈ EVMSchedule.standard → e.ext = some m →
      m.staticCall = true →
      ∀ new, (after (go M (Nested.upTo M n)) e).world.trace = new ++ e.world.trace →
        ∀ event ∈ new, event.ReadOnly := by
  intro h
  have hstandard : (plainSetting .constantinople).schedule ∈ EVMSchedule.standard := by
    simp [EVMSchedule.standard, Setting.schedule, plainSetting]
  have hcreated : Event.create .create2 ∈ (after (go (plainSetting .constantinople)
      (Nested.upTo (plainSetting .constantinople) 2))
      (staticFrame [0x60, 0, 0x60, 0, 0x60, 0, 0x60, 0, 0xfb, 0x00])).world.trace := by
    decide +kernel
  exact h (plainSetting .constantinople) 20 2 _ _ rfl hstandard rfl rfl _
    (List.append_nil _).symm _ hcreated

end Executive

end CppSwc
