import CppSwc.Executive.Gas
import CppSwc.State.Balances

/-!
# Conservation of ether

The sum of all balances is the same before and after a frame, whatever the frames inside it
do and whether they are rolled back (`World.Conserves`), as long as the machine does not use
`suicide` and no block hash is looked up by a transaction, which the trace shows.  A frame is
followed from its savepoint: what it does keeps the sum, and a rollback to the savepoint
restores all balances.
-/

namespace CppSwc

open Std Lib Evm CodeHash

/-- A credit or a debit stays within 256 bits. -/
def Event.Exact : Event → Prop
  | .credit _ before amount => before.toNat + amount.toNat < 2 ^ 256
  | .debit _ before amount => amount ≤ before
  | _ => True

namespace World

variable {H : Type} [CodeHash H] {M : Setting} {w w' : World H}

/-- The sum of all balances. -/
def total (w : World H) : ℕ := Ledger.total w.state.balanceAt

/-- What is added to the trace is exact. -/
def Exact (w w' : World H) : Prop :=
  ∃ new, w'.trace = new ++ w.trace ∧ ∀ event ∈ new, event.Exact

/-- The process has not ended, and no block hash has been looked up by a transaction. -/
def Running (M : Setting) (w : World H) : Prop :=
  w.exited = false ∧ (M.looksUp → Event.lookup ∉ w.trace)

/-- If the world is still running, a rollback restores the balances, there are no suicides,
and the sum of the balances is the same. -/
def Conserves (M : Setting) (w w' : World H) : Prop :=
  w'.Running M → w.Running M ∧ State.Runs w.state w'.state ∧
    (w.sub.suicides = ∅ → w'.sub.suicides = ∅) ∧
    (w.state.Balanced → w.total < 2 ^ 256 → w'.total = w.total ∧ Exact w w')

instance : Std.Refl (Exact (H := H)) where
  refl _ := ⟨[], rfl, fun _ hmem => absurd hmem List.not_mem_nil⟩

instance : IsTrans (World H) (Exact (H := H)) where
  trans _ _ _ := by
    rintro ⟨l, hl, hexact⟩ ⟨l', hl', hexact'⟩
    refine ⟨l' ++ l, by rw [hl', hl, List.append_assoc], fun event hmem => ?_⟩
    rcases List.mem_append.mp hmem with hmem | hmem
    · exact hexact' event hmem
    · exact hexact event hmem

omit [CodeHash H] in
theorem Running.of_extends (h : Extends w w') (hexited : w'.exited = w.exited)
    (hw' : w'.Running M) : w.Running M :=
  ⟨hexited ▸ hw'.1, fun hlooks => h.not_mem (hw'.2 hlooks)⟩

omit [CodeHash H] in
theorem Exact.extends (h : Exact w w') : Extends w w' := by
  obtain ⟨new, hnew, -⟩ := h
  exact ⟨new, hnew⟩

instance : Std.Refl (Conserves M (H := H)) where
  refl w h := ⟨h, State.Runs.refl _, id, fun _ _ => ⟨rfl, refl_of Exact w⟩⟩

instance : IsTrans (World H) (Conserves M (H := H)) where
  trans w v u hwv hvu hu := by
    obtain ⟨hv, hruns', hsuicides', htotal'⟩ := hvu hu
    obtain ⟨hw, hruns, hsuicides, htotal⟩ := hwv hv
    refine ⟨hw, hruns.trans hruns', hsuicides' ∘ hsuicides, fun hs hbound => ?_⟩
    obtain ⟨heq, hexact⟩ := htotal hs hbound
    obtain ⟨heq', hexact'⟩ := htotal' (hruns.balanced hs) (by rwa [heq])
    exact ⟨heq'.trans heq, trans_of Exact hexact hexact'⟩

/-- A step that leaves the balances as they are, if those at the start are in order. -/
theorem Conserves.step {v : World H} (h : Conserves M v w) (hexited : w'.exited = w.exited)
    (hstate : w.Running M → v.state.Balanced → State.Steady w.state w'.state)
    (hsuicides : w'.sub.suicides = ∅ ∨ w'.sub.suicides = w.sub.suicides) (hexact : Exact w w') :
    Conserves M v w' := by
  intro hw'
  have hw : w.Running M := .of_extends hexact.extends hexited hw'
  replace hstate := hstate hw
  obtain ⟨hv, hruns, hnone, htotal⟩ := h hw
  refine ⟨hv, .of_balanced fun hs => hruns.trans (hstate hs).1, fun h => ?_, fun hs hbound => ?_⟩
  · rcases hsuicides with hempty | hsame
    · exact hempty
    · exact hsame.trans (hnone h)
  · obtain ⟨heq, hexact'⟩ := htotal hs hbound
    refine ⟨Eq.trans ?_ heq, trans_of Exact hexact' hexact⟩
    rw [total, total, (hstate hs).2 (hruns.balanced hs)]

/-- The balances are as before. -/
theorem Conserves.of_steady (hexited : w'.exited = w.exited) (hstate : State.Steady w.state w'.state)
    (hsuicides : w'.sub.suicides = w.sub.suicides) (hexact : Exact w w') : Conserves M w w' :=
  (refl_of (Conserves M) w).step hexited (fun _ _ => hstate) (.inr hsuicides) hexact

omit [CodeHash H] in
theorem exact_of_trace (h : w'.trace = w.trace) : Exact w w' :=
  ⟨[], h, fun _ hmem => absurd hmem List.not_mem_nil⟩

/-- The state is the same. -/
theorem Conserves.of_state (hexited : w'.exited = w.exited) (hstate : w'.state = w.state)
    (hsuicides : w'.sub.suicides = w.sub.suicides) (hexact : Exact w w') : Conserves M w w' :=
  .of_steady hexited (hstate ▸ refl_of State.Steady w.state) hsuicides hexact

omit [CodeHash H] in
theorem exact_note (event : Event) (h : event.Exact) (w : World H) : Exact w (w.note event) :=
  ⟨[event], rfl, fun _ hmem => List.mem_singleton.mp hmem ▸ h⟩

/-- An event beside the balances. -/
theorem conserves_note (event : Event) (h : event.Exact) (w : World H) :
    Conserves M w (w.note event) :=
  .of_state rfl rfl rfl (exact_note event h w)

/-- Actions that end well do not end the process either. -/
structure Continues (M : Setting) (w w' : World H) : Prop where
  conserves : Conserves M w w'
  running : w.exited = false → w'.exited = false

instance : Std.Refl (Continues M (H := H)) where
  refl w := ⟨refl_of (Conserves M) w, id⟩

instance : IsTrans (World H) (Continues M (H := H)) where
  trans _ _ _ hst htu := ⟨trans_of (Conserves M) hst.1 htu.1, htu.2 ∘ hst.2⟩

/-- What has been kept while the process was running. -/
theorem Continues.kept (h : Continues M w w') (hw : w.exited = false)
    (hlookup : M.looksUp → Event.lookup ∉ w'.trace) :
    State.Runs w.state w'.state ∧ (w.sub.suicides = ∅ → w'.sub.suicides = ∅) ∧
      (w.state.Balanced → w.total < 2 ^ 256 → w'.total = w.total ∧ Exact w w') :=
  (h.conserves ⟨h.running hw, hlookup⟩).2

theorem Continues.step {v : World H} (h : Continues M v w) (hexited : w'.exited = w.exited)
    (hstate : w.Running M → v.state.Balanced → State.Steady w.state w'.state)
    (hsuicides : w'.sub.suicides = ∅ ∨ w'.sub.suicides = w.sub.suicides) (hexact : Exact w w') :
    Continues M v w' :=
  ⟨h.1.step hexited hstate hsuicides hexact, fun hv => hexited.trans (h.2 hv)⟩

theorem Continues.of_steady (hexited : w'.exited = w.exited) (hstate : State.Steady w.state w'.state)
    (hsuicides : w'.sub.suicides = w.sub.suicides) (hexact : Exact w w') : Continues M w w' :=
  (refl_of (Continues M) w).step hexited (fun _ _ => hstate) (.inr hsuicides) hexact

theorem continues_note (event : Event) (h : event.Exact) (w : World H) :
    Continues M w (w.note event) :=
  .of_steady rfl (refl_of State.Steady _) rfl (exact_note event h w)

/-- An operation of the state that leaves the balances alone. -/
theorem conserves_perform (M : Setting) {m : State.Pick → State.Action H Unit}
    (hm : ∀ pick, Moves State.Steady (m pick)) (w : World H) : Conserves M w (w.perform M m) := by
  unfold perform act
  split
  · next heq =>
      obtain ⟨-, rfl⟩ := Prod.mk.inj heq
      exact .of_steady rfl (hm _ w.state) rfl (exact_of_trace rfl)
  · intro h
    cases h.1

end World

namespace Executive

open World

variable {H : Type} [CodeHash H] {M : Setting} {e e' : Executive H}

/-- The balances are conserved inside a frame. -/
structure Conserves (M : Setting) (e e' : Executive H) : Prop where
  world : World.Continues M e.world e'.world
  savepoint : e'.savepoint = e.savepoint
  isCreation : e'.isCreation = e.isCreation
  newAddress : e'.newAddress = e.newAddress

instance : Std.Refl (Conserves M (H := H)) where
  refl e := ⟨refl_of (World.Continues M) e.world, rfl, rfl, rfl⟩

instance : IsTrans (Executive H) (Conserves M (H := H)) where
  trans _ _ _ hst htu :=
    ⟨trans_of (World.Continues M) hst.1 htu.1, htu.2.trans hst.2, htu.3.trans hst.3,
      htu.4.trans hst.4⟩

/-- A change of other members. -/
theorem conserves_modify {f : Executive H → Executive H}
    (hf : ∀ e, (f e).world = e.world ∧ (f e).savepoint = e.savepoint ∧
      (f e).isCreation = e.isCreation ∧ (f e).newAddress = e.newAddress) :
    Ends (Conserves M) (modify f : Action H Unit) :=
  Moves.ends fun e => ⟨(hf e).1 ▸ refl_of (World.Continues M) e.world, (hf e).2.1, (hf e).2.2.1,
    (hf e).2.2.2⟩

omit [CodeHash H] in
/-- An operation of the state that ends well. -/
theorem onState_ok {α : Type} {m : State.Pick → State.Action H α} {a : α}
    (h : onState M m e = .ok a e') :
    ∃ s, m (M.pick e.world.draws) e.world.state = .ok a s ∧
      e' = { e with world := { e.world with state := s, draws := e.world.draws + 1 } } := by
  unfold onState act outcome after at h
  cases hm : m (M.pick e.world.draws) e.world.state with
  | ok b s =>
      rw [hm] at h
      cases h
      exact ⟨s, rfl, rfl⟩
  | error x s =>
      rw [hm] at h
      cases h

theorem conserves_onState {α : Type} {m : State.Pick → State.Action H α}
    (hm : ∀ pick, Moves State.Steady (m pick)) : Ends (Conserves M) (onState M m) := by
  intro e a e' h
  obtain ⟨s, hs, rfl⟩ := onState_ok h
  have hsteady := (hm _).ends hs
  exact ⟨.of_steady rfl hsteady rfl (exact_of_trace rfl), rfl, rfl, rfl⟩

/-! ## Credits and debits -/

/-- A new state after a credit or a debit, with its event. -/
def booked (s : State H) (event : Event) (e : Executive H) : Executive H :=
  { e with world := { e.world with
      state := s
      draws := e.world.draws + 1
      trace := event :: e.world.trace } }

variable [DecidableEq H]

/-- A credit that ends well. -/
theorem addBalance_ok {a : Address} {amount : U256} {u : Unit}
    (h : addBalance M a amount e = .ok u e') :
    ∃ s, State.Sets a (e.world.state.balanceAt a + amount) e.world.state s ∧
      e' = e.booked s (.credit a (e.world.state.balanceAt a) amount) := by
  rw [addBalance, get_bind, note, modify_bind] at h
  obtain ⟨s, hok, rfl⟩ := onState_ok h
  refine ⟨s, .of_balanced fun hs => ?_, rfl⟩
  rcases State.addBalance_cases (M.pick e.world.draws) a amount hs with ⟨r, hr, hsets⟩ | ⟨-, r, hr⟩
  · cases hr.symm.trans hok
    exact hsets
  · cases hr.symm.trans hok

/-- A debit that ends well. -/
theorem subBalance_ok {a : Address} {value : U256} {u : Unit}
    (h : subBalance M a value e = .ok u e') :
    (e.world.state.Balanced → value ≤ e.world.state.balanceAt a) ∧
      ∃ s, State.Sets a (e.world.state.balanceAt a - value) e.world.state s ∧
        e' = e.booked s (.debit a (e.world.state.balanceAt a) value) := by
  rw [subBalance, get_bind, note, modify_bind] at h
  obtain ⟨s, hok, rfl⟩ := onState_ok h
  have hcases := State.subBalance_cases (M.pick e.world.draws) a value (s := e.world.state)
  refine ⟨fun hs => ?_, s, .of_balanced fun hs => ?_, rfl⟩
  · rcases hcases hs with ⟨hle, -⟩ | ⟨-, r, hr⟩
    · exact hle
    · cases hr.symm.trans hok
  · rcases hcases hs with ⟨-, r, hr, hsets⟩ | ⟨-, r, hr⟩
    · cases hr.symm.trans hok
      exact hsets
    · cases hr.symm.trans hok

/-- The ledger after a credit that keeps the sum below the bound. -/
theorem credit_total {a : Address} {amount : U256} {u : Unit} (hs : e.world.state.Balanced)
    (hbound : e.world.total + amount.toNat < 2 ^ 256) (h : addBalance M a amount e = .ok u e') :
    e'.world.total = e.world.total + amount.toNat ∧ Exact e.world e'.world := by
  obtain ⟨s, hsets, rfl⟩ := addBalance_ok h
  obtain ⟨hadd, htotal⟩ := Ledger.total_credit (a := a) hbound
  have hexact : (Event.credit a (e.world.state.balanceAt a) amount).Exact := by
    show _ + _ < 2 ^ 256
    rw [← hadd]
    exact (_ : U256).isLt
  refine ⟨?_, [_], rfl, fun _ hmem => List.mem_singleton.mp hmem ▸ hexact⟩
  show Ledger.total s.balanceAt = _
  rw [hsets.2 hs]
  exact htotal

/-- The ledger after a debit. -/
theorem debit_total {a : Address} {value : U256} {u : Unit} (hs : e.world.state.Balanced)
    (h : subBalance M a value e = .ok u e') :
    e'.world.total + value.toNat = e.world.total ∧ Exact e.world e'.world := by
  obtain ⟨hle, s, hsets, rfl⟩ := subBalance_ok h
  have hexact : (Event.debit a (e.world.state.balanceAt a) value).Exact := hle hs
  refine ⟨?_, [_], rfl, fun _ hmem => List.mem_singleton.mp hmem ▸ hexact⟩
  show Ledger.total s.balanceAt + _ = _
  rw [hsets.2 hs]
  exact (Ledger.total_debit (hle hs)).2

/-- A transfer, also to the account itself. -/
theorem conserves_transferBalance (source target : Address) (value : U256) :
    Ends (Conserves M) (transferBalance M source target value : Action H Unit) := by
  intro e u e' h
  obtain ⟨u, noted, hnoted, h⟩ := bind_eq_ok.mp h
  obtain ⟨u, paid, hpaid, hadd⟩ := bind_eq_ok.mp h
  have hnote : Conserves M e noted := by
    cases hnoted
    exact ⟨continues_note (.transfer source target value) trivial e.world, rfl, rfl, rfl⟩
  refine trans_of (Conserves M) hnote ?_
  have hdebit := fun hs => debit_total hs hpaid
  have hcredit := fun hs hbound => credit_total hs hbound hadd
  obtain ⟨-, s, hsets, rfl⟩ := subBalance_ok hpaid
  obtain ⟨s', hsets', rfl⟩ := addBalance_ok hadd
  refine ⟨⟨fun hend => ⟨?_, hsets.1.trans hsets'.1, id, fun hs hbound => ?_⟩, id⟩, rfl, rfl, rfl⟩
  · refine Running.of_extends ?_ ?_ hend
    · exact ⟨[_, _], rfl⟩
    · rfl
  obtain ⟨hless, hexact⟩ := hdebit hs
  obtain ⟨hmore, hexact'⟩ := hcredit (hsets.1.balanced hs) (by rwa [hless])
  exact ⟨hmore.trans hless, trans_of Exact hexact hexact'⟩

/-- A touch. -/
theorem conserves_touch (a : Address) : Ends (Conserves M) (addBalance M a 0 : Action H Unit) := by
  intro e u e' h
  have hcredit : e.world.state.Balanced → e.world.total + (0 : U256).toNat < 2 ^ 256 →
      e'.world.total = e.world.total + (0 : U256).toNat ∧ Exact e.world e'.world :=
    fun hs hbound => credit_total hs hbound h
  obtain ⟨s, hsets, rfl⟩ := addBalance_ok h
  have hzero : (0 : U256).toNat = 0 := rfl
  rw [hzero, Nat.add_zero] at hcredit
  refine ⟨⟨fun hend => ⟨?_, hsets.1, id, hcredit⟩, id⟩, rfl, rfl, rfl⟩
  refine Running.of_extends ?_ ?_ hend
  · exact ⟨[_], rfl⟩
  · rfl

/-! ## Frames -/

/-- The frame has started in the world `w`, and has kept the balances since then. -/
def InFrame (M : Setting) (w : World H) (e : Executive H) : Prop :=
  World.Continues M w e.world ∧ e.savepoint = w.state.savepoint

omit [DecidableEq H] in
theorem InFrame.trans {w : World H} (h : InFrame M w e) (h' : Conserves M e e') : InFrame M w e' :=
  ⟨trans_of (World.Continues M) h.1 h'.1, h'.2.trans h.2⟩

omit [DecidableEq H] in
/-- **A rollback to the start of a frame conserves the balances.** -/
theorem InFrame.revert {w : World H} {u : Unit} (h : InFrame M w e)
    (hok : Executive.revert e = .ok u e') : World.Continues M w e'.world := by
  rw [modify_eq_ok.mp hok]
  refine ⟨fun hrunning => ?_, h.1.running⟩
  obtain ⟨hw, hruns, hnone, htotal⟩ := h.1.conserves hrunning
  have hlevel : w.state.Balanced → State.Level (e.world.state.rollback e.savepoint) w.state := by
    rw [h.2]
    exact hruns.level
  refine ⟨hw, State.Runs.of_level hlevel, fun hempty => ?_, fun hs hbound => ⟨?_, ?_⟩⟩
  · show (if e.ext.isSome then ({} : SubState) else e.world.sub).suicides = ∅
    split
    · rfl
    · exact hnone hempty
  · show Ledger.total (State.balanceAt _) = Ledger.total (State.balanceAt _)
    rw [funext (hlevel hs).balance]
  · exact (htotal hs hbound).2

omit [DecidableEq H] in
theorem InFrame.caught {w : World H} {x : VMException} {u : Unit} (h : InFrame M w e)
    (hok : Executive.caught x e = .ok u e') : World.Continues M w e'.world := by
  cases x with
  | revertInstruction output =>
      obtain ⟨u, reverted, hrevert, hrest⟩ := bind_eq_ok.mp hok
      rw [modify_eq_ok.mp hrest]
      show World.Continues M w reverted.world
      exact h.revert hrevert
  | overflowError => cases hok
  | _ =>
      obtain ⟨u, changed, hchange, hrevert⟩ := bind_eq_ok.mp hok
      refine InFrame.revert ?_ hrevert
      rw [modify_eq_ok.mp hchange]
      exact h

omit [DecidableEq H] [CodeHash H] in
theorem orExit_ok {α : Type} {m : Action H α} {a : α} (h : orExit m e = .ok a e') :
    m e = .ok a e' := by
  unfold orExit at h
  cases hm : m e with
  | ok b e'' =>
      rw [hm] at h
      exact h
  | error x e'' =>
      rw [hm] at h
      cases h

omit [DecidableEq H] in
/-- An operation of the state that leaves the balances alone under a condition. -/
theorem InFrame.onState {w : World H} {α : Type} {m : State.Pick → State.Action H α} {a : α}
    (h : InFrame M w e)
    (hm : e.world.Running M → w.state.Balanced →
      ∀ pick, State.Steady e.world.state (after (m pick) e.world.state))
    (hok : Executive.onState M m e = .ok a e') : InFrame M w e' := by
  obtain ⟨s, hs, rfl⟩ := onState_ok hok
  refine ⟨h.1.step rfl (fun hrunning hw => ?_) (.inr rfl) (exact_of_trace rfl), h.2⟩
  have hsteady := hm hrunning hw (M.pick e.world.draws)
  rwa [after_of_ok hs] at hsteady

/-- The code of a new account, which is dirty. -/
theorem InFrame.finishCreation {w : World H} {a : Address} {out : Bytes} {u : Unit}
    (h : InFrame M w e)
    (hdirty : e.world.Running M → w.state.Balanced → e.world.state.IsDirty a)
    (hok : Executive.finishCreation M a out e = .ok u e') : World.Continues M w e'.world := by
  have hdeposit : ∀ {d d' : Executive H} {code : Bytes}, InFrame M w d →
      d.world = e.world → Executive.deposit M a code d = .ok u d' →
        World.Continues M w d'.world := by
    intro d d' code hd hworld hok
    obtain ⟨u, f, hf, hset⟩ := bind_eq_ok.mp hok
    have hframe : InFrame M w f := by
      rw [modify_eq_ok.mp hf]
      exact hd
    have hsame : f.world = e.world := by
      rw [modify_eq_ok.mp hf]
      exact hworld
    refine (hframe.onState (fun hrunning hw pick => ?_) (orExit_ok hset)).1
    rw [hsame] at hrunning ⊢
    exact State.steady_setCode pick code (hdirty hrunning hw)
  rw [Executive.finishCreation, get_bind] at hok
  split at hok
  · exact h.caught hok
  · split at hok
    · rw [modify_bind] at hok
      refine hdeposit ?_ ?_ hok
      · exact h
      · rfl
    · split at hok
      · exact h.caught hok
      · exact hdeposit h rfl hok

section Machine

variable {N : Nested H}

/-- The machine runs in the world of the executive. -/
theorem exec_ok {m : Message} {r : Except VMException Bytes} (h : exec M N m e = .ok r e') :
    r = (M.vm.exec (M.context N m) e.gas e.world).1.outcome ∧
      (M.vm.exec (M.context N m) e.gas e.world).2.exited = false ∧
      e' = { e with
        world := { (M.vm.exec (M.context N m) e.gas e.world).2 with
          covered := (M.vm.exec (M.context N m) e.gas e.world).2.covered &&
            (M.vm.exec (M.context N m) e.gas e.world).1.covered }
        gas := (M.vm.exec (M.context N m) e.gas e.world).1.gas } := by
  rw [exec, get_bind] at h
  obtain ⟨u, changed, hchange, h⟩ := bind_eq_ok.mp h
  obtain ⟨hrunning, h⟩ := throwIf_bind_eq_ok.mp h
  obtain ⟨rfl, rfl⟩ := pure_eq_ok.mp h
  exact ⟨rfl, Bool.not_eq_true _ ▸ hrunning, modify_eq_ok.mp hchange⟩

/-- The frames inside a frame conserve the balances. -/
structure Conserving (M : Setting) (N : Nested H) : Prop where
  call : ∀ m p w, World.Conserves M w (N.call m p w).1
  create : ∀ m p w, World.Conserves M w (N.create m p w).1
  lookup : M.looksUp → ∀ m number w, World.Conserves M w (N.lookup m number w).1

theorem conserves_exec (hvm : M.vm.ConfinedAlive) (hN : Conserving M N) (m : Message) :
    Ends (Conserves M) (exec M N m) := by
  intro e r e' h
  obtain ⟨-, hrunning, rfl⟩ := exec_ok h
  have hhost : (M.context N m).host.Keeps (World.Conserves M) :=
    { setStore := fun w key value =>
        trans_of (World.Conserves M) (conserves_note (.setStore m.myAddress) trivial w)
          (conserves_perform M (fun pick => State.steady_setStorage pick m.myAddress key value) _)
      create := fun w p => hN.create m p w
      call := fun w p => hN.call m p w
      log := fun w topics data =>
        .of_state rfl rfl rfl (exact_note (.log m.myAddress) trivial w)
      blockHash := Nested.blockHash_cases fun hlooks number w => hN.lookup hlooks m number w
      addRefunds := fun w gas => .of_state rfl rfl rfl (exact_of_trace rfl) }
  have hworld := hvm (M.context N m) (World.Conserves M) hhost e.gas e.world
  refine ⟨⟨trans_of (World.Conserves M) hworld ?_, fun _ => hrunning⟩, rfl, rfl, rfl⟩
  exact .of_state rfl rfl rfl (exact_of_trace rfl)

/-- `go`, for the code of a frame.  A new account is dirty, so that a rollback finds it. -/
theorem InFrame.runCode {w : World H} {m : Message} {u : Unit} (h : InFrame M w e)
    (hdirty : e.isCreation = true → w.state.Balanced → e.world.state.IsDirty m.myAddress)
    (hexec : Ends (Conserves M) (exec M N m)) (hok : Executive.runCode M N m e = .ok u e') :
    World.Continues M w e'.world := by
  rw [Executive.runCode, get_bind] at hok
  obtain ⟨u, cleared, hclear, hok⟩ := bind_eq_ok.mp hok
  obtain ⟨r, ran, hran, hok⟩ := bind_eq_ok.mp hok
  have hcleared : InFrame M w cleared ∧ (e.isCreation = true → cleared.world.Running M →
      w.state.Balanced → cleared.world.state.IsDirty m.myAddress) := by
    rcases runIf_eq_ok.mp hclear with ⟨hcreation, hclear⟩ | ⟨hother, rfl⟩
    · have hsteady := fun hw => State.steady_clearStorage (hdirty hcreation hw)
      have hclear := orExit_ok hclear
      refine ⟨h.onState (fun _ hw _ => hsteady hw) hclear, fun _ hrunning hw => ?_⟩
      obtain ⟨s, hs, rfl⟩ := onState_ok hclear
      have hbalanced := (h.1.conserves hrunning).2.1.balanced hw
      have hruns := (hsteady hw).1
      rw [after_of_ok hs] at hruns
      exact hruns.2 hbalanced _ (hdirty hcreation hw)
    · exact ⟨h, fun hcreation => absurd hcreation hother⟩
  have hstep := hexec hran
  have hframe := hcleared.1.trans hstep
  have hdirty' : e.isCreation = true → ran.world.Running M → w.state.Balanced →
      ran.world.state.IsDirty m.myAddress := by
    intro hcreation hrunning hw
    obtain ⟨hrunning, hruns, -⟩ := hstep.world.conserves hrunning
    have hbalanced := (hcleared.1.1.conserves hrunning).2.1.balanced hw
    exact hruns.2 hbalanced _ (hcleared.2 hcreation hrunning hw)
  cases r with
  | error x => exact hframe.caught hok
  | ok out =>
      replace hok : (if e.isCreation = true then Executive.finishCreation M m.myAddress out
        else modify fun e => { e with output := out }) ran = .ok u e' := hok
      split at hok
      · next hcreation => exact hframe.finishCreation (hdirty' hcreation) hok
      · rw [modify_eq_ok.mp hok]
        exact hframe.1

/-- `go`, in a frame whose message is for a new account if it is a creation. -/
theorem InFrame.go {w : World H} {u : Unit} (h : InFrame M w e)
    (hdirty : e.isCreation = true → ∀ m ∈ e.ext, w.state.Balanced →
      e.world.state.IsDirty m.myAddress)
    (hexec : ∀ m, Ends (Conserves M) (exec M N m)) (hok : Executive.go M N e = .ok u e') :
    World.Continues M w e'.world := by
  rw [Executive.go, get_bind] at hok
  cases hext : e.ext with
  | none =>
      rw [hext] at hok
      obtain ⟨-, rfl⟩ := pure_eq_ok.mp hok
      exact h.1
  | some m =>
      rw [hext] at hok
      obtain ⟨u, ran, hran, hok⟩ := bind_eq_ok.mp hok
      rw [modify_eq_ok.mp hok]
      show World.Continues M w ran.world
      exact h.runCode (fun hcreation => hdirty hcreation m hext) (hexec m) hran

/-! ## The start of a frame -/

/-- A frame that has been entered, or is done. -/
def Entered (M : Setting) (e : Executive H) (done : Bool) (e' : Executive H) : Prop :=
  ∃ w, World.Continues M e.world w ∧ World.Continues M w e'.world ∧
    (done = false → e'.savepoint = w.state.savepoint ∧ (e'.isCreation = true →
      ∀ m ∈ e'.ext, w.state.Balanced → e'.world.state.IsDirty m.myAddress))

omit [DecidableEq H] in
theorem conserves_incSenderNonce (sender : Address) :
    Ends (Conserves M) (incSenderNonce M sender : Action H Unit) :=
  Ends.runIf (conserves_onState fun pick => State.steady_incNonce pick sender)

theorem conserves_prepareCall (p : CallParameters) (gasPrice : U256) (origin : Address) :
    Ends (Conserves M) (prepareCall M p gasPrice origin : Action H Bool) := by
  refine Ends.ite (Ends.ite ?_ ?_) (Ends.bind ?_ fun _ => (Moves.pure _).ends)
  · refine Ends.bind (conserves_modify fun _ => ⟨rfl, rfl, rfl, rfl⟩) fun _ => ?_
    exact Ends.bind (Ends.runIf (conserves_touch _)) fun _ => (Moves.pure _).ends
  · refine Ends.bind (conserves_modify fun _ => ⟨rfl, rfl, rfl, rfl⟩) fun _ => ?_
    refine Ends.bind (Ends.runIf (conserves_modify fun _ => ⟨rfl, rfl, rfl, rfl⟩)) fun _ => ?_
    exact (Moves.pure _).ends
  · refine Ends.bind (conserves_modify fun _ => ⟨rfl, rfl, rfl, rfl⟩) fun _ => ?_
    refine Ends.bind (conserves_onState fun pick => State.steady_reader) fun _ => Ends.runIf ?_
    refine Ends.bind (conserves_onState fun pick => State.steady_code pick _) fun _ => ?_
    exact conserves_modify fun _ => ⟨rfl, rfl, rfl, rfl⟩

theorem entered_call {p : CallParameters} {gasPrice : U256} {origin : Address} {done : Bool}
    (hcreation : e.isCreation = false) (h : call M p gasPrice origin e = .ok done e') :
    Entered M e done e' := by
  rw [call, get_bind] at h
  obtain ⟨u, paid, hpaid, h⟩ := bind_eq_ok.mp h
  have hstart : Conserves M e paid := Ends.runIf (conserves_incSenderNonce _) hpaid
  rw [modify_bind] at h
  obtain ⟨failed, prepared, hprepared, h⟩ := bind_eq_ok.mp h
  have hprepare := conserves_prepareCall p gasPrice origin hprepared
  have hrest : Conserves M prepared e' := by
    split at h
    · obtain ⟨-, rfl⟩ := pure_eq_ok.mp h
      exact refl_of (Conserves M) _
    · obtain ⟨u, moved, hmoved, h⟩ := bind_eq_ok.mp h
      rw [get_bind] at h
      obtain ⟨-, rfl⟩ := pure_eq_ok.mp h
      exact conserves_transferBalance _ _ _ hmoved
  have hframe := trans_of (Conserves M) hprepare hrest
  refine ⟨paid.world, hstart.world, hframe.world, fun _ => ⟨hframe.savepoint, fun hcreation' => ?_⟩⟩
  rw [hframe.isCreation, hstart.isCreation, hcreation] at hcreation'
  cases hcreation'

theorem entered_executeCreate {sender : Address} {endowment gasPrice gas : U256} {init : Bytes}
    {origin : Address} {done : Bool}
    (h : executeCreate M sender endowment gasPrice gas init origin e = .ok done e') :
    Entered M e done e' := by
  obtain ⟨u, started, hstarted, h⟩ := bind_eq_ok.mp h
  have hstart : Conserves M e started := conserves_incSenderNonce _ hstarted
  rw [modify_bind, get_bind] at h
  obtain ⟨hasCode, checked, hchecked, h⟩ := bind_eq_ok.mp h
  obtain ⟨nonce, checked', hchecked', h⟩ := bind_eq_ok.mp h
  have hcheck := trans_of (Conserves M) (conserves_onState (fun pick => State.steady_reader) hchecked)
    (conserves_onState (fun pick => State.steady_getNonce pick _) hchecked')
  have hframe : InFrame M started.world checked' := ⟨hcheck.world, hcheck.savepoint⟩
  refine ⟨started.world, hstart.world, ?_⟩
  split at h
  · obtain ⟨u, failed, hfailed, h⟩ := bind_eq_ok.mp h
    obtain ⟨u, reverted, hreverted, h⟩ := bind_eq_ok.mp h
    rw [modify_bind] at h
    obtain ⟨rfl, rfl⟩ := pure_eq_ok.mp h
    refine ⟨?_, fun hdone => by cases hdone⟩
    have hfailed' : InFrame M started.world failed := by
      rw [modify_eq_ok.mp hfailed]
      exact hframe
    show World.Continues M started.world reverted.world
    exact hfailed'.revert hreverted
  · obtain ⟨u, moved, hmoved, h⟩ := bind_eq_ok.mp h
    obtain ⟨start, required, hrequired, h⟩ := bind_eq_ok.mp h
    obtain ⟨u, numbered, hnumbered, h⟩ := bind_eq_ok.mp h
    obtain ⟨u, ready, hready, h⟩ := bind_eq_ok.mp h
    obtain ⟨rfl, rfl⟩ := pure_eq_ok.mp h
    have hnumber : Conserves M checked' numbered := by
      refine trans_of (Conserves M) (conserves_transferBalance _ _ _ hmoved) ?_
      refine trans_of (Conserves M) (conserves_onState (fun _ => ?_) hrequired) ?_
      · exact State.steady_requireAccountStartNonce
      · exact conserves_onState (fun pick => State.steady_setNonce pick _ _) hnumbered
    have hkept := trans_of (Conserves M) hcheck hnumber
    have hdirty : numbered.world.state.IsDirty numbered.newAddress := by
      rw [hkept.newAddress]
      obtain ⟨s, hs, rfl⟩ := onState_ok hnumbered
      exact State.isDirty_setNonce hs
    rcases runIf_eq_ok.mp hready with ⟨hinit, hready⟩ | ⟨hinit, rfl⟩
    · rw [modify_eq_ok.mp hready]
      refine ⟨hkept.world, fun _ => ⟨hkept.savepoint, fun _ m hm _ => ?_⟩⟩
      cases hm
      exact hdirty
    · rw [not_not] at hinit
      refine ⟨hkept.world, fun hdone => ?_⟩
      rw [hinit] at hdone
      cases hdone

omit [DecidableEq H] in
theorem Entered.of_conserves {e₀ : Executive H} {done : Bool}
    (h : World.Continues M e₀.world e.world) (he : Entered M e done e') : Entered M e₀ done e' := by
  obtain ⟨w, hw, hrest⟩ := he
  exact ⟨w, trans_of (World.Continues M) h hw, hrest⟩

theorem entered_createOpcode {sender : Address} {endowment gasPrice gas : U256} {init : Bytes}
    {origin : Address} {done : Bool}
    (h : createOpcode M sender endowment gasPrice gas init origin e = .ok done e') :
    Entered M e done e' := by
  obtain ⟨nonce, read, hread, h⟩ := bind_eq_ok.mp h
  rw [modify_bind, note, modify_bind] at h
  refine Entered.of_conserves ?_ (entered_executeCreate h)
  refine trans_of (World.Continues M) ?_ (continues_note (.create .create) trivial read.world)
  exact (conserves_onState (fun pick => State.steady_getNonce pick _) hread).world

theorem entered_create2Opcode {sender : Address} {endowment gasPrice gas : U256} {init : Bytes}
    {origin : Address} {salt : U256} {done : Bool}
    (h : create2Opcode M sender endowment gasPrice gas init origin salt e = .ok done e') :
    Entered M e done e' := by
  rw [create2Opcode, modify_bind, note, modify_bind] at h
  exact Entered.of_conserves (continues_note (.create .create2) trivial e.world)
    (entered_executeCreate h)

/-- The rest of a frame. -/
theorem Entered.finish {done : Bool} {u : Unit} {e'' : Executive H} (h : Entered M e done e')
    (hexec : ∀ m, Ends (Conserves M) (exec M N m))
    (hok : runIf (done = false) (Executive.go M N) e' = .ok u e'') :
    World.Continues M e.world e''.world := by
  obtain ⟨w, hw, hw', hframe⟩ := h
  refine trans_of (World.Continues M) hw ?_
  rcases runIf_eq_ok.mp hok with ⟨hdone, hok⟩ | ⟨-, rfl⟩
  · obtain ⟨hsavepoint, hdirty⟩ := hframe hdone
    exact InFrame.go ⟨hw', hsavepoint⟩ hdirty hexec hok
  · exact hw'

end Machine

end Executive

namespace Nested

open World Executive

variable {H : Type} [DecidableEq H] [CodeHash H] {M : Setting} {N : Nested H}

omit [DecidableEq H] in
theorem conserves_leave {α : Type} {w : World H} {r : EStateM.Result Failure (Executive H) α}
    (h : ∀ a e, r = .ok a e → World.Conserves M { w with sub := {} } e.world) :
    World.Conserves M w (leave w r) := by
  cases r with
  | error x e => exact fun hrunning => by cases hrunning.1
  | ok a e =>
      intro hrunning
      obtain ⟨hw, hruns, hnone, htotal⟩ := h a e rfl hrunning
      refine ⟨hw, hruns, fun hempty => ?_, htotal⟩
      show (if e.ext.isSome then w.sub.add e.world.sub else w.sub).suicides = ∅
      split
      · show w.sub.suicides ∪ e.world.sub.suicides = ∅
        rw [hempty, hnone rfl]
        rfl
      · exact hempty

/-- A lookup stays in the trace. -/
theorem conserves_lookupFrame (hexec : ∀ m, Moves Executive.Grows (exec M N m))
    (hlooks : M.looksUp) (m : Message) (number : U256) (w : World H) :
    World.Conserves M w (lookupFrame M N m number w).1 := by
  intro hrunning
  have hnone := (extends_lookupFrame hexec m number w).not_mem (hrunning.2 hlooks)
  exact absurd List.mem_cons_self hnone

theorem conserving_frames (hvm : M.vm.ConfinedAlive) (hgrows : N.Grows) (hN : Conserving M N) :
    Conserving M (H := H) ⟨callFrame M N, createFrame M N, lookupFrame M N⟩ where
  call m p w := by
    refine conserves_leave fun u e h => ?_
    obtain ⟨done, entered, hentered, h⟩ := bind_eq_ok.mp h
    exact ((entered_call rfl hentered).finish (conserves_exec hvm hN) h).conserves
  create m p w := by
    refine conserves_leave fun u e h => ?_
    obtain ⟨done, entered, hentered, h⟩ := bind_eq_ok.mp h
    unfold createBy at hentered
    split at hentered
    · exact ((entered_createOpcode hentered).finish (conserves_exec hvm hN) h).conserves
    · exact ((entered_create2Opcode hentered).finish (conserves_exec hvm hN) h).conserves
  lookup := conserves_lookupFrame fun m => grows_exec hvm.confined hgrows m

/-- **Frames conserve the balances, however deep they go.** -/
theorem conserving_upTo (hvm : M.vm.ConfinedAlive) (n : Nat) :
    Conserving M (upTo M n : Nested H) := by
  induction n with
  | zero =>
      have hended : ∀ w : World H, World.Conserves M w { w with exited := true } := fun w h => by
        cases h.1
      exact ⟨fun _ _ w => hended w, fun _ _ w => hended w, fun _ _ _ w => hended w⟩
  | succ n ih => exact conserving_frames hvm (grows_upTo hvm.confined n) ih

end Nested

end CppSwc
