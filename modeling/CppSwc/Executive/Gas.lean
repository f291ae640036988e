import CppSwc.Executive.Static

/-!
# Gas of frames

A frame gives back at most the gas that it got, if the machine does.  For a machine that
does so only while its calls are covered, the same is true of the frames after which
`covered` is still set: `ok` is a condition on that mark, and frames only ever make it worse.
-/

namespace CppSwc

open Std Lib Evm CodeHash

namespace Executive

variable {H : Type} {M : Setting} {ok : Bool → Prop} {g : U256}

/-- The mark was as good before, the gas is still at most `g`, and the transaction is the
same. -/
structure Within (ok : Bool → Prop) (g : U256) (e e' : Executive H) : Prop where
  t : e'.t = e.t
  res : e'.res.isSome = e.res.isSome
  gas : ok e'.world.covered → ok e.world.covered ∧ (e.gas ≤ g → e'.gas ≤ g)

instance : Std.Refl (Within (H := H) ok g) where
  refl _ := ⟨rfl, rfl, fun h => ⟨h, id⟩⟩

instance : IsTrans (Executive H) (Within ok g) where
  trans _ _ _ hst htu := by
    refine ⟨htu.t.trans hst.t, htu.res.trans hst.res, fun h => ?_⟩
    obtain ⟨h, hgas'⟩ := htu.gas h
    obtain ⟨h, hgas⟩ := hst.gas h
    exact ⟨h, hgas' ∘ hgas⟩

/-- A change of other members, where the gas is kept or set to at most `g`. -/
theorem within_modify {f : Executive H → Executive H}
    (hf : ∀ e, (f e).t = e.t ∧ (f e).res.isSome = e.res.isSome ∧
      (f e).world.covered = e.world.covered ∧ (e.gas ≤ g → (f e).gas ≤ g)) :
    Moves (Within ok g) (modify f : Action H Unit) :=
  Moves.modify fun e => ⟨(hf e).1, (hf e).2.1, fun h => ⟨(hf e).2.2.1 ▸ h, (hf e).2.2.2⟩⟩

theorem within_onState {α : Type} (m : State.Pick → State.Action H α) :
    Moves (Within ok g) (onState M m) :=
  moves_onState (fun _ _ => ⟨rfl, rfl, fun h => ⟨h, id⟩⟩) m

theorem within_note (event : Event) : Moves (Within ok g) (note event : Action H Unit) :=
  within_modify fun _ => ⟨rfl, rfl, rfl, id⟩

variable [DecidableEq H] [CodeHash H]

omit [DecidableEq H] in
theorem within_revert : Moves (Within ok g) (revert : Action H Unit) :=
  within_modify fun _ => ⟨rfl, rfl, rfl, id⟩

theorem within_addBalance (a : Address) (amount : U256) :
    Moves (Within ok g) (addBalance M a amount : Action H Unit) :=
  Moves.bind Moves.get fun _ => Moves.bind (within_note _) fun _ => within_onState _

theorem within_subBalance (a : Address) (value : U256) :
    Moves (Within ok g) (subBalance M a value : Action H Unit) :=
  Moves.bind Moves.get fun _ => Moves.bind (within_note _) fun _ => within_onState _

theorem within_transferBalance (source target : Address) (value : U256) :
    Moves (Within ok g) (transferBalance M source target value : Action H Unit) :=
  Moves.bind (within_note _) fun _ => Moves.bind (within_subBalance _ _) fun _ =>
    within_addBalance _ _

omit [DecidableEq H] in
theorem within_incSenderNonce (sender : Address) :
    Moves (Within ok g) (incSenderNonce M sender : Action H Unit) :=
  Moves.runIf (within_onState _)

/-- What is left of gas after a cost. -/
theorem ofNat_sub_le {gas : U256} {cost : Nat} (hgas : gas ≤ g) :
    BitVec.ofNat 256 (gas.toNat - cost) ≤ g := by
  have hlt := gas.isLt
  rw [BitVec.le_def, BitVec.toNat_ofNat, Nat.mod_eq_of_lt (by omega)]
  exact (Nat.sub_le _ _).trans hgas

theorem within_prepareCall {p : CallParameters} (hp : p.gas ≤ g) (gasPrice : U256)
    (origin : Address) : Moves (Within ok g) (prepareCall M p gasPrice origin : Action H Bool) := by
  refine Moves.ite (Moves.ite ?_ ?_) (Moves.bind ?_ fun _ => Moves.pure _)
  · refine Moves.bind (within_modify fun _ => ⟨rfl, rfl, rfl, id⟩) fun _ => ?_
    exact Moves.bind (Moves.runIf (within_addBalance _ _)) fun _ => Moves.pure _
  · refine Moves.bind (within_modify fun _ => ⟨rfl, rfl, rfl, fun _ => ofNat_sub_le hp⟩) fun _ => ?_
    refine Moves.bind (Moves.runIf (within_modify fun _ => ⟨rfl, rfl, rfl, fun _ => ?_⟩)) fun _ => Moves.pure _
    exact Nat.zero_le _
  · refine Moves.bind (within_modify fun _ => ⟨rfl, rfl, rfl, fun _ => hp⟩) fun _ => ?_
    refine Moves.bind (within_onState _) fun _ => Moves.runIf ?_
    exact Moves.bind (within_onState _) fun _ => within_modify fun _ => ⟨rfl, rfl, rfl, id⟩

theorem within_call {p : CallParameters} (hp : p.gas ≤ g) (gasPrice : U256) (origin : Address) :
    Moves (Within ok g) (call M p gasPrice origin : Action H Bool) := by
  refine Moves.bind Moves.get fun _ => ?_
  refine Moves.bind (Moves.runIf (within_incSenderNonce _)) fun _ => ?_
  refine Moves.bind (within_modify fun _ => ⟨rfl, rfl, rfl, id⟩) fun _ => ?_
  refine Moves.bind (within_prepareCall hp gasPrice origin) fun _ => Moves.ite (Moves.pure _) ?_
  refine Moves.bind (within_transferBalance _ _ _) fun _ => ?_
  exact Moves.bind Moves.get fun _ => Moves.pure _

theorem within_executeCreate (sender : Address) (endowment gasPrice : U256) {gas : U256}
    (hgas : gas ≤ g) (init : Bytes) (origin : Address) :
    Moves (Within ok g)
      (executeCreate M sender endowment gasPrice gas init origin : Action H Bool) := by
  refine Moves.bind (within_incSenderNonce _) fun _ => ?_
  refine Moves.bind (within_modify fun _ => ⟨rfl, rfl, rfl, fun _ => hgas⟩) fun _ => Moves.bind Moves.get fun _ => ?_
  refine Moves.bind (within_onState _) fun _ => Moves.bind (within_onState _) fun _ => ?_
  refine Moves.ite ?_ ?_
  · refine Moves.bind (within_modify fun _ => ⟨rfl, rfl, rfl, fun _ => Nat.zero_le _⟩) fun _ => ?_
    refine Moves.bind within_revert fun _ => ?_
    exact Moves.bind (within_modify fun _ => ⟨rfl, rfl, rfl, id⟩) fun _ => Moves.pure _
  · refine Moves.bind (within_transferBalance _ _ _) fun _ => ?_
    refine Moves.bind (within_onState _) fun _ => Moves.bind (within_onState _) fun _ => ?_
    exact Moves.bind (Moves.runIf (within_modify fun _ => ⟨rfl, rfl, rfl, id⟩)) fun _ => Moves.pure _

theorem within_createOpcode (sender : Address) (endowment gasPrice : U256) {gas : U256}
    (hgas : gas ≤ g) (init : Bytes) (origin : Address) :
    Moves (Within ok g)
      (createOpcode M sender endowment gasPrice gas init origin : Action H Bool) := by
  refine Moves.bind (within_onState _) fun _ => ?_
  refine Moves.bind (within_modify fun _ => ⟨rfl, rfl, rfl, id⟩) fun _ => ?_
  exact Moves.bind (within_note _) fun _ => within_executeCreate _ _ _ hgas _ _

theorem within_create2Opcode (sender : Address) (endowment gasPrice : U256) {gas : U256}
    (hgas : gas ≤ g) (init : Bytes) (origin : Address) (salt : U256) :
    Moves (Within ok g)
      (create2Opcode M sender endowment gasPrice gas init origin salt : Action H Bool) := by
  refine Moves.bind (within_modify fun _ => ⟨rfl, rfl, rfl, id⟩) fun _ => ?_
  exact Moves.bind (within_note _) fun _ => within_executeCreate _ _ _ hgas _ _

omit [DecidableEq H] in
theorem within_caught (x : VMException) : Moves (Within ok g) (caught x : Action H Unit) := by
  cases x with
  | revertInstruction output =>
      exact Moves.bind within_revert fun _ => within_modify fun _ => ⟨rfl, rfl, rfl, id⟩
  | overflowError => exact Moves.throw _
  | _ =>
      refine Moves.bind (within_modify fun _ => ⟨rfl, rfl, rfl, fun _ => ?_⟩) fun _ => within_revert
      exact Nat.zero_le _

theorem within_finishCreation (a : Address) (out : Bytes) :
    Moves (Within ok g) (finishCreation M a out : Action H Unit) := by
  have hdeposit : ∀ code, Moves (Within ok g) (deposit M a code : Action H Unit) := fun code =>
    Moves.bind (within_modify fun e => ⟨rfl, Option.isSome_map, rfl, id⟩) fun _ =>
      moves_orExit (within_onState _)
  refine Moves.bind Moves.get fun _ => Moves.ite (within_caught _) (Moves.ite ?_ (Moves.ite ?_ ?_))
  · exact Moves.bind (within_modify fun _ => ⟨rfl, rfl, rfl, ofNat_sub_le⟩) fun _ => hdeposit out
  · exact within_caught _
  · exact hdeposit []

variable {N : Nested H}

/-- `go`, if the machine stays within its gas. -/
theorem within_go (hexec : ∀ m, Moves (Within ok g) (exec M N m)) :
    Moves (Within ok g) (go M N : Action H Unit) := by
  refine Moves.bind Moves.get fun e => ?_
  cases e.ext with
  | none => exact Moves.pure _
  | some m =>
      refine Moves.bind ?_ fun _ => within_modify fun _ => ⟨rfl, Option.isSome_map, rfl, id⟩
      refine Moves.bind Moves.get fun e => ?_
      refine Moves.bind (Moves.runIf (moves_orExit (within_onState _))) fun _ => ?_
      refine Moves.bind (hexec m) fun outcome => ?_
      cases outcome with
      | error x => exact within_caught x
      | ok out => exact Moves.ite (within_finishCreation _ _) (within_modify fun _ => ⟨rfl, rfl, rfl, id⟩)

/-! ## Whole transactions

The gas of a transaction is not bounded by that of its frame, since `finalize` adds the
refunds.  What is left of `Within` for the greatest bound is the mark. -/

theorem le_invalid256 (x : U256) : x ≤ invalid256 := by
  rw [BitVec.le_def, invalid256, BitVec.toNat_allOnes]
  have hlt := x.isLt
  omega

omit [DecidableEq H] [CodeHash H] in
/-- A change of other members. -/
theorem within_any {f : Executive H → Executive H}
    (hf : ∀ e, (f e).t = e.t ∧ (f e).res.isSome = e.res.isSome ∧
      (f e).world.covered = e.world.covered) :
    Moves (Within ok invalid256) (modify f : Action H Unit) :=
  within_modify fun e => ⟨(hf e).1, (hf e).2.1, (hf e).2.2, fun _ => le_invalid256 _⟩

omit [DecidableEq H] [CodeHash H] in
/-- `initialize` sets the transaction. -/
theorem within_initializeWith (t : TransactionBase) (e : Executive H) :
    Within ok g { e with t := some t } (after (initializeWith M t) e) := by
  have hset : Within ok g { e with t := some t }
    { e with t := some t, baseGasRequired := t.baseGasRequired M.schedule } :=
      ⟨rfl, rfl, fun h => ⟨h, id⟩⟩
  refine trans_of (Within ok g) hset ?_
  rw [initializeWith, after_modify_bind]
  refine Moves.bind (moves_liftExcept _) (fun _ => Moves.runIf ?_) _
  refine Moves.bind (moves_liftExcept _) fun _ => Moves.bind (within_onState _) fun _ => ?_
  refine Moves.bind (Moves.throwIf _ _) fun _ => Moves.bind (within_onState _) fun _ => ?_
  exact Moves.bind (Moves.throwIf _ _) fun _ => within_modify fun _ => ⟨rfl, rfl, rfl, id⟩

theorem within_enter {t : TransactionBase} (sender : Address) (e : Executive H)
    (hgas : t.gas - BitVec.ofNat 256 e.baseGasRequired ≤ g) :
    Within ok g e (after (enter M t sender) e) := by
  rw [enter, after_get_bind]
  exact Moves.ite (within_createOpcode _ _ _ hgas _ _) (within_call hgas _ _) e

omit [DecidableEq H] [CodeHash H] in
theorem within_gasUsed : Moves (Within ok g) (gasUsed : Action H U256) :=
  Moves.bind Moves.get fun _ => Moves.bind (Moves.throwIf _ _) fun _ => Moves.pure _

theorem within_finalize : Moves (Within ok invalid256) (finalize M : Action H Bool) := by
  have hrefund : Moves (Within ok invalid256) (refund M : Action H Unit) := by
    refine Moves.bind (within_any fun e => ?_) fun _ => ?_
    · split <;> exact ⟨rfl, rfl, rfl⟩
    · refine Moves.bind (within_any fun _ => ⟨rfl, rfl, rfl⟩) fun _ => ?_
      exact within_any fun _ => ⟨rfl, rfl, rfl⟩
  have hpay : Moves (Within ok invalid256) (pay M : Action H Unit) := by
    refine Moves.bind Moves.get fun e => ?_
    cases e.t with
    | none => exact Moves.pure _
    | some t =>
        refine Moves.bind (Moves.bind (moves_liftExcept _) fun _ => ?_) fun _ => ?_
        · exact Moves.bind Moves.get fun _ => within_addBalance _ _
        · exact Moves.bind Moves.get fun _ => within_addBalance _ _
  have hkill : Moves (Within ok invalid256) (killSuicides M : Action H Unit) := by
    refine Moves.bind Moves.get fun e => Moves.bind (Moves.runIf ?_) fun _ => ?_
    · exact Moves.forM fun _ => within_onState _
    · exact within_any fun _ => ⟨rfl, rfl, rfl⟩
  have hcollect : Moves (Within ok invalid256) (collect : Action H Unit) := by
    refine Moves.bind Moves.get fun e => Moves.runIf (Moves.bind within_gasUsed fun _ => ?_)
    exact within_any fun _ => ⟨rfl, Option.isSome_map, rfl⟩
  refine Moves.bind hrefund fun _ => Moves.bind hpay fun _ => Moves.bind hkill fun _ => ?_
  exact Moves.bind hcollect fun _ => Moves.bind Moves.get fun _ => Moves.pure _

theorem within_executeAndGo (hexec : ∀ m, Moves (Within ok invalid256) (exec M N m))
    (t : TransactionBase) : Moves (Within ok invalid256) (executeAndGo M N t : Action H Unit) := by
  refine Moves.bind (Moves.bind (moves_liftExcept _) fun _ => ?_) fun _ => Moves.runIf ?_
  · refine Moves.bind (Moves.bind Moves.get fun _ => within_subBalance _ _) fun sender => ?_
    exact fun e => within_enter _ e (le_invalid256 _)
  · exact within_go hexec

theorem within_transact (hexec : ∀ m, Moves (Within ok invalid256) (exec M N m))
    (t : TransactionBase) (p : Permanence) (e : Executive H) :
    Within ok invalid256 { e with t := some t } (after (transact M N t p) e) := by
  have hinit : Within ok invalid256 { e with t := some t } (after (initializeWith M t) e) :=
    within_initializeWith t e
  rw [transact, executeTransaction, bind_assoc]
  refine after_bind (fun x e' h => ?_) fun u e' h => ?_
  · rwa [after_of_error h] at hinit
  · rw [after_of_ok h] at hinit
    refine trans_of (Within ok invalid256) hinit (Moves.bind ?_ (fun _ => ?_) e')
    · exact Moves.bind (within_executeAndGo hexec t) fun _ => within_finalize
    · refine Moves.bind (within_any fun _ => ⟨rfl, rfl, rfl⟩) fun _ => ?_
      refine Moves.bind within_gasUsed fun _ => Moves.bind Moves.get fun _ => Moves.pure _

end Executive

namespace Nested

open Executive

variable {H : Type} [DecidableEq H] [CodeHash H] {M : Setting} {ok : Bool → Prop} {N : Nested H}

/-- Frames inside a frame give back at most the gas that they get. -/
structure Returns (ok : Bool → Prop) (N : Nested H) : Prop where
  call : ∀ m p w, ok (N.call m p w).1.covered → ok w.covered ∧ (N.call m p w).2.gas ≤ p.gas
  create : ∀ m p w, ok (N.create m p w).1.covered → ok w.covered ∧ (N.create m p w).2.gas ≤ p.gas
  lookup : ∀ m number w, ok (N.lookup m number w).1.covered → ok w.covered

omit [DecidableEq H] [CodeHash H] in
/-- What a frame gives back. -/
theorem within_leave {w : World H} {m : Executive.Action H Unit} {g : U256} {e : Executive H}
    (hm : Moves (Within ok g) m) (he : e.world.covered = w.covered) (hgas : e.gas ≤ g)
    (h : ok (leave w (m e)).covered) : ok w.covered ∧ (left (m e)).gas ≤ g := by
  have hm := hm e
  unfold after at hm
  cases hme : m e with
  | ok a e' =>
      rw [hme] at hm h
      exact ⟨he ▸ (hm.gas h).1, (hm.gas h).2 hgas⟩
  | error x e' =>
      rw [hme] at hm h
      exact ⟨he ▸ (hm.gas h).1, (hm.gas h).2 hgas⟩

/-- A transaction does not make the mark better. -/
theorem covered_of_executeOn (hexec : ∀ m, Moves (Within ok invalid256) (exec M N m))
    {t : TransactionBase} {p : Permanence} {w : World H}
    (h : ok (after (executeOn M N t p) w).covered) : ok w.covered := by
  have hm := within_transact hexec t p { world := { w with sub := {} }, res := some {} }
  unfold after executeOn at h
  unfold after at hm
  cases hr : transact M N t p { world := { w with sub := {} }, res := some {} } with
  | ok r e =>
      rw [hr] at hm h
      exact (hm.gas h).1
  | error x e =>
      rw [hr] at hm h
      exact (hm.gas h).1

omit [DecidableEq H] [CodeHash H] in
theorem answer_covered
    (m : EStateM Failure (World H) (ExecutionResult × TransactionReceipt H)) (w : World H) :
    (answer (m w)).1.covered = (after m w).covered := by
  unfold after answer
  cases m w with
  | ok r w' => rfl
  | error x w' => rfl

theorem returns_frames (hexec : ∀ g m, Moves (Within ok g) (exec M N m)) :
    Returns ok ⟨callFrame M N, createFrame M N, lookupFrame M N⟩ where
  call m p w h := by
    refine within_leave (Moves.bind ?_ fun _ => Moves.runIf ?_) rfl (Nat.zero_le _) h
    · exact within_call (BitVec.le_refl _) _ _
    · exact within_go (hexec p.gas)
  create m p w h := by
    refine within_leave (Moves.bind (Moves.ite ?_ ?_) fun _ => Moves.runIf ?_) rfl (Nat.zero_le _) h
    · exact within_createOpcode _ _ _ (BitVec.le_refl _) _ _
    · exact within_create2Opcode _ _ _ (BitVec.le_refl _) _ _ _
    · exact within_go (hexec p.gas)
  lookup m number w h := by
    replace h : ok (answer (executeOn M N (lookupTransaction m number w) .reverted
      (w.note .lookup))).1.covered := h
    rw [answer_covered] at h
    show ok (w.note .lookup).covered
    exact covered_of_executeOn (hexec invalid256) h

/-- A machine that never makes gas. -/
theorem within_exec (hvm : M.vm.Thrifty) (hN : Returns (fun _ => True) N) (g : U256) (m : Message) :
    Moves (Within (fun _ => True) g) (exec M N m) := by
  intro e
  have hgas := hvm (M.context N m) (fun w p => (hN.call m p w trivial).2)
    (fun w p => (hN.create m p w trivial).2) e.gas e.world
  rw [after_exec]
  exact ⟨rfl, rfl, fun _ => ⟨trivial, fun h => BitVec.le_trans hgas h⟩⟩

/-- **Frames give back at most the gas that they get, however deep they go.** -/
theorem returns_upTo (hvm : M.vm.Thrifty) (n : Nat) :
    Returns (fun _ => True) (upTo M n : Nested H) := by
  induction n with
  | zero =>
      exact ⟨fun _ _ _ _ => ⟨trivial, BitVec.le_refl _⟩, fun _ _ _ _ => ⟨trivial, BitVec.le_refl _⟩,
        fun _ _ _ _ => trivial⟩
  | succ n ih => exact returns_frames (within_exec hvm ih)

/-- The mark of a world. -/
def Unbroken (w : World H) : Prop := w.covered = true

omit [DecidableEq H] [CodeHash H] in
theorem perform_covered (m : State.Pick → State.Action H Unit) (w : World H) :
    (w.perform M m).covered = w.covered := by
  unfold World.perform World.act
  split
  · next heq => rw [← congrArg (fun x => x.2.covered) heq]
  · next heq => rw [← congrArg (fun x => x.2.covered) heq]

open LegacyVM in
theorem createReturnsOn_context (hN : Returns (· = true) N) (m : Message) :
    CreateReturnsOn (M.context N m) Unbroken where
  setStore w key value h := by
    have hsame := perform_covered (M := M)
      (fun pick => State.setStorage pick m.myAddress key value) (w.note (.setStore m.myAddress))
    exact hsame.symm.trans h
  create w p h := hN.create m p w h
  suicide w dest h := by
    have hcredit := perform_covered (M := M) (fun pick => State.addBalance pick dest
      ((w.note (.suicide m.myAddress)).state.balanceAt m.myAddress)) (w.note (.suicide m.myAddress))
    have hclear := perform_covered (M := M) (fun pick => State.setBalance pick m.myAddress 0)
      ((w.note (.suicide m.myAddress)).perform M fun pick => State.addBalance pick dest
        ((w.note (.suicide m.myAddress)).state.balanceAt m.myAddress))
    exact (hclear.trans hcredit).symm.trans h
  log _ _ _ := id
  blockHash w number := by
    show Unbroken (blockHash M N m w number).1 → Unbroken w
    unfold blockHash
    split
    · exact id
    · split
      · exact hN.lookup m number w
      · exact id
  addRefunds _ _ := id

/-- `LegacyVM`, while its calls are covered. -/
theorem within_exec_covered {fuel : Nat} (hvm : M.vm = legacyVM fuel) (hN : Returns (· = true) N)
    (g : U256) (m : Message) : Moves (Within (· = true) g) (exec M N m) := by
  intro e
  rw [after_exec]
  refine ⟨rfl, rfl, fun h => ?_⟩
  obtain ⟨hworld, hcovered⟩ := Bool.and_eq_true_iff.mp h
  rw [hvm] at hworld hcovered ⊢
  have hcall : LegacyVM.CallReturnsOn (M.context N m) Unbroken := fun w p h => hN.call m p w h
  obtain ⟨hbefore, hgas⟩ :=
    legacyVM_returns fuel hcall (createReturnsOn_context hN m) hcovered hworld
  exact ⟨hbefore, fun hle => BitVec.le_trans hgas hle⟩

theorem returns_upTo_covered {fuel : Nat} (hvm : M.vm = legacyVM fuel) (n : Nat) :
    Returns (· = true) (upTo M n : Nested H) := by
  induction n with
  | zero =>
      exact ⟨fun _ _ _ h => ⟨h, BitVec.le_refl _⟩, fun _ _ _ h => ⟨h, BitVec.le_refl _⟩,
        fun _ _ _ h => h⟩
  | succ n ih => exact returns_frames (within_exec_covered hvm ih)

end Nested

end CppSwc
