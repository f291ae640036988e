import CppSwc.Executive.Payment
import CppSwc.State.Writeback

/-!
# Exceptions of a transaction

A transaction is refused by `initialize` before anything is changed.  What can go wrong after
that is caught by `go`, or ends the process there, or is found out by `finalize`, when more gas
is left than the transaction had.

`Funded` is what makes the frame of a transaction start without an exception: the value that is
sent is there, and so is the code.
-/

namespace CppSwc

open Std Lib Evm CodeHash

namespace State

variable {H : Type} {s t : State H} {a : Address} {P : StateException → Prop}

/-! ## Operations of the state -/

/-- A state in which accounts can be created. -/
def Numbered (s : State H) : Prop := s.accountStartNonce ≠ invalid256

theorem Numbered.of_based (hs : s.Numbered) (h : Based s t) : t.Numbered := fun hinvalid =>
  hs (h.accountStartNonce.symm.trans hinvalid)

theorem throws_account {α : Type} {pick : Pick} {f : Option (Account H) → Action H α}
    (h : Throws P (f (s.load pick a).cache[a]?) (s.load pick a)) :
    Throws P (account pick a >>= f) s := h

/-- An account that is not found is not found again. -/
theorem load_again {pick pick' : Pick} (h : (s.load pick a).cache[a]? = none) :
    ((s.load pick a).load pick' a).cache[a]? = none := by
  generalize hload : s.load pick a = r at h ⊢
  unfold load at hload
  split at hload
  · next hknown =>
      subst hload
      rw [load, if_pos hknown]
      exact h
  · split at hload
    · subst hload
      rw [load, if_pos (.inr (ExtTreeSet.contains_iff_mem.mpr (mem_insert_iff.mpr (.inl rfl))))]
      exact h
    · subst hload
      rw [show ∀ (x : State H) entries, ({ x with unchangedCacheEntries := entries } : State H).cache =
        x.cache from fun _ _ => rfl, put_cache, if_pos rfl] at h
      cases h

theorem throws_createAccount {pick pick' : Pick} {x : Account H}
    (hnone : (s.load pick' a).cache[a]? = none) :
    Throws P (createAccount pick a x) (s.load pick' a) := by
  refine Throws.of_ok (a := ()) (t := ((s.load pick' a).load pick a).created a x) ?_
  rw [createAccount, addressInUse, bind_assoc, account_bind, load_again hnone]
  rfl

theorem throws_requireAccountStartNonce (hs : s.Numbered) :
    Throws P requireAccountStartNonce s :=
  Throws.bind Throws.get fun _ _ h => by
    cases h
    exact Throws.bind (Throws.throwIf fun hinvalid => absurd hinvalid hs) fun _ _ _ => Throws.pure _

variable [DecidableEq H] [CodeHash H]

theorem throws_addBalance (pick : Pick) (a : Address) (amount : U256) (hs : s.Numbered) :
    Throws P (addBalance pick a amount) s := by
  have hload := hs.of_based (based_load pick a s)
  refine throws_account ?_
  cases hx : (s.load pick a).cache[a]? with
  | some x => exact Throws.modify _
  | none =>
      show Throws P (requireAccountStartNonce >>= _) (s.load pick a)
      intro e r h
      rw [requireAccountStartNonce_bind hload] at h
      exact Throws.bind (throws_createAccount hx) (fun _ _ _ => Throws.modify _) e r h

omit [DecidableEq H] in
theorem throws_incNonce (pick : Pick) (a : Address) (hs : s.Numbered) :
    Throws P (incNonce pick a) s := by
  have hload := hs.of_based (based_load pick a s)
  refine throws_account ?_
  cases hx : (s.load pick a).cache[a]? with
  | some x => exact Throws.modify _
  | none =>
      show Throws P ((requireAccountStartNonce >>= fun nonce => pure (nonce + 1)) >>= _)
        (s.load pick a)
      intro e r h
      rw [bind_assoc, requireAccountStartNonce_bind hload] at h
      exact throws_createAccount hx e r h

omit [DecidableEq H] in
theorem throws_setNonce (pick : Pick) (a : Address) (nonce : U256) :
    Throws P (setNonce pick a nonce) s := by
  refine throws_account ?_
  cases hx : (s.load pick a).cache[a]? with
  | some x => exact Throws.modify _
  | none => exact throws_createAccount hx

omit [DecidableEq H] in
theorem throws_kill (pick : Pick) (a : Address) : Throws P (kill pick a) s := by
  refine throws_account ?_
  cases (s.load pick a).cache[a]? with
  | some x => exact Throws.modify _
  | none => exact Throws.pure _

theorem throws_subBalance (pick : Pick) {value : U256} (hs : s.Balanced)
    (hvalue : value ≤ s.balanceAt a) : Throws P (subBalance pick a value) s := by
  rcases subBalance_cases pick a value hs with ⟨-, r, hok, -⟩ | ⟨hshort, -⟩
  · exact Throws.of_ok hok
  · exact absurd hvalue (BitVec.not_le.mpr hshort)

/-! ## Accounts that are alive -/

/-- An account that is not dirty is alive. -/
theorem notDead_of_clean (hs : s.Coherent) (hclean : ¬s.IsDirty a) : s.NotDead a := by
  intro x hx
  rw [view] at hx
  cases hcached : s.cache[a]? with
  | some y =>
      rw [hcached, Option.some_or] at hx
      cases hx
      have hdirty : x.isDirty = false := Bool.eq_false_iff.mpr fun h => hclean ⟨x, hcached, h⟩
      obtain ⟨leaf, -, hsame⟩ := hs.clean a x hcached hdirty
      exact hsame.alive
  | none =>
      rw [hcached, Option.none_or] at hx
      obtain ⟨leaf, -, rfl⟩ := Option.map_eq_some_iff.mp hx
      rfl

theorem raise_view (s : State H) (amount : U256) (x : Account H) :
    (raise a amount x s).view a = some (x.addBalance amount) := by
  have hput : ∀ r : State H, (r.put a (x.addBalance amount)).view a = some (x.addBalance amount) :=
    fun r => (put_view a a _ r).trans (if_pos rfl)
  unfold raise
  dsimp only
  split <;> split <;> exact hput _

/-- A debit leaves the account alive. -/
theorem NotDead.of_subBalance {pick : Pick} {value : U256} {u : Unit} (h : s.NotDead a)
    (hs : s.Coherent) (hok : subBalance pick a value s = .ok u t) : t.NotDead a := by
  unfold subBalance at hok
  split at hok
  · rw [(pure_eq_ok.mp hok).2]
    exact h
  · rw [account_bind] at hok
    obtain ⟨henough, hok⟩ := throwIf_bind_eq_ok.mp hok
    cases hx : (s.load pick a).cache[a]? with
    | none =>
        rw [hx] at henough
        exact absurd (fun y hy => by cases hy) henough
    | some x =>
        rw [addBalance, account_bind, load_of_cache pick hx, hx] at hok
        have halive : x.isAlive = true := h.of_load hs.toTidy hx
        rw [modify_eq_ok.mp hok]
        intro y hy
        cases (raise_view _ _ x).symm.trans hy
        exact halive

/-! ## What is read stays the same -/

/-- Nothing that is read has changed, if nothing was missing. -/
def Alike (s t : State H) : Prop :=
  s.Kept → t.Kept ∧ (∀ a, s.NotDead a → t.NotDead a) ∧ ∀ a, Shown t s a

instance : Std.Refl (Alike (H := H)) where
  refl _ hs := ⟨hs, fun _ h => h, fun _ => ⟨rfl, rfl, rfl, fun _ => rfl⟩⟩

instance : IsTrans (State H) (Alike (H := H)) where
  trans _ _ _ hst htr hs := by
    obtain ⟨ht, halive, hshown⟩ := hst hs
    obtain ⟨hr, halive', hshown'⟩ := htr ht
    refine ⟨hr, fun a h => halive' a (halive a h), fun a => ?_⟩
    have h := hshown a
    have h' := hshown' a
    exact ⟨h'.balance.trans h.balance, h'.nonce.trans h.nonce, h'.code.trans h.code,
      fun key => (h'.storage key).trans (h.storage key)⟩

theorem Alike.of_covers (h : s.Kept → t.Kept ∧ Covers t s) : Alike s t := by
  intro hs
  obtain ⟨ht, hcovers⟩ := h hs
  refine ⟨ht, fun a halive x hx => ?_, fun a => ?_⟩
  · have hview := hcovers.view a
    rw [hx] at hview
    cases hy : s.view a with
    | none =>
        rw [hy] at hview
        cases hview
    | some y =>
        rw [hy] at hview
        cases hview with
        | some hsame => exact hsame.alive.trans (halive y hy)
  · obtain ⟨-, hbalance, hnonce, -, hcode, hstorage⟩ :=
      shown_eq hcovers.codes hcovers.accountStartNonce (hcovers.view a)
    exact ⟨hbalance, hnonce, hcode, hstorage⟩

theorem alike_load (pick : Pick) (a : Address) (s : State H) : Alike s (s.load pick a) :=
  .of_covers fun hs => ⟨hs.load pick a, covers_load pick a hs.toCoherent⟩

theorem alike_balance (pick : Pick) (a : Address) : Moves Alike (balance pick a : Action H U256) :=
  alike_load pick a

theorem alike_getNonce (pick : Pick) (a : Address) : Moves Alike (getNonce pick a : Action H U256) :=
  alike_load pick a

theorem alike_addressHasCode (pick : Pick) (a : Address) :
    Moves Alike (addressHasCode pick a : Action H Bool) :=
  alike_load pick a

theorem alike_code (pick : Pick) (a : Address) : Moves Alike (code pick a : Action H Bytes) :=
  fun _ => .of_covers fun hs => ⟨hs.code pick a, covers_code pick a hs.toCoherent⟩

theorem Kept.balanced (hs : s.Kept) : s.Balanced where
  absent := hs.toTidy.unused
  clean a x hx hclean := by
    obtain ⟨leaf, hleaf, hsame⟩ := hs.clean a x hx hclean
    rw [hsame.balance, trieBalance, hleaf]
    rfl

/-! ## A frame that can start -/

/-- Accounts can be created, codes can be read and an account has a balance of at least
`value`. -/
structure Funded (a : Address) (value : U256) (s : State H) : Prop where
  kept : s.Kept
  numbered : s.Numbered
  enough : value ≤ s.balanceAt a

theorem Funded.alike {value : U256} (hs : Funded a value s) (h : Alike s t) (hbased : Based s t) :
    Funded a value t := by
  obtain ⟨ht, -, hshown⟩ := h hs.kept
  refine ⟨ht, hs.numbered.of_based hbased, ?_⟩
  rw [(hshown a).balance]
  exact hs.enough

theorem Funded.incNonce {pick : Pick} {value : U256} {u : Unit} (hs : Funded a value s)
    (halive : s.NotDead a) (h : incNonce pick a s = .ok u t) : Funded a value t := by
  have hsteady := (steady_incNonce pick a).ends h
  have hkept : (after (State.incNonce pick a) s).Kept := by
    refine hs.kept.writeNonce halive fun hr hf => ?_
    rw [bind_assoc]
    exact hr.requireAccountStartNonce fun nonce => hf (nonce + 1)
  rw [after_of_ok h] at hkept
  refine ⟨hkept, hs.numbered.of_based ((based_incNonce pick a).ends h), ?_⟩
  rw [hsteady.2 hs.kept.balanced]
  exact hs.enough

end State

/-! ## Frames stand on the same trie -/

namespace Executive

variable {H : Type} {M : Setting} {N : Nested H}

/-- The states stand on the same trie. -/
def Based (e e' : Executive H) : Prop := State.Based e.world.state e'.world.state

instance : Std.Refl (Based (H := H)) where
  refl e := refl_of State.Based e.world.state

instance : IsTrans (Executive H) (Based (H := H)) where
  trans _ _ _ hst htr := trans_of State.Based hst htr

/-- A change of other members. -/
theorem based_modify {f : Executive H → Executive H} (hf : ∀ e, (f e).world.state = e.world.state) :
    Moves Based (modify f : Action H Unit) :=
  Moves.modify fun e => by
    rw [Based, hf e]
    exact refl_of State.Based e.world.state

theorem based_onState {α : Type} {m : State.Pick → State.Action H α}
    (hm : ∀ pick, Moves State.Based (m pick)) : Moves Based (onState M m) := by
  intro e
  have hstate := hm (M.pick e.world.draws) e.world.state
  unfold after onState World.act
  cases outcome (m (M.pick e.world.draws)) e.world.state with
  | ok a => exact hstate
  | error x => exact hstate

theorem based_note (event : Event) : Moves Based (note event : Action H Unit) :=
  based_modify fun _ => rfl

variable [DecidableEq H] [CodeHash H]

omit [DecidableEq H] in
theorem based_revert : Moves Based (revert : Action H Unit) :=
  Moves.modify fun e => State.based_rollback e.savepoint e.world.state

theorem based_addBalance (a : Address) (amount : U256) :
    Moves Based (addBalance M a amount : Action H Unit) :=
  Moves.bind Moves.get fun _ => Moves.bind (based_note _) fun _ =>
    based_onState fun pick => State.based_addBalance pick a amount

theorem based_subBalance (a : Address) (value : U256) :
    Moves Based (subBalance M a value : Action H Unit) :=
  Moves.bind Moves.get fun _ => Moves.bind (based_note _) fun _ =>
    based_onState fun pick => State.based_subBalance pick a value

theorem based_transferBalance (source target : Address) (value : U256) :
    Moves Based (transferBalance M source target value : Action H Unit) :=
  Moves.bind (based_note _) fun _ => Moves.bind (based_subBalance _ _) fun _ => based_addBalance _ _

omit [DecidableEq H] in
theorem based_incSenderNonce (sender : Address) :
    Moves Based (incSenderNonce M sender : Action H Unit) :=
  Moves.runIf (based_onState fun pick => State.based_incNonce pick sender)

theorem based_prepareCall (p : CallParameters) (gasPrice : U256) (origin : Address) :
    Moves Based (prepareCall M p gasPrice origin : Action H Bool) := by
  refine Moves.ite (Moves.ite ?_ ?_) (Moves.bind ?_ fun _ => Moves.pure _)
  · refine Moves.bind (based_modify fun _ => rfl) fun _ => ?_
    exact Moves.bind (Moves.runIf (based_addBalance _ _)) fun _ => Moves.pure _
  · refine Moves.bind (based_modify fun _ => rfl) fun _ => ?_
    exact Moves.bind (Moves.runIf (based_modify fun _ => rfl)) fun _ => Moves.pure _
  · refine Moves.bind (based_modify fun _ => rfl) fun _ => ?_
    refine Moves.bind (based_onState fun pick => State.based_addressHasCode pick _) fun _ => ?_
    refine Moves.runIf (Moves.bind (based_onState fun pick => State.based_code pick _) fun _ => ?_)
    exact based_modify fun _ => rfl

theorem based_call (p : CallParameters) (gasPrice : U256) (origin : Address) :
    Moves Based (call M p gasPrice origin : Action H Bool) := by
  refine Moves.bind Moves.get fun _ => ?_
  refine Moves.bind (Moves.runIf (based_incSenderNonce _)) fun _ => ?_
  refine Moves.bind (based_modify fun _ => rfl) fun _ => ?_
  refine Moves.bind (based_prepareCall _ _ _) fun _ => Moves.ite (Moves.pure _) ?_
  refine Moves.bind (based_transferBalance _ _ _) fun _ => ?_
  exact Moves.bind Moves.get fun _ => Moves.pure _

theorem based_executeCreate (sender : Address) (endowment gasPrice gas : U256) (init : Bytes)
    (origin : Address) :
    Moves Based (executeCreate M sender endowment gasPrice gas init origin : Action H Bool) := by
  refine Moves.bind (based_incSenderNonce _) fun _ => ?_
  refine Moves.bind (based_modify fun _ => rfl) fun _ => Moves.bind Moves.get fun _ => ?_
  refine Moves.bind (based_onState fun pick => State.based_addressHasCode pick _) fun _ => ?_
  refine Moves.bind (based_onState fun pick => State.based_getNonce pick _) fun _ => ?_
  refine Moves.ite ?_ ?_
  · refine Moves.bind (based_modify fun _ => rfl) fun _ => Moves.bind based_revert fun _ => ?_
    exact Moves.bind (based_modify fun _ => rfl) fun _ => Moves.pure _
  · refine Moves.bind (based_transferBalance _ _ _) fun _ => ?_
    refine Moves.bind (based_onState fun _ => State.based_requireAccountStartNonce) fun _ => ?_
    refine Moves.bind (based_onState fun pick => State.based_setNonce pick _ _) fun _ => ?_
    exact Moves.bind (Moves.runIf (based_modify fun _ => rfl)) fun _ => Moves.pure _

theorem based_createOpcode (sender : Address) (endowment gasPrice gas : U256) (init : Bytes)
    (origin : Address) :
    Moves Based (createOpcode M sender endowment gasPrice gas init origin : Action H Bool) := by
  refine Moves.bind (based_onState fun pick => State.based_getNonce pick _) fun _ => ?_
  refine Moves.bind (based_modify fun _ => rfl) fun _ => ?_
  exact Moves.bind (based_note _) fun _ => based_executeCreate _ _ _ _ _ _

theorem based_create2Opcode (sender : Address) (endowment gasPrice gas : U256) (init : Bytes)
    (origin : Address) (salt : U256) :
    Moves Based (create2Opcode M sender endowment gasPrice gas init origin salt : Action H Bool) := by
  refine Moves.bind (based_modify fun _ => rfl) fun _ => ?_
  exact Moves.bind (based_note _) fun _ => based_executeCreate _ _ _ _ _ _

theorem based_execute (t : TransactionBase) : Moves Based (execute M t : Action H Bool) := by
  refine Moves.bind (moves_liftExcept _) fun _ => ?_
  refine Moves.bind (Moves.bind Moves.get fun _ => based_subBalance _ _) fun _ => ?_
  exact Moves.bind Moves.get fun _ => Moves.ite (based_createOpcode _ _ _ _ _ _) (based_call _ _ _)

omit [DecidableEq H] in
theorem based_caught (x : VMException) : Moves Based (caught x : Action H Unit) := by
  cases x with
  | revertInstruction output =>
      exact Moves.bind based_revert fun _ => based_modify fun _ => rfl
  | overflowError => exact Moves.throw _
  | _ => exact Moves.bind (based_modify fun _ => rfl) fun _ => based_revert

theorem based_finishCreation (a : Address) (out : Bytes) :
    Moves Based (finishCreation M a out : Action H Unit) := by
  have hdeposit : ∀ code, Moves Based (deposit M a code : Action H Unit) := fun code =>
    Moves.bind (based_modify fun _ => rfl) fun _ =>
      moves_orExit (based_onState fun pick => State.based_setCode pick a code)
  refine Moves.bind Moves.get fun _ => Moves.ite (based_caught _) (Moves.ite ?_ (Moves.ite ?_ ?_))
  · exact Moves.bind (based_modify fun _ => rfl) fun _ => hdeposit out
  · exact based_caught _
  · exact hdeposit []

theorem based_go (hexec : ∀ m, Moves Based (exec M N m)) : Moves Based (go M N : Action H Unit) := by
  refine Moves.bind Moves.get fun e => ?_
  cases e.ext with
  | none => exact Moves.pure _
  | some m =>
      refine Moves.bind ?_ fun _ => based_modify fun _ => rfl
      refine Moves.bind Moves.get fun e => ?_
      refine Moves.bind (Moves.runIf (moves_orExit (based_onState fun _ =>
        State.based_clearStorage _))) fun _ => ?_
      refine Moves.bind (hexec m) fun outcome => ?_
      cases outcome with
      | error x => exact based_caught x
      | ok out => exact Moves.ite (based_finishCreation _ _) (based_modify fun _ => rfl)

omit [DecidableEq H] [CodeHash H] in
theorem based_initializeWith (t : TransactionBase) :
    Moves Based (initializeWith M t : Action H Unit) := by
  refine Moves.bind (based_modify fun _ => rfl) fun _ => ?_
  refine Moves.bind (moves_liftExcept _) fun _ => Moves.runIf ?_
  refine Moves.bind (moves_liftExcept _) fun _ => ?_
  refine Moves.bind (based_onState fun pick => State.based_getNonce pick _) fun _ => ?_
  refine Moves.bind (Moves.throwIf _ _) fun _ => ?_
  refine Moves.bind (based_onState fun pick => State.based_balance pick _) fun _ => ?_
  exact Moves.bind (Moves.throwIf _ _) fun _ => based_modify fun _ => rfl

omit [DecidableEq H] [CodeHash H] in
theorem based_gasUsed : Moves Based (gasUsed : Action H U256) :=
  Moves.bind Moves.get fun _ => Moves.bind (Moves.throwIf _ _) fun _ => Moves.pure _

omit [DecidableEq H] [CodeHash H] in
theorem based_refund : Moves Based (refund M : Action H Unit) := by
  refine Moves.bind (based_modify fun e => ?_) fun _ => ?_
  · split <;> rfl
  · exact Moves.bind (based_modify fun _ => rfl) fun _ => based_modify fun _ => rfl

theorem based_finalize : Moves Based (finalize M : Action H Bool) := by
  have hpay : Moves Based (pay M : Action H Unit) := by
    refine Moves.bind Moves.get fun e => ?_
    cases e.t with
    | none => exact Moves.pure _
    | some t =>
        refine Moves.bind (Moves.bind (moves_liftExcept _) fun _ => ?_) fun _ => ?_
        · exact Moves.bind Moves.get fun _ => based_addBalance _ _
        · exact Moves.bind Moves.get fun _ => based_addBalance _ _
  have hkill : Moves Based (killSuicides M : Action H Unit) := by
    refine Moves.bind Moves.get fun e => Moves.bind (Moves.runIf ?_) fun _ => ?_
    · exact Moves.forM fun a => based_onState fun pick => State.based_kill pick a
    · exact based_modify fun _ => rfl
  have hcollect : Moves Based (collect : Action H Unit) := by
    refine Moves.bind Moves.get fun e => Moves.runIf (Moves.bind based_gasUsed fun _ => ?_)
    exact based_modify fun _ => rfl
  refine Moves.bind based_refund fun _ => Moves.bind hpay fun _ => Moves.bind hkill fun _ => ?_
  exact Moves.bind hcollect fun _ => Moves.bind Moves.get fun _ => Moves.pure _

theorem based_executeTransaction (hexec : ∀ m, Moves Based (exec M N m)) (t : TransactionBase) :
    Moves Based (executeTransaction M N t : Action H Bool) := by
  refine Moves.bind (based_initializeWith t) fun _ => Moves.bind ?_ fun _ => based_finalize
  exact Moves.bind (based_execute t) fun _ => Moves.runIf (based_go hexec)

/-- A transaction that is to be reverted. -/
theorem based_transact (hexec : ∀ m, Moves Based (exec M N m)) (t : TransactionBase) :
    Moves Based (transact M N t .reverted) := by
  refine Moves.bind (based_executeTransaction hexec t) fun _ => ?_
  refine Moves.bind (Moves.modify fun e => State.based_cache e.world.state _ _ _ _) fun _ => ?_
  exact Moves.bind based_gasUsed fun _ => Moves.bind Moves.get fun _ => Moves.pure _

end Executive

/-! ## What the parts of a transaction throw -/

namespace Executive

variable {H : Type} {M : Setting} {N : Nested H} {P : Failure → Prop}
  {e e' : Executive H} {a : Address} {value : U256} {t : TransactionBase}

theorem throws_onState {α : Type} {m : State.Pick → State.Action H α}
    (h : ∀ pick, Throws (fun x => P (ofStateException x)) (m pick) e.world.state) :
    Throws P (onState M m) e := by
  intro x e' hx
  unfold onState World.act outcome at hx
  cases hm : m (M.pick e.world.draws) e.world.state with
  | ok a s =>
      rw [hm] at hx
      cases hx
  | error y s =>
      rw [hm] at hx
      cases hx
      exact h _ y s hm

/-- The state of an executive is one in which accounts can be created. -/
theorem numbered_of {α : Type} {m : Action H α} {r : α} (h : m e = .ok r e') (hm : Moves Based m)
    (he : e.world.state.Numbered) : e'.world.state.Numbered :=
  he.of_based (hm.ends h)

variable [DecidableEq H] [CodeHash H]

theorem throws_addBalance (a : Address) (amount : U256) (he : e.world.state.Numbered) :
    Throws P (addBalance M a amount) e :=
  Throws.get_bind (Throws.modify_bind (throws_onState fun pick =>
    State.throws_addBalance pick a amount he))

theorem throws_subBalance (he : e.world.state.Balanced) (hvalue : value ≤ e.world.state.balanceAt a) :
    Throws P (subBalance M a value) e :=
  Throws.get_bind (Throws.modify_bind (throws_onState fun pick =>
    State.throws_subBalance pick he hvalue))

theorem throws_transferBalance (target : Address) (he : e.world.state.Funded a value) :
    Throws P (transferBalance M a target value) e := by
  refine Throws.modify_bind (Throws.bind ?_ fun _ e' h => ?_)
  · exact throws_subBalance he.kept.balanced he.enough
  · exact throws_addBalance _ _ (numbered_of h (based_subBalance a value) he.numbered)

omit [DecidableEq H] in
theorem throws_incSenderNonce (sender : Address) (he : e.world.state.Numbered) :
    Throws P (incSenderNonce M sender) e :=
  Throws.runIf fun _ => throws_onState fun pick => State.throws_incNonce pick sender he

theorem funded_incSenderNonce {u : Unit} (h : incSenderNonce M a e = .ok u e')
    (he : e.world.state.Funded a value) (halive : e.world.state.NotDead a) :
    e'.world.state.Funded a value := by
  rcases runIf_eq_ok.mp h with ⟨-, h⟩ | ⟨-, rfl⟩
  · obtain ⟨s, hs, rfl⟩ := onState_ok h
    exact he.incNonce halive hs
  · exact he

/-- An operation that only reads. -/
theorem funded_onState {α : Type} {m : State.Pick → State.Action H α} {r : α}
    (h : onState M m e = .ok r e') (halike : ∀ pick, Moves State.Alike (m pick))
    (hbased : ∀ pick, Moves State.Based (m pick)) (he : e.world.state.Funded a value) :
    e'.world.state.Funded a value := by
  obtain ⟨s, hs, rfl⟩ := onState_ok h
  exact he.alike ((halike _).ends hs) ((hbased _).ends hs)

theorem throws_prepareCall {p : CallParameters} {gasPrice : U256} {origin : Address}
    (he : e.world.state.Funded a value) : Throws P (prepareCall M p gasPrice origin) e := by
  refine Throws.ite (fun _ => Throws.ite (fun _ => ?_) fun _ => ?_) fun _ => ?_
  · refine Throws.modify_bind (Throws.bind (Throws.runIf fun _ => ?_) fun _ _ _ => Throws.pure _)
    exact throws_addBalance _ _ he.numbered
  · refine Throws.modify_bind (Throws.bind (Throws.runIf fun _ => ?_) fun _ _ _ => Throws.pure _)
    exact Throws.modify _
  · refine Throws.bind (Throws.modify_bind (Throws.bind ?_ fun _ e' h => ?_)) fun _ _ _ =>
      Throws.pure _
    · exact throws_onState fun pick => State.throws_account (Throws.pure _)
    · have he' := funded_onState h (fun pick => State.alike_addressHasCode pick _)
        (fun pick => State.based_addressHasCode pick _) he
      refine Throws.runIf fun _ => Throws.bind ?_ fun _ _ _ => Throws.modify _
      exact throws_onState fun pick => Throws.of_outcome (he'.kept.outcome_code pick _)

/-- The part of `call` before the transfer only reads, unless it ends the call. -/
theorem funded_prepareCall {p : CallParameters} {gasPrice : U256} {origin : Address}
    (h : prepareCall M p gasPrice origin e = .ok false e') (he : e.world.state.Funded a value) :
    e'.world.state.Funded a value := by
  rw [prepareCall] at h
  split at h
  · rw [callPrecompiled] at h
    dsimp only at h
    split at h
    · obtain ⟨_, e₁, -, h⟩ := bind_eq_ok.mp h
      obtain ⟨_, e₂, -, h⟩ := bind_eq_ok.mp h
      cases h
    · obtain ⟨_, e₁, hset, h⟩ := bind_eq_ok.mp h
      obtain ⟨_, e₂, hfail, h⟩ := bind_eq_ok.mp h
      rw [(pure_eq_ok.mp h).2]
      rcases runIf_eq_ok.mp hfail with ⟨-, hfail⟩ | ⟨-, hfail⟩
      · rw [modify_eq_ok.mp hfail, modify_eq_ok.mp hset]
        exact he
      · rw [hfail, modify_eq_ok.mp hset]
        exact he
  · obtain ⟨_, e₁, hcontract, h⟩ := bind_eq_ok.mp h
    rw [(pure_eq_ok.mp h).2]
    rw [callContract, modify_bind] at hcontract
    obtain ⟨hasCode, e₂, hread, hcontract⟩ := bind_eq_ok.mp hcontract
    have he₂ : e₂.world.state.Funded a value := funded_onState hread
      (fun pick => State.alike_addressHasCode pick _) (fun pick => State.based_addressHasCode pick _)
      he
    rcases runIf_eq_ok.mp hcontract with ⟨-, hcode⟩ | ⟨-, rfl⟩
    · obtain ⟨code, e₃, hcode, hset⟩ := bind_eq_ok.mp hcode
      have he₃ := funded_onState hcode (fun pick => State.alike_code pick _)
        (fun pick => State.based_code pick _) he₂
      rw [modify_eq_ok.mp hset]
      exact he₃
    · exact he₂

theorem throws_call {p : CallParameters} {gasPrice : U256} {origin : Address}
    (he : e.world.state.Funded p.senderAddress p.valueTransfer)
    (halive : e.world.state.NotDead p.senderAddress) : Throws P (call M p gasPrice origin) e := by
  refine Throws.get_bind (Throws.bind ?_ fun _ e₁ h₁ => Throws.modify_bind ?_)
  · exact Throws.runIf fun _ => throws_incSenderNonce _ he.numbered
  · have he₁ : e₁.world.state.Funded p.senderAddress p.valueTransfer := by
      rcases runIf_eq_ok.mp h₁ with ⟨-, h₁⟩ | ⟨-, rfl⟩
      · exact funded_incSenderNonce h₁ he halive
      · exact he
    refine Throws.bind (throws_prepareCall (by exact he₁)) fun failed e₂ h₂ => ?_
    refine Throws.ite (fun _ => Throws.pure _) fun hfailed => ?_
    rw [Bool.not_eq_true] at hfailed
    subst hfailed
    refine Throws.bind ?_ fun _ _ _ => Throws.get_bind (Throws.pure _)
    exact throws_transferBalance _ (funded_prepareCall h₂ he₁)

theorem throws_createOpcode {gasPrice gas : U256} {init : Bytes} {origin : Address}
    (he : e.world.state.Funded a value) (halive : e.world.state.NotDead a) :
    Throws P (createOpcode M a value gasPrice gas init origin) e := by
  refine Throws.bind (throws_onState fun pick => State.throws_account ?_) fun nonce e₁ h₁ => ?_
  · exact Throws.get_bind (Throws.pure _)
  · have he₁ := funded_onState h₁ (fun pick => State.alike_getNonce pick _)
      (fun pick => State.based_getNonce pick _) he
    have halive₁ : e₁.world.state.NotDead a := by
      obtain ⟨s, hs, rfl⟩ := onState_ok h₁
      exact ((State.alike_getNonce _ _).ends hs he.kept).2.1 a halive
    refine Throws.modify_bind (Throws.modify_bind (Throws.bind ?_ fun _ e₂ h₂ => ?_))
    · exact throws_incSenderNonce _ he₁.numbered
    have he₂ : e₂.world.state.Funded a value := funded_incSenderNonce h₂ he₁ halive₁
    refine Throws.modify_bind (Throws.get_bind (Throws.bind ?_ fun hasCode e₃ h₃ => ?_))
    · exact throws_onState fun pick => State.throws_account (Throws.pure _)
    have he₃ : e₃.world.state.Funded a value := funded_onState h₃
      (fun pick => State.alike_addressHasCode pick _) (fun pick => State.based_addressHasCode pick _)
      he₂
    refine Throws.bind (throws_onState fun pick => State.throws_account ?_) fun nonce e₄ h₄ => ?_
    · exact Throws.get_bind (Throws.pure _)
    have he₄ := funded_onState h₄ (fun pick => State.alike_getNonce pick _)
      (fun pick => State.based_getNonce pick _) he₃
    refine Throws.ite (fun _ => ?_) fun _ => ?_
    · exact Throws.modify_bind (Throws.modify_bind (Throws.modify_bind (Throws.pure _)))
    · refine Throws.bind (throws_transferBalance _ he₄) fun _ e₅ h₅ => ?_
      have he₅ := numbered_of h₅ (based_transferBalance _ _ _) he₄.numbered
      refine Throws.bind (throws_onState fun _ => State.throws_requireAccountStartNonce he₅) fun _ _ _ => ?_
      refine Throws.bind (throws_onState fun pick => State.throws_setNonce pick _ _) fun _ _ _ => ?_
      exact Throws.bind (Throws.runIf fun _ => Throws.modify _) fun _ _ _ => Throws.pure _

/-- The code of a frame throws nothing that does not end the process. -/
theorem throws_go : Throws (· = .exit) (go M N) e := by
  have hexit : ∀ {α : Type} {m : Action H α} {e : Executive H}, Throws (· = .exit) (orExit m) e := by
    intro α m e x e' h
    unfold orExit at h
    cases hm : m e with
    | ok a e'' =>
        rw [hm] at h
        cases h
    | error y e'' =>
        rw [hm] at h
        cases h
        rfl
  have hcaught : ∀ (x : VMException) {e : Executive H}, Throws (· = .exit) (caught x) e := by
    intro x e
    cases x with
    | overflowError => exact Throws.throw rfl
    | _ => exact Throws.bind (Throws.modify _) fun _ _ _ => Throws.modify _
  have hdeposit : ∀ (a : Address) (code : Bytes) {e : Executive H},
      Throws (· = .exit) (deposit M a code) e := fun _ _ _ => Throws.modify_bind hexit
  refine Throws.get_bind ?_
  cases e.ext with
  | none => exact Throws.pure _
  | some m =>
      refine Throws.bind (Throws.get_bind ?_) fun _ _ _ => Throws.modify _
      refine Throws.bind (Throws.runIf fun _ => hexit) fun _ e₁ _ => ?_
      refine Throws.bind (Throws.get_bind (Throws.modify_bind ?_)) fun outcome e₂ _ => ?_
      · exact Throws.bind (Throws.throwIf fun _ => rfl) fun _ _ _ => Throws.pure _
      · cases outcome with
        | error x => exact hcaught x
        | ok out =>
            refine Throws.ite (fun _ => Throws.get_bind ?_) fun _ => Throws.modify _
            refine Throws.ite (fun _ => hcaught _) fun _ => Throws.ite (fun _ => ?_) fun _ => ?_
            · exact Throws.modify_bind (hdeposit _ _)
            · exact Throws.ite (fun _ => hcaught _) fun _ => hdeposit _ _

theorem within_pay {g : U256} : Moves (Within (fun _ => True) g) (pay M : Action H Unit) := by
  refine Moves.bind Moves.get fun e => ?_
  cases e.t with
  | none => exact Moves.pure _
  | some t =>
      refine Moves.bind (Moves.bind (moves_liftExcept _) fun _ => ?_) fun _ => ?_
      · exact Moves.bind Moves.get fun _ => within_addBalance _ _
      · exact Moves.bind Moves.get fun _ => within_addBalance _ _

omit [DecidableEq H] in
theorem within_killSuicides {g : U256} :
    Moves (Within (fun _ => True) g) (killSuicides M : Action H Unit) := by
  refine Moves.bind Moves.get fun e => Moves.bind (Moves.runIf ?_) fun _ => ?_
  · exact Moves.forM fun _ => within_onState _
  · exact within_modify fun _ => ⟨rfl, rfl, rfl, id⟩

theorem throws_pay {sender : Address} (ht : e.t = some t) (hsender : t.sender = .ok sender)
    (he : e.world.state.Numbered) : Throws P (pay M) e := by
  have hlift : liftExcept t.sender e = .ok sender e := liftExcept_eq_ok.mpr ⟨hsender, rfl⟩
  refine Throws.get_bind ?_
  rw [ht]
  refine Throws.bind (Throws.bind (Throws.of_ok hlift) fun _ e₁ h₁ => ?_) fun _ e₂ h₂ => ?_
  · cases hlift.symm.trans h₁
    exact Throws.get_bind (throws_addBalance _ _ he)
  · refine Throws.get_bind (throws_addBalance _ _ (numbered_of h₂ ?_ he))
    exact Moves.bind (moves_liftExcept _) fun _ => Moves.bind Moves.get fun _ => based_addBalance _ _

omit [DecidableEq H] [CodeHash H] in
theorem throws_gasUsed (ht : e.t = some t) (hgas : e.gas ≤ t.gas) : Throws P gasUsed e := by
  refine Throws.get_bind (Throws.bind (Throws.throwIf fun hover => ?_) fun _ _ _ => Throws.pure _)
  rw [ht] at hover
  exact absurd hgas (BitVec.not_le.mpr hover)

/-- `finalize` throws nothing if no more gas is left than the transaction had. -/
theorem throws_finalize {sender : Address} (ht : e.t = some t) (hsender : t.sender = .ok sender)
    (hgas : e.gas ≤ t.gas) (he : e.world.state.Numbered) : Throws P (finalize M) e := by
  refine Throws.bind ?_ fun _ e₁ h₁ => ?_
  · exact Throws.modify_bind (Throws.modify_bind (Throws.modify _))
  have hrefunded := refund_ok ht hgas h₁
  refine Throws.bind ?_ fun _ e₂ h₂ => ?_
  · exact throws_pay hrefunded.transaction hsender (numbered_of h₁ based_refund he)
  refine Throws.bind (Throws.get_bind (Throws.bind (Throws.runIf fun _ => ?_) fun _ _ _ => ?_))
    fun _ e₃ h₃ => ?_
  · refine Throws.forM (I := fun _ => True) trivial (fun a e' _ => ?_) fun _ _ _ _ _ _ => trivial
    exact throws_onState fun pick => State.throws_kill pick a
  · exact Throws.modify _
  -- the payments and the suicides leave the gas alone
  have hpaid := trans_of (Within (fun _ => True) t.gas) (within_pay.ends h₂) (within_killSuicides.ends h₃)
  have hleft : e₃.gas ≤ t.gas := (hpaid.gas trivial).2 hrefunded.gas_le
  refine Throws.bind (Throws.get_bind (Throws.runIf fun _ => ?_)) fun _ _ _ =>
    Throws.get_bind (Throws.pure _)
  exact Throws.bind (throws_gasUsed (hpaid.t.trans hrefunded.transaction) hleft) fun _ _ _ =>
    Throws.modify _

/-- The gas that `finalize` leaves. -/
theorem gas_of_finalize {status : Bool} (ht : e.t = some t) (hgas : e.gas ≤ t.gas)
    (h : finalize M e = .ok status e') : e'.t = some t ∧ e'.gas ≤ t.gas := by
  obtain ⟨_, e₁, h₁, h⟩ := bind_eq_ok.mp h
  obtain ⟨_, e₂, h₂, h⟩ := bind_eq_ok.mp h
  obtain ⟨_, e₃, h₃, h⟩ := bind_eq_ok.mp h
  obtain ⟨_, e₄, h₄, h⟩ := bind_eq_ok.mp h
  rw [(pure_eq_ok.mp h).2]
  have hrefunded := refund_ok ht hgas h₁
  have hcollect : Moves (Within (fun _ => True) t.gas) (collect : Action H Unit) :=
    Moves.bind Moves.get fun _ => Moves.runIf (Moves.bind within_gasUsed fun _ =>
      within_modify fun _ => ⟨rfl, Option.isSome_map, rfl, id⟩)
  have hrest := trans_of (Within (fun _ => True) t.gas) (within_pay.ends h₂)
    (trans_of (Within (fun _ => True) t.gas) (within_killSuicides.ends h₃) (hcollect.ends h₄))
  exact ⟨hrest.t.trans hrefunded.transaction, (hrest.gas trivial).2 hrefunded.gas_le⟩

end Executive

namespace Nested

open Executive

variable {H : Type} {M : Setting} {N : Nested H}

/-- The states stand on the same trie. -/
def OnBase (w w' : World H) : Prop := State.Based w.state w'.state

instance : Std.Refl (OnBase (H := H)) where
  refl w := refl_of State.Based w.state

instance : IsTrans (World H) (OnBase (H := H)) where
  trans _ _ _ hst htr := trans_of State.Based hst htr

/-- Frames inside a frame stand on its trie. -/
structure StaysOnBase (N : Nested H) : Prop where
  call : ∀ m p w, OnBase w (N.call m p w).1
  create : ∀ m p w, OnBase w (N.create m p w).1
  lookup : ∀ m number w, OnBase w (N.lookup m number w).1

theorem onBase_perform {m : State.Pick → State.Action H Unit}
    (hm : ∀ pick, Moves State.Based (m pick)) (w : World H) : OnBase w (w.perform M m) := by
  have hstate := hm (M.pick w.draws) w.state
  unfold World.perform World.act
  cases outcome (m (M.pick w.draws)) w.state with
  | ok u => exact hstate
  | error x => exact hstate

variable [DecidableEq H] [CodeHash H]

theorem based_exec (hvm : M.vm.Confined) (hN : StaysOnBase N) (m : Message) :
    Moves Executive.Based (exec M N m) := by
  intro e
  have hhost : (M.context N m).host.Keeps OnBase :=
    { setStore := fun w key value =>
        onBase_perform (fun pick => State.based_setStorage pick _ _ _) (w.note _)
      create := fun w p => hN.create m p w
      call := fun w p => hN.call m p w
      log := fun w topics data => refl_of State.Based w.state
      blockHash := blockHash_cases fun _ number w => hN.lookup m number w
      addRefunds := fun w gas => refl_of State.Based w.state }
  have hworld := hvm (M.context N m) OnBase hhost (fun w dest => ?_) e.gas e.world
  · rw [after_exec]
    exact hworld
  · have hfirst := onBase_perform (M := M) (fun pick => State.based_addBalance pick dest
      ((w.note (.suicide m.myAddress)).state.balanceAt m.myAddress)) (w.note (.suicide m.myAddress))
    have hsecond := onBase_perform (M := M) (fun pick => State.based_setBalance pick m.myAddress 0)
      ((w.note (.suicide m.myAddress)).perform M fun pick => State.addBalance pick dest
        ((w.note (.suicide m.myAddress)).state.balanceAt m.myAddress))
    exact trans_of OnBase hfirst hsecond

omit [DecidableEq H] [CodeHash H] in
theorem onBase_leave {w : World H} {m : Executive.Action H Unit} {e : Executive H}
    (hm : Moves Executive.Based m) (he : e.world.state = w.state) : OnBase w (leave w (m e)) := by
  have hm := hm e
  rw [Executive.Based, he] at hm
  unfold after at hm
  unfold leave
  cases hme : m e with
  | ok a e' =>
      rw [hme] at hm
      exact hm
  | error x e' =>
      rw [hme] at hm
      exact hm

theorem onBase_executeOn (hexec : ∀ m, Moves Executive.Based (exec M N m)) (t : TransactionBase)
    (w : World H) : OnBase w (after (executeOn M N t .reverted) w) := by
  have hm := based_transact hexec t { world := { w with sub := {} }, res := some {} }
  unfold after at hm ⊢
  unfold executeOn
  cases hr : transact M N t .reverted { world := { w with sub := {} }, res := some {} } with
  | ok r e =>
      rw [hr] at hm
      exact hm
  | error x e =>
      rw [hr] at hm
      exact hm

theorem onBase_lookupFrame (hexec : ∀ m, Moves Executive.Based (exec M N m)) (m : Message)
    (number : U256) (w : World H) : OnBase w (lookupFrame M N m number w).1 := by
  have hrun := onBase_executeOn hexec (lookupTransaction m number w) (w.note .lookup)
  show OnBase (w.note .lookup) _
  unfold after at hrun
  unfold lookupFrame
  cases hr : executeOn M N (lookupTransaction m number w) .reverted (w.note .lookup) with
  | ok r w' =>
      rw [hr] at hrun
      exact hrun
  | error x w' =>
      rw [hr] at hrun
      exact hrun

theorem staysOnBase_frames (hexec : ∀ m, Moves Executive.Based (exec M N m)) :
    StaysOnBase ⟨callFrame M N, createFrame M N, lookupFrame M N⟩ where
  call m p w := by
    refine onBase_leave (Moves.bind (based_call _ _ _) fun _ => Moves.runIf (based_go hexec)) rfl
  create m p w := by
    refine onBase_leave (Moves.bind (Moves.ite ?_ ?_) fun _ => Moves.runIf (based_go hexec)) rfl
    · exact based_createOpcode _ _ _ _ _ _
    · exact based_create2Opcode _ _ _ _ _ _ _
  lookup := onBase_lookupFrame hexec

theorem staysOnBase_upTo (hvm : M.vm.Confined) (n : Nat) : StaysOnBase (upTo M n : Nested H) := by
  induction n with
  | zero =>
      exact ⟨fun _ _ w => refl_of State.Based w.state, fun _ _ w => refl_of State.Based w.state,
        fun _ _ w => refl_of State.Based w.state⟩
  | succ n ih => exact staysOnBase_frames (based_exec hvm ih)

end Nested

namespace Executive

/-! ## What a transaction throws -/

variable {H : Type} [DecidableEq H] [CodeHash H] {M : Setting} {N : Nested H} {P : Failure → Prop}
  {e e' : Executive H} {t : TransactionBase} {s : State H} {sender : Address}

/-- The states are read alike. -/
def Alike (e e' : Executive H) : Prop := State.Alike e.world.state e'.world.state

instance : Std.Refl (Alike (H := H)) where
  refl e := refl_of State.Alike e.world.state

instance : IsTrans (Executive H) (Alike (H := H)) where
  trans _ _ _ hst htr := trans_of State.Alike hst htr

theorem alike_onState {α : Type} {m : State.Pick → State.Action H α}
    (hm : ∀ pick, Moves State.Alike (m pick)) : Moves Alike (onState M m) := by
  intro e
  have hstate := hm (M.pick e.world.draws) e.world.state
  unfold after onState World.act
  cases outcome (m (M.pick e.world.draws)) e.world.state with
  | ok a => exact hstate
  | error x => exact hstate

/-- Checking a transaction is not visible. -/
theorem alike_initializeWith (t : TransactionBase) :
    Moves Alike (initializeWith M t : Action H Unit) := by
  refine Moves.bind (Moves.modify fun e => refl_of State.Alike e.world.state) fun _ => ?_
  refine Moves.bind (moves_liftExcept _) fun _ => Moves.runIf ?_
  refine Moves.bind (moves_liftExcept _) fun _ => ?_
  refine Moves.bind (alike_onState fun pick => State.alike_getNonce pick _) fun _ => ?_
  refine Moves.bind (Moves.throwIf _ _) fun _ => ?_
  refine Moves.bind (alike_onState fun pick => State.alike_balance pick _) fun _ => ?_
  refine Moves.bind (Moves.throwIf _ _) fun _ => ?_
  exact Moves.modify fun e => refl_of State.Alike e.world.state

omit [DecidableEq H] [CodeHash H] in
/-- A transaction that is checked has a sender. -/
theorem exists_sender {u : Unit} (h : initializeWith M t e = .ok u e') :
    ∃ sender, t.sender = .ok sender := by
  rw [initializeWith, modify_bind] at h
  obtain ⟨_, e₁, -, h⟩ := bind_eq_ok.mp h
  rcases runIf_eq_ok.mp h with ⟨-, h⟩ | ⟨hzero, -⟩
  · obtain ⟨sender, e₂, hlift, -⟩ := bind_eq_ok.mp h
    exact ⟨sender, (liftExcept_eq_ok.mp hlift).1⟩
  · rw [Bool.not_eq_false] at hzero
    rw [TransactionBase.sender, if_pos hzero]
    split
    · exact ⟨_, rfl⟩
    · exact ⟨_, rfl⟩

/-- When the gas has been bought, the value is still there. -/
theorem funded_buyGas {value : U256} {u : Unit} (h : buyGas M sender e = .ok u e')
    (hkept : e.world.state.Kept) (hnumbered : e.world.state.Numbered)
    (halive : e.world.state.NotDead sender)
    (henough : value.toNat + e.gasCost.toNat ≤ (e.world.state.balanceAt sender).toNat) :
    e'.world.state.Funded sender value ∧ e'.world.state.NotDead sender := by
  rw [buyGas, get_bind, subBalance, get_bind, note, modify_bind] at h
  obtain ⟨s, hs, rfl⟩ := onState_ok h
  replace hs : State.subBalance (M.pick e.world.draws) sender e.gasCost e.world.state = .ok u s := hs
  have hkept' := hkept.subBalance (M.pick e.world.draws) e.gasCost halive
  rw [after_of_ok hs] at hkept'
  refine ⟨⟨hkept', hnumbered.of_based ((State.based_subBalance _ _ _).ends hs), ?_⟩,
    halive.of_subBalance hkept.toCoherent hs⟩
  rcases State.subBalance_cases (M.pick e.world.draws) sender e.gasCost hkept.balanced with
    ⟨hle, r, hr, hsets⟩ | ⟨-, r, hr⟩
  · cases hr.symm.trans hs
    show value ≤ s.balanceAt sender
    rw [hsets.2 hkept.balanced, Function.update_self, BitVec.le_def, BitVec.toNat_sub_of_le hle]
    omega
  · cases hr.symm.trans hs

/-- What is executed after the checks throws nothing that does not end the process. -/
theorem throws_executeAndGo (hkept : e.world.state.Kept) (hnumbered : e.world.state.Numbered)
    (halive : e.world.state.NotDead sender) (hsender : t.sender = .ok sender)
    (henough : t.value.toNat + e.gasCost.toNat ≤ (e.world.state.balanceAt sender).toNat) :
    Throws (· = .exit) (executeAndGo M N t) e := by
  have hlift : liftExcept t.sender e = .ok sender e := liftExcept_eq_ok.mpr ⟨hsender, rfl⟩
  refine Throws.bind (Throws.bind (Throws.of_ok hlift) fun _ e₁ h₁ => ?_) fun done e₃ _ => ?_
  · cases hlift.symm.trans h₁
    refine Throws.bind (Throws.get_bind (throws_subBalance hkept.balanced ?_)) fun _ e₂ h₂ => ?_
    · rw [BitVec.le_def]
      omega
    · obtain ⟨hfunded, halive'⟩ := funded_buyGas h₂ hkept hnumbered halive henough
      refine Throws.get_bind (Throws.ite (fun _ => ?_) fun _ => ?_)
      · exact throws_createOpcode hfunded halive'
      · exact throws_call hfunded halive'
  · exact Throws.runIf fun _ => throws_go

/-- A state with nothing to commit, where nothing is missing. -/
structure Committed (s : State H) : Prop where
  kept : s.Kept
  numbered : s.Numbered
  clean : ∀ a, ¬s.IsDirty a

/-- The frame of the transaction leaves at most the gas that the transaction had. -/
def StaysWithin (M : Setting) (N : Nested H) (t : TransactionBase) (s : State H) : Prop :=
  ∀ start ended, initializeWith M t (fresh s) = .ok () start →
    executeAndGo M N t start = .ok () ended → ended.gas ≤ t.gas

/-- In all frames of the transaction, the calls are covered by the gas of their callers. -/
def CallsCovered (M : Setting) (N : Nested H) (t : TransactionBase) (s : State H) : Prop :=
  ∀ start ended, initializeWith M t (fresh s) = .ok () start →
    executeAndGo M N t start = .ok () ended → ended.world.covered = true

/-- A frame that stays within its gas leaves at most the gas of the transaction. -/
theorem gas_of_executeAndGo {ok : Bool → Prop} {u : Unit}
    (hexec : ∀ g m, Moves (Within ok g) (exec M N m)) (hgas : e.gas ≤ t.gas)
    (hbase : e.baseGasRequired ≤ t.gas.toNat) (h : executeAndGo M N t e = .ok u e')
    (hok : ok e'.world.covered) : e'.gas ≤ t.gas := by
  obtain ⟨done, entered, hexecute, hgo⟩ := bind_eq_ok.mp h
  obtain ⟨sender, same, hlift, hrest⟩ := bind_eq_ok.mp hexecute
  obtain ⟨-, rfl⟩ := liftExcept_eq_ok.mp hlift
  obtain ⟨_, bought, hbuy, henter⟩ := bind_eq_ok.mp hrest
  have hbought : bought.gas = same.gas ∧ bought.baseGasRequired = same.baseGasRequired := by
    rw [buyGas, get_bind, subBalance, get_bind, note, modify_bind] at hbuy
    obtain ⟨s, -, hs⟩ := onState_ok hbuy
    rw [hs]
    exact ⟨rfl, rfl⟩
  have hle : t.gas - BitVec.ofNat 256 bought.baseGasRequired ≤ t.gas := by
    rw [hbought.2, BitVec.le_def, BitVec.toNat_sub_of_le]
    · exact Nat.sub_le _ _
    · rw [BitVec.le_def, BitVec.toNat_ofNat, Nat.mod_eq_of_lt (hbase.trans_lt t.gas.isLt)]
      exact hbase
  have henters : Within ok t.gas bought (after (enter M t sender) bought) :=
    within_enter sender bought hle
  rw [after_of_ok henter] at henters
  have hgoes : Within ok t.gas entered e' := (Moves.runIf (within_go (hexec t.gas))).ends hgo
  obtain ⟨hentered, hbound⟩ := hgoes.gas hok
  refine hbound ((henters.gas hentered).2 ?_)
  rw [hbought.1]
  exact hgas

/-- What is covered does not make gas. -/
theorem staysWithin_of_covered {fuel : Nat} (hvm : M.vm = legacyVM fuel) {n : Nat}
    (h : CallsCovered M (Nested.upTo M n) t s) : StaysWithin M (Nested.upTo M n) t s := by
  intro start ended hinit hrun
  have hinitialized := initialized rfl hinit
  have hexec : ∀ g m, Moves (Within (· = true) g) (exec M (Nested.upTo M n) m : Action H _) :=
    Nested.within_exec_covered hvm (Nested.returns_upTo_covered hvm n)
  refine gas_of_executeAndGo hexec ?_ ?_ hrun (h start ended hinit hrun)
  · rw [hinitialized.gas]
    exact Nat.zero_le _
  · rw [hinitialized.baseGasRequired]
    exact hinitialized.base_le

/-- The transaction stays that of the executive. -/
theorem transaction_of_executeAndGo {u : Unit} (h : executeAndGo M N t e = .ok u e') :
    e'.t = e.t := by
  have hwithin : Within (fun _ => False) invalid256 e e' :=
    (within_executeAndGo (fun m e => ?_) t).ends h
  · exact hwithin.t
  · rw [Nested.after_exec]
    exact ⟨rfl, rfl, False.elim⟩

/-- The gas of a transaction that has been executed can be asked for. -/
theorem throws_gasUsed_after {status : Bool} (hgas : StaysWithin M N t s)
    (h : executeTransaction M N t (fresh s) = .ok status e') : Throws P gasUsed e' := by
  obtain ⟨_, start, hinit, h⟩ := bind_eq_ok.mp h
  obtain ⟨_, ended, hrun, hfinal⟩ := bind_eq_ok.mp h
  have ht : ended.t = some t :=
    (transaction_of_executeAndGo hrun).trans (initialized rfl hinit).transaction
  obtain ⟨ht', hleft⟩ := gas_of_finalize ht (hgas start ended hinit hrun) hfinal
  exact throws_gasUsed ht' hleft

/-- **A transaction that throws leaves what is read alone**, unless the process ends or its frame
leaves more gas than it had. -/
theorem alike_of_throws (hvm : M.vm.Confined) (n : Nat) (hs : Committed s)
    (hgas : StaysWithin M (Nested.upTo M n) t s) {x : Failure} (hexit : x ≠ .exit)
    (h : executeTransaction M (Nested.upTo M n) t (fresh s) = .error x e') :
    State.Alike s e'.world.state := by
  have hchecked := alike_initializeWith (M := M) t (fresh s)
  rcases bind_eq_error.mp h with hrefused | ⟨_, start, hinit, h⟩
  · rw [after_of_error hrefused] at hchecked
    exact hchecked
  · rw [after_of_ok hinit] at hchecked
    obtain ⟨sender, hsender⟩ := exists_sender hinit
    obtain ⟨hkept, halive, hshown⟩ := hchecked hs.kept
    have hinitialized := initialized rfl hinit
    have hnumbered : start.world.state.Numbered :=
      numbered_of hinit (based_initializeWith t) hs.numbered
    have halive := halive sender (State.notDead_of_clean hs.kept.toCoherent (hs.clean sender))
    have henough := hinitialized.affordable hs.kept.balanced sender hsender
    rw [← hinitialized.gasCost] at henough
    have hthrows : Throws (· = .exit) (executeAndGo M (Nested.upTo M n) t) start := by
      refine throws_executeAndGo hkept hnumbered halive hsender ?_
      rw [(hshown sender).balance]
      exact henough
    refine absurd ?_ hexit
    rcases bind_eq_error.mp h with h | ⟨_, ended, hrun, h⟩
    · exact hthrows _ _ h
    · have hexec := Nested.based_exec hvm (Nested.staysOnBase_upTo (M := M) (H := H) hvm n)
      have hbased : Moves Based (executeAndGo M (Nested.upTo M n) t : Action H Unit) :=
        Moves.bind (based_execute t) fun _ => Moves.runIf (based_go hexec)
      have ht : ended.t = some t := (transaction_of_executeAndGo hrun).trans hinitialized.transaction
      exact throws_finalize (P := (· = .exit)) ht hsender (hgas start ended hinit hrun)
        (numbered_of hrun hbased hnumbered) _ _ h

end Executive

end CppSwc
