import CppSwc.State.State

/-!
# What operations leave alone

The trie, the codes in the database and the first nonce of accounts are changed by `commit`
and `setRoot` only.  All other operations work on the cache and the change log (`Based`),
whether they throw or not.
-/

namespace CppSwc.State

open Std Lib CodeHash

variable {H : Type} {s t : State H}

/-- `t` stands on the same trie as `s`. -/
structure Based (s t : State H) : Prop where
  trie : t.trie = s.trie
  codes : t.codes = s.codes
  accountStartNonce : t.accountStartNonce = s.accountStartNonce

instance : Std.Refl (Based (H := H)) where
  refl _ := ⟨rfl, rfl, rfl⟩

instance : IsTrans (State H) (Based (H := H)) where
  trans _ _ _ hst htr :=
    ⟨htr.trie.trans hst.trie, htr.codes.trans hst.codes,
      htr.accountStartNonce.trans hst.accountStartNonce⟩

/-- A change of the cache, the lists beside it and the change log. -/
theorem based_cache (s : State H) (cache : ExtTreeMap Address (Account H)) (entries : List Address)
    (missing : ExtTreeSet Address) (changeLog : List (Change H)) :
    Based s { s with
      cache := cache
      unchangedCacheEntries := entries
      nonExistingAccountsCache := missing
      changeLog := changeLog } :=
  ⟨rfl, rfl, rfl⟩

theorem based_clearCacheIfTooLarge (pick : Pick) (n : Nat) (s : State H) :
    Based s (clearCacheIfTooLarge pick n s) := by
  induction n generalizing s with
  | zero => exact refl_of Based s
  | succ n ih =>
      unfold clearCacheIfTooLarge
      split
      · exact trans_of Based (based_cache s _ _ _ _) (ih _)
      · exact refl_of Based s

theorem based_load (pick : Pick) (a : Address) (s : State H) : Based s (s.load pick a) := by
  unfold load
  split
  · exact refl_of Based s
  · split
    · exact based_cache s _ _ _ _
    · exact trans_of Based (based_clearCacheIfTooLarge pick _ s) (based_cache _ _ _ _ _)

theorem based_account (pick : Pick) (a : Address) : Moves Based (account pick a : Action H _) :=
  Moves.bind (Moves.modify (based_load pick a)) fun _ => Moves.bind Moves.get fun _ => Moves.pure _

/-! ## Reading -/

theorem based_addressInUse (pick : Pick) (a : Address) :
    Moves Based (addressInUse pick a : Action H Bool) :=
  Moves.bind (based_account pick a) fun _ => Moves.pure _

theorem based_addressHasCode [DecidableEq H] [CodeHash H] (pick : Pick) (a : Address) :
    Moves Based (addressHasCode pick a : Action H Bool) :=
  Moves.bind (based_account pick a) fun _ => Moves.pure _

theorem based_balance (pick : Pick) (a : Address) : Moves Based (balance pick a : Action H U256) :=
  Moves.bind (based_account pick a) fun _ => Moves.pure _

theorem based_getNonce (pick : Pick) (a : Address) :
    Moves Based (getNonce pick a : Action H U256) :=
  Moves.bind (based_account pick a) fun _ => Moves.bind Moves.get fun _ => Moves.pure _

theorem based_storage (pick : Pick) (a : Address) (key : U256) :
    Moves Based (storage pick a key : Action H U256) := by
  refine Moves.bind (based_account pick a) fun x => ?_
  cases x with
  | none => exact Moves.pure _
  | some x =>
      refine Moves.bind (Moves.modify fun s => ?_) fun _ => Moves.pure _
      split
      · exact refl_of Based s
      · exact based_cache s _ _ _ _

theorem based_code [DecidableEq H] [CodeHash H] (pick : Pick) (a : Address) : Moves Based (code pick a : Action H Bytes) := by
  refine Moves.bind (based_account pick a) fun x => ?_
  cases x with
  | none => exact Moves.pure _
  | some x =>
      refine Moves.bind Moves.get fun s => Moves.ite (Moves.pure _) (Moves.ite ?_ (Moves.pure _))
      refine Moves.bind (Moves.throwIf _ _) fun _ => Moves.bind (Moves.modify fun t => ?_) fun _ => ?_
      · exact based_cache t _ _ _ _
      · exact Moves.pure _

theorem based_requireAccountStartNonce : Moves Based (requireAccountStartNonce : Action H U256) :=
  Moves.bind Moves.get fun _ => Moves.bind (Moves.throwIf _ _) fun _ => Moves.pure _

/-! ## Writing -/

theorem based_createAccount (pick : Pick) (a : Address) (x : Account H) :
    Moves Based (createAccount pick a x) := by
  refine Moves.bind (based_addressInUse pick a) fun _ => Moves.bind (Moves.throwIf _ _) fun _ => ?_
  exact Moves.modify fun s => based_cache s _ _ _ _

variable [CodeHash H]

theorem based_writeNonce (pick : Pick) (a : Address) (new : Account H → U256)
    {first : Action H U256} (hfirst : Moves Based first) :
    Moves Based (writeNonce pick a new first) := by
  refine Moves.bind (based_account pick a) fun x => ?_
  cases x with
  | none => exact Moves.bind hfirst fun _ => based_createAccount pick a _
  | some x => exact Moves.modify fun s => based_cache s _ _ _ _

theorem based_incNonce (pick : Pick) (a : Address) : Moves Based (incNonce pick a : Action H Unit) :=
  based_writeNonce pick a _ (Moves.bind based_requireAccountStartNonce fun _ => Moves.pure _)

theorem based_setNonce (pick : Pick) (a : Address) (nonce : U256) :
    Moves Based (setNonce pick a nonce : Action H Unit) :=
  based_writeNonce pick a _ (Moves.pure nonce)

theorem based_addBalance [DecidableEq H] (pick : Pick) (a : Address) (amount : U256) :
    Moves Based (addBalance pick a amount : Action H Unit) := by
  refine Moves.bind (based_account pick a) fun x => ?_
  cases x with
  | none =>
      refine Moves.bind based_requireAccountStartNonce fun _ => ?_
      refine Moves.bind (based_createAccount pick a _) fun _ => Moves.modify fun s => ?_
      split
      · exact based_cache s _ _ _ _
      · exact refl_of Based s
  | some x =>
      refine Moves.modify fun s => ?_
      unfold raise
      dsimp only
      split <;> split <;> exact ⟨rfl, rfl, rfl⟩

theorem based_subBalance [DecidableEq H] (pick : Pick) (a : Address) (value : U256) :
    Moves Based (subBalance pick a value : Action H Unit) := by
  refine Moves.ite (Moves.pure _) (Moves.bind (based_account pick a) fun _ => ?_)
  exact Moves.bind (Moves.throwIf _ _) fun _ => based_addBalance pick a _

theorem based_setBalance [DecidableEq H] (pick : Pick) (a : Address) (value : U256) :
    Moves Based (setBalance pick a value : Action H Unit) :=
  Moves.bind (based_account pick a) fun _ => based_addBalance pick a _

theorem based_setStorage (pick : Pick) (a : Address) (key value : U256) :
    Moves Based (setStorage pick a key value : Action H Unit) :=
  Moves.bind (based_storage pick a key) fun _ => Moves.modify fun s => based_cache s _ _ _ _

theorem based_clearStorage (a : Address) : Moves Based (clearStorage a : Action H Unit) := by
  refine Moves.modify fun s => ?_
  dsimp only
  split
  · exact based_cache s _ _ _ _
  · exact ⟨rfl, rfl, rfl⟩

theorem based_setCode [DecidableEq H] (pick : Pick) (a : Address) (new : Bytes) :
    Moves Based (setCode pick a new : Action H Unit) :=
  Moves.bind (based_code pick a) fun _ => Moves.modify fun s => based_cache s _ _ _ _

theorem based_kill (pick : Pick) (a : Address) : Moves Based (kill pick a : Action H Unit) := by
  refine Moves.bind (based_account pick a) fun x => ?_
  cases x with
  | none => exact Moves.pure _
  | some x => exact Moves.modify fun s => based_cache s _ _ _ _

/-! ## Undoing -/

theorem based_undo (s : State H) (c : Change H) : Based s (s.undo c) := by
  cases c <;> exact ⟨rfl, rfl, rfl⟩

theorem based_rollback (savepoint : Nat) (s : State H) : Based s (s.rollback savepoint) := by
  unfold rollback
  generalize s.changeLog.take _ = l
  induction l generalizing s with
  | nil => exact refl_of Based s
  | cons c l ih => exact trans_of Based (based_undo s c) (ih _)

end CppSwc.State
