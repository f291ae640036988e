import CppSwc.Contract.Node
import CppSwc.Lib.Action
import CppSwc.Lib.Ledger

/-!
# Tokens of the node contract

What each function does when it succeeds, and from it what holds in every state of the
contract.  The ether of the contract covers the tokens and no address has more locked than
it has, whatever is called.  `totalSupply_` is the sum of the tokens only as long as what is
withdrawn is also attached, since `withdraw` takes `msg.value` from it.
-/

namespace CppSwc

open Lib

namespace SafeMath

theorem sub_eq_ok {a b c : U256} :
    sub a b = .ok c ↔ b ≤ a ∧ c = a - b := by
  unfold sub
  split
  · next h => simp [h, eq_comm]
  · next h => simp [h]

theorem add_eq_ok {a b c : U256} :
    add a b = .ok c ↔ a.toNat + b.toNat < 2 ^ 256 ∧ c = a + b := by
  have hle : a ≤ a + b ↔ a.toNat + b.toNat < 2 ^ 256 := by
    rw [BitVec.le_def, BitVec.toNat_add]
    have ha := a.isLt
    have hb := b.isLt
    omega
  unfold add
  split
  · next h => exact ⟨fun h' => ⟨hle.mp h, (Except.ok.inj h').symm⟩, fun h' => h'.2 ▸ rfl⟩
  · next h => exact ⟨fun h' => (by cases h'), fun h' => absurd (hle.mpr h'.1) h⟩

end SafeMath

namespace NodeContract

open Ledger

variable {s s' : NodeContract} {msg : Msg} {target : Address} {value : U256}

theorem require_eq_ok {p : Prop} [Decidable p] {u : Unit} : require p = .ok u ↔ p := by
  unfold require
  split
  · next h => simp [h]
  · next h => simp [h]

/-! ## What the functions do -/

/-- `onlyOwner` lets the call go on. -/
def Owned (s : NodeContract) (msg : Msg) : Prop := msg.sender = s.owner ∨ 0 = s.owner

theorem onlyOwner_eq_ok {u : Unit} : s.onlyOwner msg.sender = .ok u ↔ s.Owned msg := require_eq_ok

theorem transferOwnership_ok {newOwner : Address}
    (h : transferOwnership msg newOwner s = .ok s') : s' = { s with owner := newOwner } := by
  obtain ⟨u, -, h⟩ := except_bind_eq_ok.mp h
  cases h
  rfl

theorem transfer_ok (h : transfer msg target value s = .ok s') :
    (s.locked msg.sender).toNat + value.toNat ≤ (s.balances msg.sender).toNat ∧
      ((debit s.balances msg.sender value) target).toNat + value.toNat < 2 ^ 256 ∧
      s' = { s with balances := credit (debit s.balances msg.sender value) target value } := by
  obtain ⟨u, -, h⟩ := except_bind_eq_ok.mp h
  obtain ⟨u, -, h⟩ := except_bind_eq_ok.mp h
  obtain ⟨needed, hneeded, h⟩ := except_bind_eq_ok.mp h
  obtain ⟨u, henough, h⟩ := except_bind_eq_ok.mp h
  obtain ⟨left, hleft, h⟩ := except_bind_eq_ok.mp h
  obtain ⟨got, hgot, h⟩ := except_bind_eq_ok.mp h
  obtain ⟨hfits, rfl⟩ := SafeMath.add_eq_ok.mp hneeded
  obtain ⟨hle, rfl⟩ := SafeMath.sub_eq_ok.mp hleft
  obtain ⟨hfits', rfl⟩ := SafeMath.add_eq_ok.mp hgot
  rw [require_eq_ok, BitVec.le_def, BitVec.toNat_add, Nat.mod_eq_of_lt hfits] at henough
  cases h
  exact ⟨henough, hfits', rfl⟩

theorem lock_ok (h : lock msg target value s = .ok s') :
    s.Owned msg ∧ (s.locked target).toNat + value.toNat ≤ (s.balances target).toNat ∧
      s' = { s with locked := credit s.locked target value } := by
  obtain ⟨u, howner, h⟩ := except_bind_eq_ok.mp h
  obtain ⟨needed, hneeded, h⟩ := except_bind_eq_ok.mp h
  obtain ⟨u, henough, h⟩ := except_bind_eq_ok.mp h
  obtain ⟨hfits, rfl⟩ := SafeMath.add_eq_ok.mp hneeded
  rw [require_eq_ok, BitVec.le_def, BitVec.toNat_add, Nat.mod_eq_of_lt hfits] at henough
  cases h
  exact ⟨onlyOwner_eq_ok.mp howner, henough, rfl⟩

theorem unlock_eq_ok : unlock msg target value s = .ok s' ↔
    s.Owned msg ∧ value ≤ s.locked target ∧
      s' = { s with locked := debit s.locked target value } := by
  constructor
  · intro h
    obtain ⟨u, howner, h⟩ := except_bind_eq_ok.mp h
    obtain ⟨u, henough, h⟩ := except_bind_eq_ok.mp h
    obtain ⟨left, hleft, h⟩ := except_bind_eq_ok.mp h
    obtain ⟨-, rfl⟩ := SafeMath.sub_eq_ok.mp hleft
    cases h
    exact ⟨onlyOwner_eq_ok.mp howner, require_eq_ok.mp henough, rfl⟩
  · rintro ⟨howner, henough, rfl⟩
    refine except_bind_eq_ok.mpr ⟨(), onlyOwner_eq_ok.mpr howner, ?_⟩
    refine except_bind_eq_ok.mpr ⟨(), require_eq_ok.mpr henough, ?_⟩
    exact except_bind_eq_ok.mpr ⟨_, SafeMath.sub_eq_ok.mpr ⟨henough, rfl⟩, rfl⟩

theorem withdraw_ok (h : withdraw msg value s = .ok s') :
    value ≤ s.balances msg.sender ∧ s.locked msg.sender ≤ s.balances msg.sender - value ∧
      msg.value ≤ s.totalSupply_ ∧ msg.accepts = true ∧ value.toNat ≤ s.ether ∧
      s' = { s with
        totalSupply_ := s.totalSupply_ - msg.value
        balances := debit s.balances msg.sender value
        ether := s.ether - value.toNat } := by
  obtain ⟨left, hleft, h⟩ := except_bind_eq_ok.mp h
  obtain ⟨u, hlocked, h⟩ := except_bind_eq_ok.mp h
  obtain ⟨supply, hsupply, h⟩ := except_bind_eq_ok.mp h
  obtain ⟨hle, rfl⟩ := SafeMath.sub_eq_ok.mp hleft
  obtain ⟨hle', rfl⟩ := SafeMath.sub_eq_ok.mp hsupply
  rw [sendEther] at h
  split at h
  · next hsend =>
      cases h
      exact ⟨hle, require_eq_ok.mp hlocked, hle', hsend.1, hsend.2, rfl⟩
  · cases h

theorem recharge_ok (h : recharge msg s = .ok s') :
    s.totalSupply_.toNat + msg.value.toNat < 2 ^ 256 ∧
      (s.balances msg.sender).toNat + msg.value.toNat < 2 ^ 256 ∧
      s' = { s with
        totalSupply_ := s.totalSupply_ + msg.value
        balances := credit s.balances msg.sender msg.value } := by
  obtain ⟨supply, hsupply, h⟩ := except_bind_eq_ok.mp h
  obtain ⟨got, hgot, h⟩ := except_bind_eq_ok.mp h
  obtain ⟨hfits, rfl⟩ := SafeMath.add_eq_ok.mp hsupply
  obtain ⟨hfits', rfl⟩ := SafeMath.add_eq_ok.mp hgot
  cases h
  exact ⟨hfits, hfits', rfl⟩

theorem registerNode_ok {addr : Address} {id property : Bytes}
    (h : registerNode msg addr value id property s = .ok s') :
    id.length = 128 ∧ (s.m_nodedata id).created = false ∧
      (s.locked addr).toNat + value.toNat ≤ (s.balances addr).toNat ∧
      s' = { s with
        locked := credit s.locked addr value
        m_nodeids := s.m_nodeids ++ [id]
        m_nodedata := Function.update s.m_nodedata id ⟨property, addr, value, true⟩ } := by
  obtain ⟨u, -, h⟩ := except_bind_eq_ok.mp h
  obtain ⟨u, hlength, h⟩ := except_bind_eq_ok.mp h
  obtain ⟨u, hnew, h⟩ := except_bind_eq_ok.mp h
  obtain ⟨t, hlock, h⟩ := except_bind_eq_ok.mp h
  obtain ⟨-, henough, rfl⟩ := lock_ok hlock
  cases h
  exact ⟨require_eq_ok.mp hlength, require_eq_ok.mp hnew, henough, rfl⟩

theorem unregisterNode_eq_ok {id : Bytes} : unregisterNode msg id s = .ok s' ↔
    s.Owned msg ∧ (s.m_nodedata id).created = true ∧
      (s.m_nodedata id).value ≤ s.locked (s.m_nodedata id).addr ∧
      ∃ ids, removeId id s.m_nodeids = .ok ids ∧
        s' = { s with
          locked := debit s.locked (s.m_nodedata id).addr (s.m_nodedata id).value
          m_nodeids := ids
          m_nodedata := Function.update s.m_nodedata id
            { s.m_nodedata id with created := false } } := by
  constructor
  · intro h
    obtain ⟨u, -, h⟩ := except_bind_eq_ok.mp h
    obtain ⟨u, hcreated, h⟩ := except_bind_eq_ok.mp h
    obtain ⟨t, hunlock, h⟩ := except_bind_eq_ok.mp h
    obtain ⟨ids, hids, h⟩ := except_bind_eq_ok.mp h
    obtain ⟨howner, henough, rfl⟩ := unlock_eq_ok.mp hunlock
    cases h
    exact ⟨howner, require_eq_ok.mp hcreated, henough, ids, hids, rfl⟩
  · rintro ⟨howner, hcreated, henough, ids, hids, rfl⟩
    refine except_bind_eq_ok.mpr ⟨(), onlyOwner_eq_ok.mpr howner, ?_⟩
    refine except_bind_eq_ok.mpr ⟨(), require_eq_ok.mpr hcreated, ?_⟩
    refine except_bind_eq_ok.mpr ⟨_, unlock_eq_ok.mpr ⟨howner, henough, rfl⟩, ?_⟩
    exact except_bind_eq_ok.mpr ⟨ids, hids, rfl⟩

/-! ## Tokens -/

/-- The ether covers the tokens, and no address has more locked than it has. -/
structure Backed (s : NodeContract) : Prop where
  ether : total s.balances ≤ s.ether
  locked : ∀ a, (s.locked a).toNat ≤ (s.balances a).toNat

theorem toNat_debit {b : Address → U256} {a c : Address} {x : U256} (h : x ≤ b a) :
    (debit b a x c).toNat = if c = a then (b c).toNat - x.toNat else (b c).toNat := by
  rw [debit, Function.update_apply]
  split
  · next hc => rw [hc, BitVec.toNat_sub_of_le h]
  · rfl

theorem toNat_credit {b : Address → U256} {a c : Address} {x : U256}
    (h : (b a).toNat + x.toNat < 2 ^ 256) :
    (credit b a x c).toNat = if c = a then (b c).toNat + x.toNat else (b c).toNat := by
  rw [credit, Function.update_apply]
  split
  · next hc => rw [hc, (total_credit_of_lt h).1]
  · rfl

theorem Backed.receive (h : s.Backed) (msg : Msg) : (s.receive msg).Backed :=
  ⟨h.ether.trans (Nat.le_add_right _ _), h.locked⟩

theorem backed_transfer (h : s.Backed) (hok : transfer msg target value s = .ok s') : s'.Backed := by
  obtain ⟨henough, hfits, rfl⟩ := transfer_ok hok
  have hle : value ≤ s.balances msg.sender := (Nat.le_add_left _ _).trans henough
  have hdebit := (total_debit hle).2
  have hcredit := (total_credit_of_lt hfits).2
  constructor
  · show total (credit _ _ _) ≤ s.ether
    have hether := h.ether
    omega
  · intro a
    show (s.locked a).toNat ≤ (credit _ _ _ a).toNat
    rw [toNat_credit hfits, toNat_debit hle]
    have hlocked := h.locked a
    by_cases hsender : a = msg.sender
    · rw [← hsender] at henough
      rw [if_pos hsender]
      split <;> omega
    · rw [if_neg hsender]
      split <;> omega

/-- More tokens are locked, as many as there are at most. -/
theorem backed_lock (h : s.Backed)
    (henough : (s.locked target).toNat + value.toNat ≤ (s.balances target).toNat) :
    { s with locked := credit s.locked target value }.Backed := by
  refine ⟨h.ether, fun a => ?_⟩
  show (credit _ _ _ a).toNat ≤ (s.balances a).toNat
  rw [toNat_credit (henough.trans_lt (s.balances target).isLt)]
  split
  · next ha => rwa [ha]
  · exact h.locked a

/-- Fewer tokens are locked. -/
theorem backed_unlock (h : s.Backed) (hle : value ≤ s.locked target) :
    { s with locked := debit s.locked target value }.Backed := by
  refine ⟨h.ether, fun a => ?_⟩
  show (debit _ _ _ a).toNat ≤ (s.balances a).toNat
  rw [toNat_debit hle]
  have hlocked := h.locked a
  split <;> omega

theorem backed_withdraw (h : s.Backed) (hok : withdraw msg value s = .ok s') : s'.Backed := by
  obtain ⟨hle, hlocked, -, -, -, rfl⟩ := withdraw_ok hok
  have hdebit := (total_debit hle).2
  have hether := h.ether
  constructor
  · show total (debit _ _ _) ≤ s.ether - _
    omega
  · intro a
    show (s.locked a).toNat ≤ (debit _ _ _ a).toNat
    rw [BitVec.le_def, BitVec.toNat_sub_of_le hle] at hlocked
    rw [toNat_debit hle]
    split
    · next ha =>
        subst ha
        exact hlocked
    · exact h.locked a

theorem backed_recharge (h : s.Backed) (hok : recharge msg (s.receive msg) = .ok s') :
    s'.Backed := by
  obtain ⟨-, hfits, rfl⟩ := recharge_ok hok
  replace hfits : (s.balances msg.sender).toNat + msg.value.toNat < 2 ^ 256 := hfits
  have hcredit := (total_credit_of_lt hfits).2
  constructor
  · show total (credit s.balances msg.sender msg.value) ≤ s.ether + msg.value.toNat
    rw [hcredit]
    exact Nat.add_le_add_right h.ether _
  · intro a
    show (s.locked a).toNat ≤ (credit s.balances msg.sender msg.value a).toNat
    rw [toNat_credit hfits]
    have hlocked := h.locked a
    split <;> omega

/-- A call that succeeds keeps the tokens backed. -/
theorem backed_run {call : Call} (h : s.Backed) (hok : run msg call s = .ok s') : s'.Backed := by
  have hreceived := h.receive msg
  cases call with
  | transferOwnership newOwner =>
      rw [transferOwnership_ok hok]
      exact ⟨hreceived.ether, hreceived.locked⟩
  | transfer target value => exact backed_transfer hreceived hok
  | lock target value =>
      obtain ⟨-, henough, rfl⟩ := lock_ok hok
      exact backed_lock hreceived henough
  | unlock target value =>
      obtain ⟨-, hle, rfl⟩ := unlock_eq_ok.mp hok
      exact backed_unlock hreceived hle
  | withdraw value => exact backed_withdraw hreceived hok
  | recharge => exact backed_recharge h hok
  | registerNode addr value id property =>
      obtain ⟨-, -, henough, rfl⟩ := registerNode_ok hok
      have hlocked := backed_lock hreceived henough
      exact ⟨hlocked.ether, hlocked.locked⟩
  | unregisterNode id =>
      obtain ⟨-, -, hle, ids, -, rfl⟩ := unregisterNode_eq_ok.mp hok
      have hunlocked := backed_unlock hreceived hle
      exact ⟨hunlocked.ether, hunlocked.locked⟩

/-- `totalSupply_` is the sum of the tokens. -/
def Accounted (s : NodeContract) : Prop := s.totalSupply_.toNat = total s.balances

/-- A withdrawal that passes the checks: the tokens are there and not locked, the attached
ether is no more than `totalSupply_`, and the sender takes what it gets. -/
structure Withdrawable (s : NodeContract) (msg : Msg) (value : U256) : Prop where
  unlocked : (s.locked msg.sender).toNat + value.toNat ≤ (s.balances msg.sender).toNat
  supply : msg.value ≤ s.totalSupply_
  accepts : msg.accepts = true

/-- What is withdrawn is attached as well. -/
def Attached (s : NodeContract) (x : Msg × Call) : Prop :=
  ∀ value, x.2 = .withdraw value → s.Withdrawable x.1 value → x.1.value = value

theorem withdrawable_of_ok (hok : run msg (.withdraw value) s = .ok s') :
    s.Withdrawable msg value := by
  obtain ⟨hle, hlocked, hsupply, haccepts, -, -⟩ := withdraw_ok hok
  rw [BitVec.le_def, BitVec.toNat_sub_of_le hle] at hlocked
  have hle' : value.toNat ≤ (s.balances msg.sender).toNat := hle
  replace hlocked : (s.locked msg.sender).toNat ≤
      (s.balances msg.sender).toNat - value.toNat := hlocked
  exact ⟨by omega, hsupply, haccepts⟩

/-- After a withdrawal `totalSupply_` is the sum of the tokens exactly if what was withdrawn
was attached as well. -/
theorem accounted_withdraw_iff (h : s.Accounted) (hok : run msg (.withdraw value) s = .ok s') :
    s'.Accounted ↔ msg.value = value := by
  obtain ⟨hle, -, hsupply, -, -, rfl⟩ := withdraw_ok hok
  have hdebit := (total_debit hle).2
  have hsub : (s.totalSupply_ - msg.value).toNat = s.totalSupply_.toNat - msg.value.toNat :=
    BitVec.toNat_sub_of_le hsupply
  have hle' : msg.value.toNat ≤ s.totalSupply_.toNat := hsupply
  have haccounted : s.totalSupply_.toNat = total (s.receive msg).balances := h
  show (s.totalSupply_ - msg.value).toNat = total (debit _ _ _) ↔ _
  rw [hsub]
  constructor
  · intro heq
    apply BitVec.eq_of_toNat_eq
    omega
  · rintro rfl
    omega

theorem accounted_run {call : Call} (h : s.Accounted) (hok : run msg call s = .ok s')
    (hattached : Attached s (msg, call)) : s'.Accounted := by
  cases call with
  | transferOwnership newOwner =>
      rw [transferOwnership_ok hok]
      exact h
  | transfer target value =>
      obtain ⟨henough, hfits, rfl⟩ := transfer_ok hok
      have hdebit := (total_debit (BitVec.le_def.mpr ((Nat.le_add_left _ _).trans henough))).2
      have hcredit := (total_credit_of_lt hfits).2
      have haccounted : s.totalSupply_.toNat = total (s.receive msg).balances := h
      show s.totalSupply_.toNat = total (credit _ _ _)
      omega
  | lock target value =>
      obtain ⟨-, -, rfl⟩ := lock_ok hok
      exact h
  | unlock target value =>
      obtain ⟨-, -, rfl⟩ := unlock_eq_ok.mp hok
      exact h
  | withdraw value =>
      rw [accounted_withdraw_iff h hok]
      exact hattached value rfl (withdrawable_of_ok hok)
  | recharge =>
      obtain ⟨hfits, hfits', rfl⟩ := recharge_ok hok
      have hcredit := (total_credit_of_lt hfits').2
      have haccounted : s.totalSupply_.toNat = total (s.receive msg).balances := h
      show (s.totalSupply_ + msg.value).toNat = total (credit _ _ _)
      rw [hcredit, ← haccounted, BitVec.toNat_add]
      exact Nat.mod_eq_of_lt hfits
  | registerNode addr value id property =>
      obtain ⟨-, -, -, rfl⟩ := registerNode_ok hok
      exact h
  | unregisterNode id =>
      obtain ⟨-, -, -, ids, -, rfl⟩ := unregisterNode_eq_ok.mp hok
      exact h

/-- What successful calls keep, calls keep. -/
theorem apply_keeps {P : NodeContract → Prop} {x : Msg × Call} (h : P s)
    (hrun : ∀ s', run x.1 x.2 s = .ok s' → P s') : P (s.apply x) := by
  unfold apply
  cases hok : run x.1 x.2 s with
  | ok s' => exact hrun s' hok
  | error e => exact h

theorem total_zero : total (fun _ : Address => (0 : U256)) = 0 := Finset.sum_const_zero

/-- **The tokens of the contract.**  In every state the ether covers the tokens, and nobody
has more locked than he has.  As long as everything that is withdrawn is attached as well,
`totalSupply_` is the sum of the tokens. -/
theorem token_accounting (hs : system.Reach (fun _ _ => True) s) :
    (total s.balances ≤ s.ether ∧ ∀ a, s.locked a ≤ s.balances a) ∧
      (system.Reach Attached s → s.totalSupply_.toNat = total s.balances) := by
  have hbacked : s.Backed := by
    refine hs.invariant (I := Backed) ?_ ?_
    · rintro s rfl
      exact ⟨total_zero.le, fun a => Nat.le_refl _⟩
    · rintro s x s' - h - hstep
      cases hstep
      exact apply_keeps h fun s' hok => backed_run h hok
  refine ⟨⟨hbacked.ether, hbacked.locked⟩, fun hs => ?_⟩
  refine hs.invariant (I := Accounted) ?_ ?_
  · rintro s rfl
    exact total_zero.symm
  · rintro s x s' - h hattached hstep
    cases hstep
    exact apply_keeps h fun s' hok => accounted_run h hok hattached

/-- Somebody deposits 10 and withdraws 4, with 4 attached. -/
theorem token_accounting_attached :
    ∃ s, system.Reach Attached s ∧ s.totalSupply_ = 6 ∧ s.ether = 10 ∧
      s.totalSupply_.toNat = total s.balances ∧ total s.balances ≤ s.ether := by
  have hstart : system.Reach Attached {} := .init rfl
  have hdeposit := hstart.step (a := (⟨7, 10, true⟩, .recharge)) (fun _ h => by cases h) rfl
  have hwithdraw := hdeposit.step (a := (⟨7, 4, true⟩, .withdraw 4)) (fun _ h _ => by cases h; rfl) rfl
  have hany : system.Reach (fun _ _ => True) _ :=
    ((System.Reach.init (s := {}) rfl).step (a := (⟨7, 10, true⟩, .recharge)) trivial rfl).step
      (a := (⟨7, 4, true⟩, .withdraw 4)) trivial rfl
  have hboth := token_accounting hany
  exact ⟨_, hwithdraw, by decide, by decide, hboth.2 hwithdraw, hboth.1.1⟩

/-- Somebody deposits 10 and withdraws 4 without attaching anything. -/
theorem withdrawal_not_accounted :
    ¬∀ s, system.Reach (fun _ _ => True) s → s.totalSupply_.toNat = total s.balances := by
  intro h
  have hstart : system.Reach (fun _ _ => True) {} := .init rfl
  have hdeposit := hstart.step (a := (⟨7, 10, true⟩, .recharge)) trivial rfl
  have hwithdraw := hdeposit.step (a := (⟨7, 0, true⟩, .withdraw 4)) trivial rfl
  have haccounted : (NodeContract.apply {} (⟨7, 10, true⟩, .recharge)).Accounted := h _ hdeposit
  have hok : run ⟨7, 0, true⟩ (.withdraw 4) (NodeContract.apply {} (⟨7, 10, true⟩, .recharge)) =
      .ok ((NodeContract.apply {} (⟨7, 10, true⟩, .recharge)).apply (⟨7, 0, true⟩, .withdraw 4)) := rfl
  exact absurd ((accounted_withdraw_iff haccounted hok).mp (h _ hwithdraw)) (by decide)

end NodeContract

end CppSwc
