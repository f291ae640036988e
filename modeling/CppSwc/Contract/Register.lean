import CppSwc.Contract.Token
import Mathlib.Algebra.BigOperators.Group.List.Lemmas
import Mathlib.Algebra.GroupWithZero.Nat

/-!
# Registered nodes

The array of ids and the mapping of nodes name the same nodes.  What is recorded for the
nodes of an address stays locked, and so a node can be removed again, unless the owner
unlocks tokens by a call of his own.
-/

namespace CppSwc.NodeContract

open Lib Ledger

variable {s s' : NodeContract} {msg : Msg}

/-! ## The loops of `unregisterNode` -/

theorem strEqual_iff {a b : Bytes} : strEqual a b = true ↔ a = b := by
  rw [strEqual, Bool.and_eq_true, beq_iff_eq, List.all_eq_true]
  constructor
  · rintro ⟨hlength, hall⟩
    apply List.ext_getElem hlength
    intro i hi hi'
    have hmem : (a[i], b[i]) ∈ a.zip b := by
      rw [List.mem_iff_getElem]
      exact ⟨i, by simpa [hlength] using hi', by simp⟩
    simpa using hall _ hmem
  · rintro rfl
    refine ⟨rfl, fun x hx => ?_⟩
    obtain ⟨i, hi, rfl⟩ := List.mem_iff_getElem.mp hx
    simp

/-- The first loop finds the id. -/
theorem findId_eq (id : Bytes) (ids : List Bytes) : findId id ids = ids.idxOf id := by
  induction ids with
  | nil => rfl
  | cons x xs ih =>
      rw [findId, List.idxOf_cons, ih]
      by_cases hx : id = x
      · subst hx
        simp [strEqual_iff.mpr rfl]
      · simp [mt strEqual_iff.mp hx, Ne.symm hx, beq_false_of_ne]

/-- The second loop moves the rest of the array by one. -/
theorem shiftIds_dropLast (n : Nat) (ids : List Bytes) (i : Nat) (h : i + n + 1 = ids.length) :
    (shiftIds ids i n).dropLast = ids.eraseIdx i := by
  induction n generalizing ids i with
  | zero =>
      rw [shiftIds, List.dropLast_eq_eraseIdx h]
  | succ n ih =>
      have hlength : i + 1 + n + 1 = (ids.set i (ids.getD (i + 1) [])).length := by
        rw [List.length_set]
        omega
      rw [shiftIds, ih _ _ hlength]
      apply List.ext_getElem?
      intro j
      rw [List.getElem?_eraseIdx, List.getElem?_eraseIdx, List.getElem?_set, List.getElem?_set,
        List.getD_eq_getElem?_getD]
      by_cases hj : j < i
      · rw [if_pos hj, if_pos (by omega), if_neg (by omega)]
      · rw [if_neg hj]
        by_cases hji : j = i
        · subst hji
          rw [if_pos (by omega), if_pos rfl, if_pos (by omega), List.getElem?_eq_getElem (by omega)]
          rfl
        · rw [if_neg (by omega), if_neg (by omega)]

/-- `unregisterNode` takes the id out of the array. -/
theorem removeId_of_mem {id : Bytes} {ids : List Bytes} (h : id ∈ ids) :
    removeId id ids = .ok (ids.erase id) := by
  have hne : ids ≠ [] := List.ne_nil_of_mem h
  have hlt : ids.idxOf id < ids.length := List.idxOf_lt_length_iff.mpr h
  rw [removeId, if_neg hne, findId_eq]
  dsimp only
  rw [shiftIds_dropLast _ _ _ (by omega), List.eraseIdx_idxOf_eq_erase]

/-! ## Stakes -/

/-- What is recorded for an address in a node. -/
def stake (a : Address) (x : NodeInfo) : Nat := if x.addr = a then x.value.toNat else 0

/-- What is recorded for an address in all nodes. -/
def recorded (s : NodeContract) (a : Address) : Nat :=
  (s.m_nodeids.map fun id => stake a (s.m_nodedata id)).sum

/-- The array holds the ids of the nodes that are there, once each. -/
structure Listed (s : NodeContract) : Prop where
  nodup : s.m_nodeids.Nodup
  mem : ∀ id, id ∈ s.m_nodeids ↔ (s.m_nodedata id).created = true

/-- What is recorded for an address is locked. -/
def Staked (s : NodeContract) : Prop := ∀ a, s.recorded a ≤ (s.locked a).toNat

/-- A node that is not in the array does not count. -/
theorem recorded_update {id : Bytes} (hmem : id ∉ s.m_nodeids) (x : NodeInfo) (a : Address) :
    (s.m_nodeids.map fun i => stake a (Function.update s.m_nodedata id x i)).sum =
      s.recorded a := by
  rw [recorded]
  congr 1
  refine List.map_congr_left fun i hi => ?_
  have hne : i ≠ id := fun heq => hmem (heq ▸ hi)
  rw [Function.update_of_ne hne]

theorem listed_register {id : Bytes} (h : s.Listed) (hnew : (s.m_nodedata id).created = false)
    (hids : s'.m_nodeids = s.m_nodeids ++ [id]) {x : NodeInfo} (hx : x.created = true)
    (hdata : s'.m_nodedata = Function.update s.m_nodedata id x) : s'.Listed := by
  have hmem : id ∉ s.m_nodeids := fun hmem => by
    rw [h.mem, hnew] at hmem
    cases hmem
  constructor
  · rw [hids]
    exact List.nodup_append.mpr ⟨h.nodup, List.nodup_singleton id, fun a ha b hb heq => by
      rw [List.mem_singleton.mp hb] at heq
      exact hmem (heq ▸ ha)⟩
  · intro i
    rw [hids, hdata, List.mem_append, List.mem_singleton, h.mem]
    by_cases hi : i = id
    · rw [hi, Function.update_self, hx]
      simp
    · rw [Function.update_of_ne hi]
      simp [hi]

theorem listed_unregister {id : Bytes} (h : s.Listed)
    (hids : s'.m_nodeids = s.m_nodeids.erase id) {x : NodeInfo} (hx : x.created = false)
    (hdata : s'.m_nodedata = Function.update s.m_nodedata id x) : s'.Listed := by
  constructor
  · rw [hids]
    exact h.nodup.erase id
  · intro i
    rw [hids, hdata, h.nodup.mem_erase_iff, h.mem]
    by_cases hi : i = id
    · rw [hi, Function.update_self, hx]
      simp
    · rw [Function.update_of_ne hi]
      simp [hi]

/-- The array and the mapping stay in step. -/
theorem listed_run {call : Call} (h : s.Listed) (hok : run msg call s = .ok s') : s'.Listed := by
  have hsame : ∀ {t : NodeContract}, t.m_nodeids = s.m_nodeids → t.m_nodedata = s.m_nodedata →
      t.Listed := fun hids hdata => ⟨hids ▸ h.nodup, fun id => by rw [hids, hdata, h.mem]⟩
  cases call with
  | transferOwnership newOwner =>
      rw [transferOwnership_ok hok]
      exact hsame rfl rfl
  | transfer target value =>
      obtain ⟨-, -, rfl⟩ := transfer_ok hok
      exact hsame rfl rfl
  | lock target value =>
      obtain ⟨-, -, rfl⟩ := lock_ok hok
      exact hsame rfl rfl
  | unlock target value =>
      obtain ⟨-, -, rfl⟩ := unlock_eq_ok.mp hok
      exact hsame rfl rfl
  | withdraw value =>
      obtain ⟨-, -, -, -, -, rfl⟩ := withdraw_ok hok
      exact hsame rfl rfl
  | recharge =>
      obtain ⟨-, -, rfl⟩ := recharge_ok hok
      exact hsame rfl rfl
  | registerNode addr value id property =>
      obtain ⟨-, hnew, -, rfl⟩ := registerNode_ok hok
      exact listed_register h hnew rfl rfl rfl
  | unregisterNode id =>
      obtain ⟨-, hcreated, -, ids, hids, rfl⟩ := unregisterNode_eq_ok.mp hok
      cases (removeId_of_mem ((h.mem id).mpr hcreated)).symm.trans hids
      exact listed_unregister h rfl rfl rfl

/-- An id in the array was there before, or has 128 characters. -/
theorem ids_run {call : Call} (h : s.Listed) (hok : run msg call s = .ok s') :
    ∀ id ∈ s'.m_nodeids, id ∈ s.m_nodeids ∨ id.length = 128 := by
  intro i hi
  cases call with
  | transferOwnership newOwner =>
      rw [transferOwnership_ok hok] at hi
      exact Or.inl hi
  | transfer target value =>
      obtain ⟨-, -, rfl⟩ := transfer_ok hok
      exact Or.inl hi
  | lock target value =>
      obtain ⟨-, -, rfl⟩ := lock_ok hok
      exact Or.inl hi
  | unlock target value =>
      obtain ⟨-, -, rfl⟩ := unlock_eq_ok.mp hok
      exact Or.inl hi
  | withdraw value =>
      obtain ⟨-, -, -, -, -, rfl⟩ := withdraw_ok hok
      exact Or.inl hi
  | recharge =>
      obtain ⟨-, -, rfl⟩ := recharge_ok hok
      exact Or.inl hi
  | registerNode addr value id property =>
      obtain ⟨hlength, -, -, rfl⟩ := registerNode_ok hok
      rcases List.mem_append.mp hi with hi | hi
      · exact Or.inl hi
      · rw [List.mem_singleton.mp hi]
        exact Or.inr hlength
  | unregisterNode id =>
      obtain ⟨-, hcreated, -, ids, hids, rfl⟩ := unregisterNode_eq_ok.mp hok
      cases (removeId_of_mem ((h.mem id).mpr hcreated)).symm.trans hids
      exact Or.inl (List.mem_of_mem_erase hi)

/-! ## Locked stakes -/

/-- Tokens that are unlocked directly are not those recorded for a node. -/
def Spares (s : NodeContract) (x : Msg × Call) : Prop :=
  ∀ target value, x.2 = .unlock target value → s.Owned x.1 → value ≤ s.locked target →
    s.recorded target + value.toNat ≤ (s.locked target).toNat

theorem staked_register {addr : Address} {value : U256} {id property : Bytes}
    (h : s.Staked) (hmem : id ∉ s.m_nodeids)
    (hfits : (s.locked addr).toNat + value.toNat < 2 ^ 256)
    (hlocked : s'.locked = Ledger.credit s.locked addr value)
    (hids : s'.m_nodeids = s.m_nodeids ++ [id])
    (hdata : s'.m_nodedata = Function.update s.m_nodedata id ⟨property, addr, value, true⟩) :
    s'.Staked := by
  intro a
  have hrecorded : s'.recorded a = s.recorded a + stake a ⟨property, addr, value, true⟩ := by
    rw [recorded, hids, hdata, List.map_append, List.sum_append, recorded_update hmem,
      List.map_singleton, List.sum_singleton, Function.update_self]
  have hstake : stake a ⟨property, addr, value, true⟩ = if a = addr then value.toNat else 0 := by
    rw [stake]
    simp only [eq_comm]
  have hstaked := h a
  rw [hrecorded, hstake, hlocked, toNat_credit hfits]
  split <;> omega

theorem staked_unregister {id : Bytes} (h : s.Staked) (hlisted : s.Listed)
    (hmem : id ∈ s.m_nodeids) (hle : (s.m_nodedata id).value ≤ s.locked (s.m_nodedata id).addr)
    (hlocked : s'.locked =
      Ledger.debit s.locked (s.m_nodedata id).addr (s.m_nodedata id).value)
    (hids : s'.m_nodeids = s.m_nodeids.erase id) {x : NodeInfo}
    (hdata : s'.m_nodedata = Function.update s.m_nodedata id x) : s'.Staked := by
  intro a
  have hrest : s'.recorded a = ((s.m_nodeids.erase id).map fun i => stake a (s.m_nodedata i)).sum := by
    rw [recorded, hids, hdata]
    congr 1
    refine List.map_congr_left fun i hi => ?_
    have hne : i ≠ id := (hlisted.nodup.mem_erase_iff.mp hi).1
    rw [Function.update_of_ne hne]
  have hrecorded : stake a (s.m_nodedata id) + s'.recorded a = s.recorded a := by
    have hperm := (List.perm_cons_erase hmem).map fun i => stake a (s.m_nodedata i)
    rw [hrest, recorded, hperm.sum_eq, List.map_cons, List.sum_cons]
  have hstaked := h a
  rw [hlocked, toNat_debit hle]
  by_cases ha : a = (s.m_nodedata id).addr
  · rw [stake, if_pos ha.symm] at hrecorded
    rw [if_pos ha]
    omega
  · rw [if_neg ha]
    omega

/-- What is recorded stays locked. -/
theorem staked_run {call : Call} (h : s.Staked) (hlisted : s.Listed)
    (hok : run msg call s = .ok s') (hspares : Spares s (msg, call)) : s'.Staked := by
  cases call with
  | transferOwnership newOwner =>
      rw [transferOwnership_ok hok]
      exact h
  | transfer target value =>
      obtain ⟨-, -, rfl⟩ := transfer_ok hok
      exact h
  | lock target value =>
      obtain ⟨-, henough, rfl⟩ := lock_ok hok
      intro a
      have hfits := henough.trans_lt ((s.receive msg).balances target).isLt
      have hstaked : s.recorded a ≤ ((s.receive msg).locked a).toNat := h a
      show s.recorded a ≤ (credit _ _ _ a).toNat
      rw [toNat_credit hfits]
      split <;> omega
  | unlock target value =>
      obtain ⟨howned, hle, rfl⟩ := unlock_eq_ok.mp hok
      intro a
      have hstaked := h a
      have hspared := hspares target value rfl howned hle
      replace hle : value ≤ s.locked target := hle
      show s.recorded a ≤ (debit s.locked target value a).toNat
      rw [toNat_debit hle]
      split
      · next ha =>
          rw [ha]
          omega
      · exact hstaked
  | withdraw value =>
      obtain ⟨-, -, -, -, -, rfl⟩ := withdraw_ok hok
      exact h
  | recharge =>
      obtain ⟨-, -, rfl⟩ := recharge_ok hok
      exact h
  | registerNode addr value id property =>
      obtain ⟨-, hnew, henough, rfl⟩ := registerNode_ok hok
      have hmem : id ∉ s.m_nodeids := fun hmem => by
        have hcreated := (hlisted.mem id).mp hmem
        exact absurd (hnew.symm.trans hcreated) (by decide)
      exact staked_register h hmem (henough.trans_lt (BitVec.isLt _)) rfl rfl rfl
  | unregisterNode id =>
      obtain ⟨-, hcreated, hle, ids, hids, rfl⟩ := unregisterNode_eq_ok.mp hok
      have hmem : id ∈ s.m_nodeids := (hlisted.mem id).mpr hcreated
      cases (removeId_of_mem hmem).symm.trans hids
      exact staked_unregister h hlisted hmem hle rfl rfl rfl

/-! ## Every state of the contract -/

theorem listed_of_reach {ok : NodeContract → Msg × Call → Prop} (h : system.Reach ok s) :
    s.Listed := by
  refine h.invariant (I := Listed) ?_ ?_
  · rintro s rfl
    exact ⟨List.nodup_nil, fun id => by simp⟩
  · rintro s x s' - h - hstep
    cases hstep
    exact apply_keeps h fun s' hok => listed_run h hok

/-- Every id in the array has 128 characters. -/
theorem length_of_reach {ok : NodeContract → Msg × Call → Prop} (h : system.Reach ok s) :
    ∀ id ∈ s.m_nodeids, id.length = 128 := by
  have hboth : s.Listed ∧ ∀ id ∈ s.m_nodeids, id.length = 128 := by
    refine h.invariant (I := fun s => s.Listed ∧ ∀ id ∈ s.m_nodeids, id.length = 128) ?_ ?_
    · rintro s rfl
      exact ⟨⟨List.nodup_nil, fun id => by simp⟩, fun id hid => absurd hid List.not_mem_nil⟩
    · rintro s x s' - h - hstep
      cases hstep
      refine apply_keeps (P := fun s => s.Listed ∧ ∀ id ∈ s.m_nodeids, id.length = 128) h
        fun s' hok => ⟨listed_run h.1 hok, fun id hid => ?_⟩
      rcases ids_run h.1 hok id hid with hmem | hlength
      · exact h.2 id hmem
      · exact hlength
  exact hboth.2

theorem staked_of_reach (h : system.Reach Spares s) : s.Staked := by
  have hboth : s.Listed ∧ s.Staked := by
    refine h.invariant (I := fun s => s.Listed ∧ s.Staked) ?_ ?_
    · rintro s rfl
      exact ⟨⟨List.nodup_nil, fun id => by simp⟩, fun a => Nat.le_refl _⟩
    · rintro s x s' - h hspares hstep
      cases hstep
      refine apply_keeps (P := fun s => s.Listed ∧ s.Staked) h fun s' hok => ?_
      exact ⟨listed_run h.1 hok, staked_run h.2 h.1 hok hspares⟩
  exact hboth.2

/-- The stake of one node is part of what is recorded for its address. -/
theorem value_le_recorded {id : Bytes} (hmem : id ∈ s.m_nodeids) :
    (s.m_nodedata id).value.toNat ≤ s.recorded (s.m_nodedata id).addr := by
  have hle := List.single_le_sum (l := s.m_nodeids.map fun i =>
    stake (s.m_nodedata id).addr (s.m_nodedata i)) (fun _ _ => Nat.zero_le _) _
    (List.mem_map_of_mem hmem)
  rwa [stake, if_pos rfl] at hle

/-- The owner takes a node out of the contract. -/
structure Released (msg : Msg) (id : Bytes) (s s' : NodeContract) : Prop where
  succeeds : run msg (.unregisterNode id) s = .ok s'
  ids : s'.m_nodeids = s.m_nodeids.erase id
  gone : (s'.m_nodedata id).created = false
  others : ∀ i, i ≠ id → s'.m_nodedata i = s.m_nodedata i

theorem released_of_staked {id : Bytes} (hlisted : s.Listed) (hstaked : s.Staked)
    (howned : s.Owned msg) (hcreated : (s.m_nodedata id).created = true) :
    ∃ s', Released msg id s s' := by
  have hmem : id ∈ s.m_nodeids := (hlisted.mem id).mpr hcreated
  have hle : (s.m_nodedata id).value ≤ s.locked (s.m_nodedata id).addr :=
    (value_le_recorded hmem).trans (hstaked _)
  refine ⟨_, unregisterNode_eq_ok.mpr ⟨howned, hcreated, hle, _, removeId_of_mem hmem, rfl⟩,
    rfl, ?_, fun i hi => ?_⟩
  · show (Function.update s.m_nodedata id _ id).created = false
    rw [Function.update_self]
  · show Function.update s.m_nodedata id _ i = _
    rw [Function.update_of_ne hi]

/-- **Stakes stay locked and can be released.**  The array holds the nodes that are there,
once each.  As long as the owner unlocks no recorded tokens by a direct call, what is
recorded for the nodes of an address is locked, and the owner can take out every node. -/
theorem stakes_released :
    (∀ s, system.Reach (fun _ _ => True) s →
      s.m_nodeids.Nodup ∧ ∀ id, id ∈ s.m_nodeids ↔ (s.m_nodedata id).created = true) ∧
      ∀ s, system.Reach Spares s →
        (∀ a, s.recorded a ≤ (s.locked a).toNat) ∧
          ∀ msg id, s.Owned msg → (s.m_nodedata id).created = true →
            ∃ s', Released msg id s s' := by
  refine ⟨fun s hs => ?_, fun s hs => ⟨staked_of_reach hs, fun msg id howned hcreated => ?_⟩⟩
  · exact ⟨(listed_of_reach hs).nodup, (listed_of_reach hs).mem⟩
  · exact released_of_staked (listed_of_reach hs) (staked_of_reach hs) howned hcreated

/-- With 5 tokens locked for a node the owner can take it out. -/
theorem stakes_released_registered :
    ∃ s, system.Reach Spares s ∧ s.recorded 7 = 5 ∧ s.recorded 7 ≤ (s.locked 7).toNat ∧
      ∃ s', Released ⟨7, 0, true⟩ (List.replicate 128 97) s s' := by
  have hstart : system.Reach Spares {} := .init rfl
  have hdeposit := hstart.step (a := (⟨7, 12, true⟩, .recharge)) (fun _ _ h => by cases h) rfl
  have hregister := hdeposit.step
    (a := (⟨7, 0, true⟩, .registerNode 7 5 (List.replicate 128 97) [])) (fun _ _ h => by cases h) rfl
  have hall := stakes_released.2 _ hregister
  exact ⟨_, hregister, by decide +kernel, hall.1 7, hall.2 _ _ (Or.inr (by decide +kernel))
    (by decide +kernel)⟩

/-- The owner unlocks what was locked for a node, and cannot take the node out any more. -/
theorem stake_not_released :
    ¬∀ s, system.Reach (fun _ _ => True) s → ∀ msg id, s.Owned msg →
      (s.m_nodedata id).created = true → ∃ s', Released msg id s s' := by
  intro h
  have hstart : system.Reach (fun _ _ => True) {} := .init rfl
  have hdeposit := hstart.step (a := (⟨7, 12, true⟩, .recharge)) trivial rfl
  have hregister := hdeposit.step
    (a := (⟨7, 0, true⟩, .registerNode 7 5 (List.replicate 128 97) [])) trivial rfl
  have hunlock := hregister.step (a := (⟨7, 0, true⟩, .unlock 7 5)) trivial rfl
  obtain ⟨s', hreleased⟩ := h _ hunlock ⟨7, 0, true⟩ (List.replicate 128 97)
    (Or.inr (by decide +kernel)) (by decide +kernel)
  obtain ⟨-, -, hle, -⟩ := unregisterNode_eq_ok.mp hreleased.succeeds
  exact absurd hle (by decide +kernel)

end CppSwc.NodeContract
