import CppSwc.Executive.Executive
import Mathlib.Order.Bounds.Basic

/-!
# Gas estimation

`ClientBase::estimateGas` looks for a gas limit by bisection, from the gas that every transaction
needs to the most that is allowed.  The execution with a limit is a parameter: it ends with a
result or with an exception.  The loop ends for every execution (`exists_estimateGas`).

An exception of an execution ends the search, and the estimate is zero.  `execute` tells that
there is not enough gas for the base cost, or not enough cash, by an exception, and a high limit
can cost more than the balance that the search tops up.
-/

namespace CppSwc.Client

open Evm

/-- `CodeDeposit`. -/
inductive CodeDeposit where
  | none
  | failed
  | success
deriving DecidableEq, Repr

/-- `ExecutionResult`, with the outcome of a code deposit. -/
structure EstimateResult extends ExecutionResult where
  codeDeposit : CodeDeposit := .none
deriving DecidableEq, Repr

/-- The results that `estimateGas` takes for too little gas. -/
def EstimateResult.ranOut (er : EstimateResult) : Bool :=
  er.excepted = .outOfGas ∨ er.excepted = .outOfGasBase ∨ er.excepted = .outOfGasIntrinsic ∨
    er.codeDeposit = .failed ∨ er.excepted = .badJumpDestination

/-- `c_maxGasEstimate`. -/
def maxGasEstimate : ℤ := 50000000

/-- A number as a `u256`. -/
def toU256 (n : ℤ) : ℕ := (n % 2 ^ 256).toNat

/-- What an execution gives with a gas limit. -/
abbrev Oracle := ℤ → Except Failure EstimateResult

/-- The loop.  Division rounds towards zero. -/
def search (execute : Oracle) :
    ℕ → ℤ → ℤ → EstimateResult → EstimateResult → Bool → Option (Except Failure (ℤ × EstimateResult))
  | 0, _, _, _, _, _ => none
  | fuel + 1, lower, upper, er, lastGood, good =>
      if upper = lower then some (.ok (upper, if good then lastGood else er))
      else
        let mid := (lower + upper).tdiv 2
        match execute mid with
        | .error e => some (.error e)
        | .ok er =>
            if er.ranOut then
              search execute fuel (if lower = mid then upper else mid) upper er lastGood good
            else search execute fuel lower (if upper = mid then lower else mid) er er true

/-- The upper bound at first.  `Invalid256` is compared as a `u256`. -/
def upperBound (maxGas : ℤ) : ℤ :=
  if toU256 maxGas = 2 ^ 256 - 1 ∨ maxGasEstimate < maxGas then maxGasEstimate else maxGas

/-- The lower bound at first. -/
def lowerBound (isCreation : Bool) (data : Bytes) : ℤ :=
  TransactionBase.baseGasRequired { isCreation, data } {}

/-- `estimateGas`, without the callback.  The numbers of the loop come closer in every round. -/
def estimateGas (isCreation : Bool) (data : Bytes) (maxGas : ℤ) (execute : Oracle) :
    Option (ℕ × EstimateResult) :=
  let upper := upperBound maxGas
  let lower := lowerBound isCreation data
  (search execute ((upper - lower).natAbs + 1) lower upper {} {} false).map fun
    | .ok (upper, er) => (toU256 upper, er)
    | .error _ => (0, {})

/-! ## Termination -/

variable {execute : Oracle} {lower upper k g : ℤ} {fuel : ℕ} {er lastGood : EstimateResult} {good : Bool}

theorem midpoint_bounds (n : ℤ) : n - 1 ≤ 2 * n.tdiv 2 ∧ 2 * n.tdiv 2 ≤ n + 1 := by
  have hsplit := Int.mul_tdiv_add_tmod n 2
  have hmod : n.tmod 2 < 2 := Int.tmod_lt_of_pos n (by decide)
  have hmod' : -2 < n.tmod 2 := by
    have := Int.lt_tmod_of_pos n (show (0 : ℤ) < 2 by decide)
    omega
  omega

/-- A round brings the bounds closer. -/
theorem exists_search (h : (upper - lower).natAbs < fuel) :
    ∃ r, search execute fuel lower upper er lastGood good = some r := by
  induction fuel generalizing lower upper er lastGood good with
  | zero => exact absurd h (Nat.not_lt_zero _)
  | succ fuel ih =>
      rw [search]
      by_cases heq : upper = lower
      · rw [if_pos heq]
        exact ⟨_, rfl⟩
      rw [if_neg heq]
      obtain ⟨hlow, hhigh⟩ := midpoint_bounds (lower + upper)
      generalize (lower + upper).tdiv 2 = mid at hlow hhigh
      dsimp only
      cases execute mid with
      | error e => exact ⟨_, rfl⟩
      | ok er =>
          dsimp only
          split
          · exact ih (by split <;> omega)
          · exact ih (by split <;> omega)

theorem exists_estimateGas (isCreation : Bool) (data : Bytes) (maxGas : ℤ) (execute : Oracle) :
    ∃ r, estimateGas isCreation data maxGas execute = some r := by
  obtain ⟨r, hr⟩ : ∃ r, search execute _ (lowerBound isCreation data) (upperBound maxGas) {} {} false
      = some r := exists_search (Nat.lt_succ_self _)
  exact ⟨_, by rw [estimateGas, hr]; rfl⟩

/-! ## The least limit -/

/-- An execution runs out of gas. -/
def RunsOut (execute : Oracle) (g : ℤ) : Prop := ∃ er, execute g = .ok er ∧ er.ranOut = true

/-- A limit is sufficient. -/
def Sufficient (execute : Oracle) (g : ℤ) : Prop := ∃ er, execute g = .ok er ∧ er.ranOut = false

/-- An execution ends with an exception. -/
def Throws (execute : Oracle) (g : ℤ) : Prop := ∃ e, execute g = .error e

/-- The limits that a bisection looks at on its way to `k`. -/
def bisection (k : ℤ) : ℕ → ℤ → ℤ → List ℤ
  | 0, _, _ => []
  | fuel + 1, lower, upper =>
      if upper = lower then []
      else
        let mid := (lower + upper).tdiv 2
        mid ::
          if mid < k then bisection k fuel (if lower = mid then upper else mid) upper
          else bisection k fuel lower (if upper = mid then lower else mid)

/-- The limits that the search looks at on its way to `k`. -/
def tried (isCreation : Bool) (data : Bytes) (maxGas k : ℤ) : List ℤ :=
  let upper := upperBound maxGas
  let lower := lowerBound isCreation data
  bisection k ((upper - lower).natAbs + 1) lower upper

/-- Below `k` an execution runs out of gas, and from `k` on it does not, if it has a result. -/
def Parted (execute : Oracle) (k lower upper : ℤ) : Prop :=
  ∀ g er, lower ≤ g → g ≤ upper → execute g = .ok er → (er.ranOut = true ↔ g < k)

theorem midpoint_mem (h : lower < upper) (hpos : 0 ≤ lower) :
    lower ≤ (lower + upper).tdiv 2 ∧ (lower + upper).tdiv 2 < upper ∧
      lower + upper ≤ 2 * (lower + upper).tdiv 2 + 1 := by
  rw [Int.tdiv_eq_ediv_of_nonneg (by omega)]
  omega

variable (er lastGood good) in
/-- The search ends at `k`, unless it meets an exception. -/
theorem search_eq (hparted : Parted execute k lower upper) (hpos : 0 ≤ lower) (hlower : lower ≤ k)
    (hupper : k ≤ upper) (hfuel : (upper - lower).natAbs < fuel) :
    ((∀ g ∈ bisection k fuel lower upper, ¬Throws execute g) ∧
        ∃ er', search execute fuel lower upper er lastGood good = some (.ok (k, er'))) ∨
      (¬(∀ g ∈ bisection k fuel lower upper, ¬Throws execute g) ∧
        ∃ e, search execute fuel lower upper er lastGood good = some (.error e)) := by
  induction fuel generalizing lower upper er lastGood good with
  | zero => exact absurd hfuel (Nat.not_lt_zero _)
  | succ fuel ih =>
      rw [search, bisection]
      by_cases heq : upper = lower
      · rw [if_pos heq, if_pos heq]
        have hk : k = upper := by omega
        exact .inl ⟨by simp, _, by rw [hk]⟩
      rw [if_neg heq, if_neg heq]
      obtain ⟨hlow, hhigh, hhalf⟩ :=
        midpoint_mem (lt_of_le_of_ne (hlower.trans hupper) (Ne.symm heq)) hpos
      generalize (lower + upper).tdiv 2 = mid at hlow hhigh hhalf
      dsimp only
      cases hrun : execute mid with
      | error e =>
          refine .inr ⟨fun hall => ?_, e, rfl⟩
          exact hall mid (.head _) ⟨e, hrun⟩
      | ok er' =>
          have hmid : ¬Throws execute mid := by
            rintro ⟨e, he⟩
            rw [hrun] at he
            cases he
          have hside := hparted mid er' hlow hhigh.le hrun
          simp only [List.forall_mem_cons, hmid, not_false_eq_true, true_and]
          by_cases hlt : mid < k
          · -- the lower bound goes up
            rw [if_pos hlt, if_pos (hside.mpr hlt)]
            have hge : lower ≤ if lower = mid then upper else mid := by split <;> omega
            refine ih _ _ _ (fun g er hg hg' => hparted g er (hge.trans hg) hg') (hpos.trans hge) ?_ hupper ?_
            · split <;> omega
            · split <;> omega
          · -- the upper bound goes down
            have hout : ¬er'.ranOut = true := fun hout => hlt (hside.mp hout)
            rw [if_neg hlt, if_neg hout, if_neg hhigh.ne']
            exact ih _ _ _ (fun g er hg hg' => hparted g er hg (hg'.trans hhigh.le)) hpos hlower
              (not_lt.mp hlt) (by omega)

/-- Data makes the base gas larger. -/
theorem le_foldl_add (f : UInt8 → ℕ) (data : Bytes) (n : ℕ) :
    n ≤ data.foldl (fun g b => g + f b) n := by
  induction data generalizing n with
  | nil => exact le_rfl
  | cons b data ih => exact (Nat.le_add_right n (f b)).trans (ih _)

theorem lowerBound_pos (isCreation : Bool) (data : Bytes) : 0 < lowerBound isCreation data := by
  have hbase : 21000 ≤ TransactionBase.baseGasRequired { isCreation, data } {} := by
    refine le_trans ?_ (le_foldl_add _ _ _)
    have hcall : 21000 ≤ ({} : EVMSchedule).txGas.toNat := by decide
    have hcreate : 21000 ≤ ({} : EVMSchedule).txCreateGas.toNat := by decide
    cases isCreation
    · exact hcall
    · exact hcreate
  rw [lowerBound]
  omega

theorem upperBound_le (maxGas : ℤ) : upperBound maxGas ≤ maxGasEstimate := by
  rw [upperBound]
  split
  · exact le_rfl
  · rename_i h
    omega

/-- Running out of gas is downward closed between the bounds. -/
def DownwardClosed (execute : Oracle) (lower upper : ℤ) : Prop :=
  ∀ g g', lower ≤ g' → g' ≤ g → g ≤ upper → RunsOut execute g → RunsOut execute g'

/-- The least sufficient limit parts the limits. -/
theorem parted_of_isLeast (hclosed : DownwardClosed execute lower upper)
    (hk : IsLeast {g | (lower ≤ g ∧ g ≤ upper) ∧ Sufficient execute g} k) :
    Parted execute k lower upper := by
  intro g er hlow hhigh hrun
  obtain ⟨⟨⟨hklow, hkhigh⟩, erk, hrunk, hsuff⟩, hleast⟩ := hk
  constructor
  · intro hout
    by_contra hge
    obtain ⟨er', hrun', hout'⟩ := hclosed g k hklow (not_lt.mp hge) hhigh ⟨er, hrun, hout⟩
    rw [hrunk] at hrun'
    cases hrun'
    rw [hsuff] at hout'
    cases hout'
  · intro hlt
    by_contra hout
    exact absurd (hleast ⟨⟨hlow, hhigh⟩, er, hrun, eq_false_of_ne_true hout⟩) (not_le.mpr hlt)

/-- The search for a limit ends.  If running out of gas is downward closed, the estimate is the
least sufficient limit exactly if the execution throws at none of the limits that are tried on
the way to it. -/
theorem estimateGas_isLeast_iff (isCreation : Bool) (data : Bytes) (maxGas : ℤ) (execute : Oracle) :
    (∃ r, estimateGas isCreation data maxGas execute = some r) ∧
    ∀ k, DownwardClosed execute (lowerBound isCreation data) (upperBound maxGas) →
      IsLeast {g | (lowerBound isCreation data ≤ g ∧ g ≤ upperBound maxGas) ∧ Sufficient execute g} k →
      ((∃ er, estimateGas isCreation data maxGas execute = some (k.toNat, er)) ↔
        ∀ g ∈ tried isCreation data maxGas k, ¬Throws execute g) := by
  refine ⟨exists_estimateGas isCreation data maxGas execute, fun k hclosed hk => ?_⟩
  have hpos := lowerBound_pos isCreation data
  obtain ⟨hlow, hhigh⟩ := hk.1.1
  have hmax := hhigh.trans (upperBound_le maxGas)
  have hk256 : toU256 k = k.toNat := by
    rw [maxGasEstimate] at hmax
    rw [toU256, Int.emod_eq_of_lt (by omega) (by omega)]
  rw [estimateGas, tried]
  rcases search_eq {} {} false (parted_of_isLeast hclosed hk) hpos.le hlow hhigh
    (Nat.lt_succ_self _) with ⟨hall, er, hrun⟩ | ⟨hthrow, e, hrun⟩
  · simp only [hrun, Option.map_some]
    exact iff_of_true ⟨er, by rw [hk256]⟩ hall
  · simp only [hrun, Option.map_some, Option.some.injEq, Prod.mk.injEq]
    refine iff_of_false ?_ hthrow
    rintro ⟨er, hzero, -⟩
    omega

/-- A call that needs 21002 gas. -/
def plainCall : Oracle := fun g =>
  .ok { excepted := if g < 21002 then .outOfGas else .none }

theorem estimateGas_isLeast_iff_plainCall :
    (∃ er, estimateGas false [] 21004 plainCall = some (21002, er)) ↔
      ∀ g ∈ tried false [] 21004 21002, ¬Throws plainCall g := by
  have hout : ∀ g, ({ excepted := if g < (21002 : ℤ) then .outOfGas else .none } : EstimateResult).ranOut =
      true ↔ g < 21002 := by
    intro g
    split <;> simp_all [EstimateResult.ranOut]
  have hlower : lowerBound false [] = 21000 := rfl
  have hupper : upperBound 21004 = 21004 := rfl
  refine (estimateGas_isLeast_iff false [] 21004 plainCall).2 21002 ?_ ⟨⟨?_, _, rfl, rfl⟩, ?_⟩
  · rintro g g' - hle - ⟨er, hrun, hran⟩
    cases hrun
    exact ⟨_, rfl, (hout g').mpr (hle.trans_lt ((hout g).mp hran))⟩
  · rw [hlower, hupper]
    decide
  · rintro g ⟨-, er, hrun, hran⟩
    cases hrun
    exact not_lt.mp fun hlt => by rw [(hout g).mpr hlt] at hran; cases hran

/-! ## The cost of a limit -/

/-- The check of the balance in `initialize`, after `estimateGas` has added the cost of the limit to
it.  What is added has 256 bits, and the cost has not. -/
def withCost (balance value gasPrice : U256) (run : ℤ → EstimateResult) : Oracle := fun g =>
  let gas := BitVec.ofInt 256 g
  if (balance + (gas * gasPrice + value)).toNat < value.toNat + gas.toNat * gasPrice.toNat then
    .error .notEnoughCash
  else .ok (run g)

/-- A transfer at a high price needs only the base gas, and the estimate is zero: the first limit
that is tried costs more than any balance. -/
theorem estimateGas_highPrice :
    let execute := withCost 0 0 (1 <<< 240) fun _ => { excepted := .none }
    (∀ g, ¬RunsOut execute g) ∧ Sufficient execute (lowerBound false []) ∧
      lowerBound false [] ≤ upperBound 50000000 ∧
      estimateGas false [] 50000000 execute = some (0, {}) := by
  refine ⟨?_, ⟨{ excepted := .none }, ?_, rfl⟩, by decide, ?_⟩
  · rintro g ⟨er, hrun, hran⟩
    simp only [withCost] at hrun
    split at hrun
    · cases hrun
    · cases hrun
      cases hran
  · rfl
  · rfl

end CppSwc.Client
