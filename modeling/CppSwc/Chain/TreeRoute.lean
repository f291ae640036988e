import CppSwc.Chain.Route

/-!
# Tree routes with flags

`treeRoute` takes three flags that say what it records: the blocks below the common
ancestor on the way down, the ancestor, and the blocks on the way up.  It also gives the
index of the ancestor in the route.

The index is one too large where the ancestor is recorded at the end of the way down and
nothing follows, for it is corrected only if there is a way up.  And the ancestor is left
out if it alone is asked for.
-/

namespace CppSwc.BlockChain

open Lib

variable {s : BlockChain} {x y : H256} {common pre post : Bool}

/-! ## The routes -/

/-- The loop over both blocks, with the flags. -/
def meetWith (parent : H256 → H256) (common pre post : Bool) :
    ℕ → H256 → H256 → Option (List H256 × List H256 × H256)
  | 0, _, _ => none
  | n + 1, a, b =>
      let ret := if pre && (a != b || common) then [a] else []
      let back := if post && (a != b || (!pre && common)) then [b] else []
      if a = b then some (ret, back, a)
      else if a = 0 ∨ b = 0 then none
      else (meetWith parent common pre post n (parent a) (parent b)).map fun r =>
        (ret ++ r.1, back ++ r.2.1, r.2.2)

/-- `treeRoute`, with the index.  There is none where an assertion fails. -/
def treeRouteWith (s : BlockChain) (a b : H256) (common pre post : Bool) :
    Option (List H256 × H256 × ℕ) :=
  if a = 0 ∨ b = 0 ∨ (s.details a).isNull ∨ (s.details b).isNull then some ([], 0, 0)
  else
    let fn := s.number a
    let tn := s.number b
    let down := climb s.parent (fn - tn) a
    let up := climb s.parent (tn - fn) b
    (meetWith s.parent common pre post (min fn tn + 1) down.2 up.2).map fun r =>
      let ret := (if pre then down.1 else []) ++ r.1
      let back := (if post then up.1 else []) ++ r.2.1
      (ret ++ back.reverse, r.2.2,
        ret.length - if common && !ret.isEmpty && !back.isEmpty then 1 else 0)

/-! ## What the loop records -/

/-- The way down is recorded with or without the common block, which otherwise is
recorded at the end of the way up. -/
theorem meetWith_eq (parent : H256 → H256) (common pre post : Bool) (n : ℕ) (a b : H256) :
    (∀ r, meet parent n a b = some r → r.1 ≠ []) ∧
      meetWith parent common pre post n a b = (meet parent n a b).map fun r =>
        (if pre then if common then r.1 else r.1.dropLast else [],
          if post then r.2.1 ++ (if !pre && common then [r.2.2] else []) else [], r.2.2) := by
  induction n generalizing a b with
  | zero =>
      refine ⟨?_, rfl⟩
      intro r hr
      cases hr
  | succ n ih =>
      obtain ⟨hne, hmeet⟩ := ih (parent a) (parent b)
      rw [meet, meetWith]
      by_cases heq : a = b
      · subst heq
        refine ⟨?_, ?_⟩
        · intro r hr
          rw [if_pos rfl] at hr
          cases hr
          exact List.cons_ne_nil _ _
        · cases common <;> cases pre <;> cases post <;> simp
      · rw [if_neg heq, if_neg heq]
        by_cases hzero : a = 0 ∨ b = 0
        · rw [if_pos hzero, if_pos hzero]
          refine ⟨?_, rfl⟩
          intro r hr
          cases hr
        · rw [if_neg hzero, if_neg hzero, hmeet]
          refine ⟨?_, ?_⟩
          · intro r hr
            obtain ⟨r', -, rfl⟩ := Option.map_eq_some_iff.mp hr
            exact List.cons_ne_nil _ _
          · cases hr : meet parent n (parent a) (parent b) with
            | none => rfl
            | some r =>
                have hlist := hne r hr
                have hbne : (a != b) = true := bne_iff_ne.mpr heq
                have hdrop : (a :: r.1).dropLast = a :: r.1.dropLast :=
                  List.dropLast_cons_of_ne_nil hlist
                cases common <;> cases pre <;> cases post <;>
                  simp [hbne, hdrop]

/-! ## The right route -/

/-- The blocks of a chain from the block down, as many as given. -/
def chainDown (s : BlockChain) (h : H256) (n : ℕ) : List H256 := List.iterate s.parent h n

/-- The route over the ancestor at height `k`, with its index. -/
def routeOver (s : BlockChain) (x y : H256) (common pre post : Bool) (k : ℕ) :
    List H256 × H256 × ℕ :=
  ((if pre then s.chainDown x (s.number x - k) else []) ++
      ((if common then [s.ancestor x k] else []) ++
        if post then (s.chainDown y (s.number y - k)).reverse else []),
    s.ancestor x k, if pre then s.number x - k else 0)

/-- `treeRoute` gives the route over the last common ancestor. -/
def RoutesRight (s : BlockChain) (x y : H256) (common pre post : Bool) : Prop :=
  ∃ k, LastCommon s.parent s.number x y k ∧
    s.treeRouteWith x y common pre post = some (s.routeOver x y common pre post k)

/-- What the code records on the way down from `x`. -/
def retOver (s : BlockChain) (x : H256) (common pre : Bool) (k : ℕ) : List H256 :=
  if pre then s.chainDown x (s.number x - k) ++ if common then [s.ancestor x k] else [] else []

/-- What the code records on the way down from `y`. -/
def backOver (s : BlockChain) (x y : H256) (common pre post : Bool) (k : ℕ) : List H256 :=
  if post then
    s.chainDown y (s.number y - k) ++ if !pre && common then [s.ancestor x k] else []
  else []

@[simp] theorem length_chainDown (s : BlockChain) (h : H256) (n : ℕ) :
    (s.chainDown h n).length = n := List.length_iterate _ _ _

theorem chainDown_append (s : BlockChain) (h : H256) (m n : ℕ) :
    s.chainDown h m ++ List.iterate s.parent (s.parent^[m] h) n = s.chainDown h (m + n) :=
  (List.iterate_add s.parent h m n).symm

theorem dropLast_iterate (f : H256 → H256) (h : H256) (n : ℕ) :
    (List.iterate f h (n + 1)).dropLast = List.iterate f h n := by
  rw [List.iterate_add, List.iterate, List.iterate, List.dropLast_concat]

variable {root : H256}

variable (common pre post) in
/-- What `treeRoute` gives for two blocks that are found. -/
theorem treeRouteWith_eq (r : Rooted s.Known s.parent s.number root) (h0 : ¬s.Known 0)
    (hx : s.Known x) (hy : s.Known y) (hnx : s.number x ≠ c_invalidNumber)
    (hny : s.number y ≠ c_invalidNumber) :
    ∃ k, LastCommon s.parent s.number x y k ∧
      let ret := s.retOver x common pre k
      let back := s.backOver x y common pre post k
      s.treeRouteWith x y common pre post = some (ret ++ back.reverse, s.ancestor x k,
        ret.length - if common && !ret.isEmpty && !back.isEmpty then 1 else 0) := by
  obtain ⟨k, hlast, hmeet⟩ := meet_levelled r h0 hx hy
  have hkx := hlast.le_left
  have hky := hlast.le_right
  refine ⟨k, hlast, ?_⟩
  have hguard : ¬(x = 0 ∨ y = 0 ∨ (s.details x).isNull = true ∨ (s.details y).isNull = true) := by
    simp only [BlockDetails.isNull, beq_iff_eq]
    rintro (rfl | rfl | h | h)
    exacts [h0 hx, h0 hy, hnx h, hny h]
  have hdown : ∀ n, s.number x - s.number y + n = s.number x - k →
      (if pre then List.iterate s.parent x (s.number x - s.number y) else []) ++
        (if pre then
          if common then
            List.iterate s.parent (s.parent^[s.number x - s.number y] x) (n + 1)
          else (List.iterate s.parent (s.parent^[s.number x - s.number y] x) (n + 1)).dropLast
        else []) = s.retOver x common pre k := by
    intro n hn
    have htop : s.chainDown x (s.number x - k + 1) =
        s.chainDown x (s.number x - k) ++ [s.ancestor x k] :=
      (s.chainDown_append x (s.number x - k) 1).symm
    cases pre with
    | false => rfl
    | true =>
        cases common with
        | false =>
            simp only [if_true, Bool.false_eq_true, if_false, dropLast_iterate, retOver,
              List.append_nil]
            rw [← hn]
            exact s.chainDown_append x _ n
        | true =>
            simp only [if_true, retOver]
            rw [← htop, ← hn, Nat.add_assoc]
            exact s.chainDown_append x _ (n + 1)
  have hup : ∀ n, s.number y - s.number x + n = s.number y - k →
      (if post then List.iterate s.parent y (s.number y - s.number x) else []) ++
        (if post then
          List.iterate s.parent (s.parent^[s.number y - s.number x] y) n ++
            (if !pre && common then [s.ancestor x k] else [])
        else []) = s.backOver x y common pre post k := by
    intro n hn
    cases post with
    | false => rfl
    | true =>
        simp only [if_true, backOver]
        rw [← List.append_assoc, ← hn]
        exact congrArg (· ++ _) (s.chainDown_append y _ n)
  simp only [treeRouteWith, hguard, if_false, climb_eq, (meetWith_eq _ _ _ _ _ _ _).2, hmeet,
    Option.map_some]
  rw [hdown _ (by omega), hup _ (by omega)]

/-- The block `y` is not in the chain of `x`. -/
def Apart (s : BlockChain) (x y : H256) : Prop := ∀ n, s.ancestor x n ≠ y

/-- The block `y` is in the chain of `x` exactly if the chains part at its height. -/
theorem apart_iff (r : Rooted s.Known s.parent s.number root) (hx : s.Known x) {k : ℕ}
    (hlast : LastCommon s.parent s.number x y k) : s.Apart x y ↔ k < s.number y := by
  constructor
  · intro hapart
    refine lt_of_le_of_ne hlast.le_right ?_
    rintro rfl
    have hcommon : s.ancestor x (s.number y) = s.ancestor y (s.number y) := hlast.common
    have hself : s.ancestor y (s.number y) = y := ancestor_self _ _ _
    exact hapart _ (hcommon.trans hself)
  · rintro hlt n rfl
    have hheight := (r.iterate hx (k := s.number x - n) (Nat.sub_le _ _)).2
    have hnumber : s.number (s.ancestor x n) + (s.number x - n) = s.number x := hheight
    have hsame : Lib.ancestor s.parent s.number x (s.number (s.ancestor x n)) =
        Lib.ancestor s.parent s.number (s.ancestor x n) (s.number (s.ancestor x n)) := by
      have hsteps : s.number x - s.number (s.ancestor x n) = s.number x - n := by omega
      rw [ancestor_self, Lib.ancestor, hsteps]
      rfl
    exact hlast.last _ hlt (by omega) le_rfl hsame

/-- The route and its index are right if and only if both blocks have a number that is
not the invalid one and the ancestor, if it is asked for, is asked for with the way up, and
with the way down only where `y` is not in the chain of `x`. -/
theorem routesRight_iff (r : Rooted s.Known s.parent s.number root) (h0 : ¬s.Known 0)
    (hx : s.Known x) (hy : s.Known y) :
    s.RoutesRight x y common pre post ↔
      (s.number x ≠ c_invalidNumber ∧ s.number y ≠ c_invalidNumber) ∧
        (common = true → post = true ∧ (pre = true → s.Apart x y)) := by
  by_cases hnumbers : s.number x ≠ c_invalidNumber ∧ s.number y ≠ c_invalidNumber
  · obtain ⟨k, hlast, hroute⟩ :=
      treeRouteWith_eq common pre post r h0 hx hy hnumbers.1 hnumbers.2
    have hright : s.RoutesRight x y common pre post ↔
        s.treeRouteWith x y common pre post = some (s.routeOver x y common pre post k) := by
      constructor
      · rintro ⟨k', hlast', hright⟩
        rw [hlast.unique hlast']
        exact hright
      · exact fun hright => ⟨k, hlast, hright⟩
    have hup : (s.chainDown y (s.number y - k)).isEmpty = !decide (k < s.number y) := by
      rw [Bool.eq_iff_iff, List.isEmpty_iff_length_eq_zero, length_chainDown, Bool.not_eq_true',
        decide_eq_false_iff_not]
      omega
    rw [hright, hroute, apart_iff r hx hlast]
    cases common <;> cases pre <;> cases post <;>
      simp [hnumbers, retOver, backOver, routeOver, hup]
    -- All flags are set: the index is corrected exactly if there is a way up.
    by_cases hlt : k < s.number y
    · simp [hlt]
    · simp [hlt]
  · refine iff_of_false ?_ fun h => hnumbers h.1
    rintro ⟨k, -, hroute⟩
    have hnull : x = 0 ∨ y = 0 ∨ (s.details x).isNull = true ∨ (s.details y).isNull = true := by
      simp only [BlockDetails.isNull, beq_iff_eq]
      rw [not_and_or, not_not, not_not] at hnumbers
      exact .inr (.inr hnumbers)
    rw [treeRouteWith, if_pos hnull, Option.some.injEq] at hroute
    have hzero : (0 : H256) = s.ancestor x k := congrArg (·.2.1) hroute
    exact h0 (hzero ▸ r.known_ancestor hx)

/-! ## A tree to evaluate on -/

/-- The genesis block 1, the blocks 2 and 3 over it, and the block 4 beside 2. -/
def twoBranches : BlockChain where
  details? h :=
    if h = 1 then some { number := 0, parent := 0 }
    else if h = 2 then some { number := 1, parent := 1 }
    else if h = 3 then some { number := 2, parent := 2 }
    else if h = 4 then some { number := 1, parent := 1 }
    else none
  nonces _ _ := 0
  lastBlockHash := 3
  lastBlockNumber := 2

instance (s : BlockChain) (h : H256) : Decidable (s.Known h) :=
  inferInstanceAs (Decidable ((s.details? h).isSome = true))

theorem known_twoBranches {h : H256} (hknown : twoBranches.Known h) :
    h = 1 ∨ h = 2 ∨ h = 3 ∨ h = 4 := by
  by_contra hnone
  simp only [not_or] at hnone
  have hdetails : twoBranches.details? h = none := by
    dsimp only [twoBranches]
    rw [if_neg hnone.1, if_neg hnone.2.1, if_neg hnone.2.2.1, if_neg hnone.2.2.2]
  rw [Known, hdetails] at hknown
  cases hknown

theorem rooted_twoBranches :
    Rooted twoBranches.Known twoBranches.parent twoBranches.number 1 where
  root_known := by decide +kernel
  root_height := by decide +kernel
  eq_root := by
    intro h hknown
    rcases known_twoBranches hknown with rfl | rfl | rfl | rfl <;> decide +kernel
  up := by
    intro h hknown
    rcases known_twoBranches hknown with rfl | rfl | rfl | rfl <;> decide +kernel

/-- From 3 to 4 the route goes over the genesis block. -/
theorem routesRight_three_four : twoBranches.RoutesRight 3 4 true true true := by
  have h0 : ¬twoBranches.Known 0 := by decide +kernel
  have hapart : twoBranches.Apart 3 4 := by
    intro n
    have hsteps : ∀ j ≤ 2, twoBranches.parent^[j] 3 ≠ 4 := by decide +kernel
    exact hsteps _ (Nat.sub_le 2 n)
  exact (routesRight_iff rooted_twoBranches h0 (by decide +kernel) (by decide +kernel)).mpr
    ⟨by decide +kernel, fun _ => ⟨rfl, fun _ => hapart⟩⟩

/-- From 3 down to 2 the route is the two blocks.  The ancestor, 2, is at index 1, and the
index is 2. -/
theorem index_behind_route : Rooted twoBranches.Known twoBranches.parent twoBranches.number 1 ∧
    ¬twoBranches.Known 0 ∧ twoBranches.Known 3 ∧ twoBranches.Known 2 ∧
    twoBranches.treeRouteWith 3 2 true true true = some ([3, 2], 2, 2) ∧
    ¬twoBranches.RoutesRight 3 2 true true true := by
  have hroute : twoBranches.treeRouteWith 3 2 true true true = some ([3, 2], 2, 2) := by
    decide +kernel
  refine ⟨rooted_twoBranches, by decide +kernel, by decide +kernel, by decide +kernel, hroute, ?_⟩
  rintro ⟨k, hlast, hright⟩
  rw [hroute, Option.some.injEq] at hright
  have hcommon : (2 : H256) = twoBranches.ancestor 3 k := congrArg (·.2.1) hright
  have hindex : 2 = twoBranches.number 3 - k := congrArg (·.2.2) hright
  have hk : k = 0 := by
    have hnumber : twoBranches.number 3 = 2 := by decide +kernel
    omega
  rw [hk] at hcommon
  revert hcommon
  decide +kernel

end CppSwc.BlockChain
