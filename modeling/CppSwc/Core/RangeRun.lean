import CppSwc.Core.RangeSet

/-!
# Operations on range masks

The masks of a program are numbered, so that a mask can be united with another one, taken out of
another one, or out of itself.  A `Session` is the masks together with the sets that the same
operations on sets give.

`operator-=` inverts the mask before it reads its operand.  A mask that is taken out of itself
is therefore united with its own complement, and is what it was before (`minus_self`).
-/

namespace CppSwc

open Lib Lib.Ranges

/-- What is united with a mask or taken out of it. -/
inductive Operand where
  | element (i : ℕ)
  | range (r : ℕ × ℕ)
  | mask (j : ℕ)

/-- A call of a public member. -/
inductive MaskOp where
  /-- A new mask with a ground range. -/
  | ground (i : ℕ) (c : ℕ × ℕ)
  | unionWith (i : ℕ) (o : Operand)
  /-- `operator-=`. -/
  | minus (i : ℕ) (o : Operand)
  | invert (i : ℕ)
  /-- The mask `j` becomes `inverted()` of the mask `i`. -/
  | inverted (i j : ℕ)
  | clear (i : ℕ)
  | next (i t : ℕ)
  | lowest (i n : ℕ)

/-! ## The masks -/

namespace RangeMask

/-- `operator+=`. -/
def unite (masks : ℕ → RangeMask) (i : ℕ) : Operand → Option RangeMask
  | .element x => (masks i).unionWithElement x
  | .range r => (masks i).unionWithRange r
  | .mask j => (masks i).unionWith (masks j)

/-- `operator-=`.  The operand is read after the mask is inverted. -/
def subtract (masks : ℕ → RangeMask) (i : ℕ) (o : Operand) : Option RangeMask :=
  (unite (Function.update masks i (masks i).inverted) i o).map inverted

def step (masks : ℕ → RangeMask) : MaskOp → Option (ℕ → RangeMask)
  | .ground i c => some (Function.update masks i (ground c))
  | .unionWith i o => (unite masks i o).map (Function.update masks i)
  | .minus i o => (subtract masks i o).map (Function.update masks i)
  | .invert i => some (Function.update masks i (masks i).inverted)
  | .inverted i j => some (Function.update masks j (masks i).inverted)
  | .clear i => some (Function.update masks i (masks i).clear)
  | .next _ _ => some masks
  | .lowest _ _ => some masks

end RangeMask

/-! ## The sets -/

namespace GroundSet

/-- The elements of an operand. -/
def operandElems (sets : ℕ → GroundSet) : Operand → Finset ℕ
  | .element x => {x}
  | .range r => Finset.Ico r.1 r.2
  | .mask j => (sets j).elems

/-- An operand is in a ground range. -/
def Holds (sets : ℕ → GroundSet) (S : GroundSet) : Operand → Prop
  | .element x => S.first ≤ x ∧ x < S.second
  | .range r => r.2 ≤ r.1 ∨ S.first ≤ r.1 ∧ r.2 ≤ S.second
  | .mask j => S.first ≤ (sets j).first ∧ (sets j).second ≤ S.second

def step (sets : ℕ → GroundSet) : MaskOp → ℕ → GroundSet
  | .ground i c => Function.update sets i ⟨c.1, c.2, ∅⟩
  | .unionWith i o =>
      Function.update sets i { sets i with elems := (sets i).elems ∪ operandElems sets o }
  | .minus i o =>
      Function.update sets i { sets i with elems := (sets i).elems \ operandElems sets o }
  | .invert i => Function.update sets i (sets i).complement
  | .inverted i j => Function.update sets j (sets i).complement
  | .clear i => Function.update sets i { sets i with elems := ∅ }
  | .next _ _ => sets
  | .lowest _ _ => sets

end GroundSet

/-- The masks of a program, and the sets that they should keep. -/
structure RangeSession where
  masks : ℕ → RangeMask
  sets : ℕ → GroundSet

namespace RangeSession

def start : RangeSession := ⟨fun _ => {}, fun _ => ⟨0, 0, ∅⟩⟩

def next (s : RangeSession) (op : MaskOp) : RangeSession :=
  ⟨(RangeMask.step s.masks op).getD s.masks, GroundSet.step s.sets op⟩

/-- The arguments are in the ground range, and numbers are values of `unsigned`. -/
def Proper (s : RangeSession) : MaskOp → Prop
  | .ground _ c => c.1 ≤ c.2 ∧ c.2 < 2 ^ 32
  | .unionWith i o => (s.sets i).Holds s.sets o
  | .minus i o => (s.sets i).Holds s.sets o
  | .next _ t => t < 2 ^ 32
  | .lowest _ n => n < 2 ^ 32
  | _ => True

end RangeSession

/-- A mask and the set that it should keep give the same answers. -/
structure RangeMask.Agrees (m : RangeMask) (S : GroundSet) : Prop where
  represents : m.Represents S
  contains_eq : ∀ x, m.contains x = decide (x ∈ S.elems)
  full_eq : m.full = decide (S.elems = S.groundElems)
  size_eq : m.size = S.elems.card
  iterate_begin : ∀ fuel, S.elems.card < fuel → m.iterate fuel m.begin = some S.elems.sort
  firstOut_eq : m.firstOut = S.firstOut

theorem RangeMask.Represents.agrees {m : RangeMask} {S : GroundSet} (h : m.Represents S) :
    m.Agrees S :=
  ⟨h, h.contains_eq, h.full_eq, h.size_eq, fun _ hfuel => h.iterate_begin hfuel, h.firstOut_eq⟩

namespace RangeSession

/-- The masks keep the sets. -/
def Kept (s : RangeSession) : Prop := ∀ i, (s.masks i).Represents (s.sets i)

/-- A call succeeds, all masks agree with the sets after it, and what it returns is right. -/
def Right (s : RangeSession) (op : MaskOp) : Prop :=
  (∃ masks', RangeMask.step s.masks op = some masks' ∧
    ∀ i, (masks' i).Agrees (GroundSet.step s.sets op i)) ∧
  match op with
  | .next i t => (s.masks i).next t = (s.sets i).next t
  | .lowest i n => ((s.masks i).lowest n).Represents ((s.sets i).lowest n)
  | _ => True

/-- No mask with elements is taken out of itself, and `next` and `lowest` do not wrap. -/
def Sound (s : RangeSession) : MaskOp → Prop
  | .minus i (.mask j) => i = j → (s.sets i).elems = ∅
  | .next i t => t + 1 < 2 ^ 32 ∨ (s.sets i).elems = ∅
  | .lowest i n => (s.sets i).Fits n
  | _ => True

variable {s : RangeSession} {i j : ℕ} {o : Operand} {op : MaskOp}

/-! ## One call -/

theorem represents_update {masks : ℕ → RangeMask} {sets : ℕ → GroundSet} {m : RangeMask}
    {S : GroundSet} (h : ∀ k, (masks k).Represents (sets k)) (hm : m.Represents S) (k : ℕ) :
    (Function.update masks i m k).Represents (Function.update sets i S k) := by
  rcases eq_or_ne k i with rfl | hne
  · rwa [Function.update_self, Function.update_self]
  · rw [Function.update_of_ne hne, Function.update_of_ne hne]
    exact h k

/-- An operand in the ground range is united. -/
theorem represents_unite {masks : ℕ → RangeMask} {sets : ℕ → GroundSet}
    (h : ∀ k, (masks k).Represents (sets k)) (hin : (sets i).Holds sets o) :
    ∃ m, RangeMask.unite masks i o = some m ∧
      m.Represents { sets i with elems := (sets i).elems ∪ GroundSet.operandElems sets o } := by
  cases o with
  | element x =>
      have hlt := (h i).second_lt
      obtain ⟨hfirst, hsecond⟩ := hin
      have hnext : (x + 1) % 2 ^ 32 = x + 1 := Nat.mod_eq_of_lt (by omega)
      obtain ⟨m, hrun, hm⟩ := (h i).unionWithRange (r := (x, x + 1)) (.inr ⟨hfirst, hsecond⟩)
      refine ⟨m, ?_, ?_⟩
      · rw [RangeMask.unite, RangeMask.unionWithElement, hnext, hrun]
      · rwa [Nat.Ico_succ_singleton] at hm
  | range r => exact (h i).unionWithRange hin
  | mask j => exact (h i).unionWith (h j) hin.1 hin.2

/-- What is left when the complement is united with a set and complemented again. -/
theorem sdiff_eq_complement_union {S : GroundSet} (h : S.elems ⊆ S.groundElems) (T : Finset ℕ) :
    S.elems \ T = S.groundElems \ ((S.groundElems \ S.elems) ∪ T) := by
  refine Finset.ext fun x => ?_
  have hx : x ∈ S.elems → x ∈ S.groundElems := fun hx => h hx
  simp only [Finset.mem_sdiff, Finset.mem_union]
  tauto

theorem subset_groundElems {m : RangeMask} {S : GroundSet} (h : m.Represents S) :
    S.elems ⊆ S.groundElems := fun x hx => Finset.mem_Ico.mpr (h.mem_ground x hx)

/-- What is taken out is the operand as it is after the mask is inverted. -/
theorem represents_subtract {masks : ℕ → RangeMask} {sets : ℕ → GroundSet}
    (h : ∀ k, (masks k).Represents (sets k)) (hin : (sets i).Holds sets o) :
    ∃ m, RangeMask.subtract masks i o = some m ∧
      m.Represents { sets i with
        elems := (sets i).elems \
          GroundSet.operandElems (Function.update sets i (sets i).complement) o } := by
  have hinv := represents_update (i := i) h (h i).inverted
  have hin' : (Function.update sets i (sets i).complement i).Holds
      (Function.update sets i (sets i).complement) o := by
    rw [Function.update_self]
    cases o with
    | element x => exact hin
    | range r => exact hin
    | mask j =>
        rcases eq_or_ne j i with rfl | hne
        · simp only [GroundSet.Holds, Function.update_self, le_refl, and_self]
        · simp only [GroundSet.Holds, Function.update_of_ne hne]
          exact hin
  obtain ⟨m, hrun, hm⟩ := represents_unite hinv hin'
  rw [Function.update_self] at hm
  refine ⟨m.inverted, by rw [RangeMask.subtract, hrun]; rfl, ?_⟩
  rw [sdiff_eq_complement_union (subset_groundElems (h i))]
  exact hm.inverted

/-- A mask that is taken out of itself is what it was. -/
theorem minus_self {masks : ℕ → RangeMask} {sets : ℕ → GroundSet}
    (h : ∀ k, (masks k).Represents (sets k)) (i : ℕ) :
    ∃ m, RangeMask.subtract masks i (.mask i) = some m ∧ m.Represents (sets i) := by
  obtain ⟨m, hrun, hm⟩ := represents_subtract h (i := i) (o := .mask i) ⟨le_rfl, le_rfl⟩
  refine ⟨m, hrun, ?_⟩
  have hsame : (sets i).elems \ (sets i).complement.elems = (sets i).elems :=
    Finset.sdiff_eq_self_of_disjoint Finset.disjoint_sdiff
  rwa [GroundSet.operandElems, Function.update_self, hsame] at hm

theorem operandElems_update (hne : o ≠ .mask i) (sets : ℕ → GroundSet) (S : GroundSet) :
    GroundSet.operandElems (Function.update sets i S) o = GroundSet.operandElems sets o := by
  cases o with
  | element x => rfl
  | range r => rfl
  | mask j =>
      have hji : j ≠ i := fun heq => hne (congrArg _ heq)
      simp only [GroundSet.operandElems, Function.update_of_ne hji]

theorem represents_unique {m : RangeMask} {S T : GroundSet} (h : m.Represents S)
    (h' : m.Represents T) : S.elems = T.elems :=
  Finset.ext fun x => (h.covers_iff x).symm.trans (h'.covers_iff x)

/-- A call that keeps the sets succeeds, and the masks agree with the sets. -/
theorem exists_step (h : s.Kept) (hin : s.Proper op) (hok : s.Sound op) :
    ∃ masks', RangeMask.step s.masks op = some masks' ∧
      ∀ i, (masks' i).Represents (GroundSet.step s.sets op i) := by
  cases op with
  | ground i c => exact ⟨_, rfl, represents_update h (RangeMask.represents_ground hin.1 hin.2)⟩
  | unionWith i o =>
      obtain ⟨m, hrun, hm⟩ := represents_unite h hin
      exact ⟨_, by rw [RangeMask.step, hrun]; rfl, represents_update h hm⟩
  | minus i o =>
      by_cases hself : o = .mask i
      · subst hself
        obtain ⟨m, hrun, hm⟩ := minus_self h i
        have hempty : (s.sets i).elems = ∅ := hok rfl
        refine ⟨_, by rw [RangeMask.step, hrun]; rfl, represents_update h ?_⟩
        rwa [hempty, Finset.empty_sdiff, ← hempty]
      · obtain ⟨m, hrun, hm⟩ := represents_subtract h hin
        rw [operandElems_update hself] at hm
        exact ⟨_, by rw [RangeMask.step, hrun]; rfl, represents_update h hm⟩
  | invert i => exact ⟨_, rfl, represents_update h (h i).inverted⟩
  | inverted i j => exact ⟨_, rfl, represents_update h (h i).inverted⟩
  | clear i => exact ⟨_, rfl, represents_update h (h i).clear⟩
  | next i t => exact ⟨_, rfl, h⟩
  | lowest i n => exact ⟨_, rfl, h⟩

/-- A call is right exactly if it is sound. -/
theorem right_iff_sound (h : s.Kept) (hin : s.Proper op) : s.Right op ↔ s.Sound op := by
  constructor
  · rintro ⟨⟨masks', hrun, hagrees⟩, hanswer⟩
    cases op with
    | minus i o =>
        cases o with
        | mask j =>
            rintro rfl
            obtain ⟨m, hself, hm⟩ := minus_self h i
            rw [RangeMask.step, hself, Option.map_some, Option.some.injEq] at hrun
            have hrep := (hagrees i).represents
            rw [← hrun, Function.update_self, GroundSet.step, Function.update_self] at hrep
            rw [represents_unique hm hrep]
            exact Finset.sdiff_self _
        | element x => trivial
        | range r => trivial
    | next i t => exact ((h i).next_eq_iff hin).mp hanswer
    | lowest i n => exact ((h i).lowest_iff hin).mp hanswer
    | ground i c => trivial
    | unionWith i o => trivial
    | invert i => trivial
    | inverted i j => trivial
    | clear i => trivial
  · intro hok
    obtain ⟨masks', hrun, hrep⟩ := exists_step h hin hok
    refine ⟨⟨masks', hrun, fun i => (hrep i).agrees⟩, ?_⟩
    cases op with
    | next i t => exact ((h i).next_eq_iff hin).mpr hok
    | lowest i n => exact ((h i).lowest_iff hin).mpr hok
    | ground i c => trivial
    | unionWith i o => trivial
    | minus i o => trivial
    | invert i => trivial
    | inverted i j => trivial
    | clear i => trivial

/-! ## Runs -/

theorem kept_start : start.Kept := fun _ => RangeMask.represents_ground le_rfl (by decide)

theorem kept_next (h : s.Kept) (hin : s.Proper op) (hok : s.Sound op) : (s.next op).Kept := by
  obtain ⟨masks', hrun, hrep⟩ := exists_step h hin hok
  intro i
  rw [next, hrun]
  exact hrep i

/-- The masks are sets throughout a run, and all answers are right, exactly if no mask with
elements is taken out of itself and no call of `next` or `lowest` wraps. -/
theorem right_along_iff (ops : List MaskOp) (hin : Along next Proper start ops) :
    Along next Right start ops ↔ Along next Sound start ops :=
  along_iff (fun _ _ => right_iff_sound) (fun _ _ => kept_next) ops kept_start hin

/-- The run of the example below. -/
def selfMinus : List MaskOp :=
  [.ground 0 (0, 10), .unionWith 0 (.element 3), .minus 0 (.mask 0)]

theorem right_along_iff_selfMinus :
    Along next Proper start selfMinus ∧
      (Along next Right start selfMinus ↔ Along next Sound start selfMinus) := by
  have hin : Along next Proper start selfMinus := by
    simp [selfMinus, Along, Proper, GroundSet.Holds, next, GroundSet.step]
  exact ⟨hin, right_along_iff _ hin⟩

/-- An element is still there after its mask is taken out of itself. -/
theorem selfMinus_wrong :
    Along next Proper start selfMinus ∧ ¬Along next Right start selfMinus := by
  have hin : Along next Proper start selfMinus := by
    simp [selfMinus, Along, Proper, GroundSet.Holds, next, GroundSet.step]
  refine ⟨hin, fun h => ?_⟩
  obtain ⟨⟨masks', hrun, hagrees⟩, -⟩ := h.2.2.1
  have hkept : ((RangeMask.step (start.next (.ground 0 (0, 10)) |>.next (.unionWith 0 (.element 3))).masks
      (.minus 0 (.mask 0))).map fun masks => (masks 0).contains 3) = some true := by
    decide +kernel
  rw [hrun, Option.map_some, Option.some.injEq, (hagrees 0).contains_eq] at hkept
  revert hkept
  simp [next, GroundSet.step, GroundSet.operandElems]

end RangeSession

end CppSwc
