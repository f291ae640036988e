import Mathlib.Data.Nat.Basic
import CppSwc.Lib.Run
import CppSwc.Qpos.Frame

/-!
# Views

`voteTick` counts the view up, and `onVote` takes over a view only if it is
higher.  `onHeart` takes over the view of a heartbeat whatever it is.  So the view
of a node falls exactly when it handles a heartbeat of a lower view, which a
deposed leader may have sent long ago.
-/

namespace CppSwc

open Lib

namespace Qpos

/-- The state after one input. -/
def step (P : Prims) (self : NodeID) (s : Qpos) (input : Input) : Qpos :=
  (s.handle P self input).1

/-- The input is a heartbeat of a miner for a lower view. -/
def StaleHeart (s : Qpos) : Input → Prop
  | .interpret src (.heart view) _ _ =>
      s.aborted = false ∧ src ∈ s.miners ∧ view.toNat < s.currentView
  | _ => False

variable {P : Prims} {self src : NodeID} {now : Int} {s : Qpos}

theorem currentView_of_office {s t : Qpos} (h : s.office = t.office) :
    s.currentView = t.currentView :=
  congrArg Office.currentView h

theorem voteTick_currentView_le : s.currentView ≤ (s.voteTick now).1.currentView := by
  simp only [voteTick]
  split
  · exact Nat.le_refl _
  · split
    · exact Nat.le_refl _
    · exact Nat.le_succ _

theorem onVote_currentView_le (rand : Nat) (view number : UInt32) :
    s.currentView ≤ (s.onVote now rand src view number).1.currentView := by
  simp only [onVote]
  split
  · rename_i h
    exact Nat.le_of_lt h.1
  · exact Nat.le_refl _

@[simp] theorem onVoteAck_currentView (vote : Bool) :
    (s.onVoteAck src vote).1.currentView = s.currentView := by
  simp only [onVoteAck]
  split
  · rfl
  · dsimp only
    split <;> rfl

@[simp] theorem onBroadBlock_currentView (block : Rlp) :
    (s.onBroadBlock P block).1.currentView = s.currentView := by
  simp only [onBroadBlock]
  split
  · rfl
  · dsimp only
    split <;> rfl

@[simp] theorem reportBlock_currentView (number : UInt32) (force : Bool) :
    (s.reportBlock number force).currentView = s.currentView := by
  simp only [reportBlock]
  split <;> rfl

@[simp] theorem reportBlockSelf_currentView :
    (s.reportBlockSelf self now).currentView = s.currentView := by
  simp only [reportBlockSelf, resetConfig]
  split <;> split <;> try rfl
  all_goals split <;> rfl

/-- One input lowers the view exactly if it is a stale heartbeat. -/
theorem currentView_le_step_iff (s : Qpos) (input : Input) :
    s.currentView ≤ (s.step P self input).currentView ↔ ¬ s.StaleHeart input := by
  simp only [step, handle]
  cases hab : s.aborted with
  | true => cases input with
    | interpret _ packet _ _ => cases packet <;> simp [StaleHeart, hab]
    | _ => simp [StaleHeart]
  | false =>
      cases input with
      | tick now =>
          have h : (s.tick P self now).1.currentView = (s.voteTick now).1.currentView :=
            currentView_of_office tick_office
          simp [StaleHeart, h, voteTick_currentView_le]
      | interpret src packet now rand =>
          simp only [interpret]
          by_cases hsrc : src ∈ s.miners
          · cases packet with
            | blockVote view sig block =>
                simp [StaleHeart, hsrc, currentView_of_office (onBlockVote_office ..)]
            | blockVoteAck vote view sig _ =>
                simp [StaleHeart, hsrc, currentView_of_office (onBlockVoteAck_office ..)]
            | vote view number => simp [StaleHeart, hsrc, onVote_currentView_le]
            | voteAck vote => simp [StaleHeart, hsrc]
            | heart view => simp [StaleHeart, hsrc, hab, onHeart]
            | broadBlock block => simp [StaleHeart, hsrc]
          · cases packet <;> simp [StaleHeart, hsrc]
      | reportBlock number force => simp [StaleHeart]
      | reportBlockSelf now => simp [StaleHeart]
      | generateSeal block => simp [StaleHeart]
      | getMinerList nodes => simp [StaleHeart]

/-- **The view of a node never decreases along a run exactly if the run has no
stale heartbeat.** -/
theorem views_nondecreasing_iff (P : Prims) (self : NodeID) (s : Qpos) (inputs : List Input) :
    (trail (step P self) currentView s inputs).Pairwise (· ≤ ·) ↔
      Along (step P self) (fun s input => ¬ s.StaleHeart input) s inputs :=
  pairwise_trail_iff currentView_le_step_iff inputs s

/-- Node 2 grants node 1 the view 1, times out into view 2, and then handles the
heartbeat that node 1 sent as leader of view 1. -/
theorem view_decreases_on_stale_heart :
    ¬ (trail (step Prims.sample 2) currentView
        (start (Std.ExtTreeSet.ofList [(1 : NodeID), 2]))
        [.interpret 1 (.vote 1 0) 0 0, .tick 20000000, .interpret 1 (.heart 1) 20000001 0]).Pairwise
          (· ≤ ·) := by
  decide +kernel

end Qpos

end CppSwc
