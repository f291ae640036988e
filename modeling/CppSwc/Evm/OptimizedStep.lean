import CppSwc.Evm.Metering
import CppSwc.Evm.Optimize

/-!
# Steps of the optimized code

A step of the optimized code goes along with one of the plain code, up to the instruction
register (`alike_execOne`).  The program counter is always at a boundary, and behind a push
it finds the pushed number on the stack, so that a marked jump needs no check (`Steady`).

A large push is only as good as its number in the pool.  The offset has 16 bits, and from
the 65537th large push on it is that of an earlier one.  `Kept` says that this one has the
same value.
-/

namespace CppSwc.Evm

open Lib

variable {σ : Type} (c : Context σ)

namespace LegacyVM

/-! ## The program counter -/

/-- The program counter stays. -/
def StaysAt (s t : LegacyVM σ) : Prop := t.pc = s.pc

instance : Std.Refl (@StaysAt σ) where
  refl _ := rfl

instance : IsTrans (LegacyVM σ) StaysAt where
  trans _ _ _ hst htu := htu.trans hst

theorem stays_modify {f : LegacyVM σ → LegacyVM σ} (h : ∀ s, (f s).pc = s.pc) :
    Moves StaysAt (modify f : Action σ Unit) := Moves.modify h

theorem stays_toInt63 (v : Nat) : Moves StaysAt (toInt63 v : Action σ Nat) :=
  Moves.ite (Moves.throw _) (Moves.pure _)

theorem stays_gasForMem (size : Nat) : Moves StaysAt (gasForMem c size) :=
  Moves.ite (Moves.throw _) (stays_toInt63 _)

theorem stays_updateIOGas : Moves StaysAt (updateIOGas : Action σ Unit) :=
  Moves.bind Moves.get fun _ => Moves.bind (Moves.throwIf _ _) fun _ => stays_modify fun _ => rfl

theorem stays_updateMem (need : Nat) : Moves StaysAt (updateMem c need) := by
  refine Moves.bind (stays_modify fun _ => rfl) fun _ => Moves.bind ?_ fun _ =>
    stays_modify fun _ => rfl
  refine Moves.bind Moves.get fun s => Moves.bind (Moves.runIf ?_) fun _ => ?_
  · refine Moves.bind (stays_gasForMem c _) fun _ => Moves.bind (stays_gasForMem c _) fun _ => ?_
    exact Moves.bind (stays_toInt63 _) fun _ => stays_modify fun _ => rfl
  · exact Moves.bind (stays_modify fun _ => rfl) fun _ => Moves.bind Moves.get fun _ =>
      Moves.throwIf _ _

/-- The payment for memory. -/
theorem stays_useMem (offset size : U256) :
    Moves StaysAt (do
      let need ← memNeed offset size
      updateMem c need
      updateIOGas : Action σ Unit) :=
  Moves.bind (stays_toInt63 _) fun _ => Moves.bind (stays_updateMem c _) fun _ => stays_updateIOGas

theorem stays_payPrice (gas : Nat) : Moves StaysAt (payPrice gas : Action σ Unit) :=
  Moves.bind (stays_modify fun _ => rfl) fun _ => stays_updateIOGas

theorem stays_payCopy (offset size : Nat) : Moves StaysAt (payCopy c offset size) :=
  Moves.bind Moves.get fun _ => Moves.bind (stays_toInt63 _) fun _ =>
    Moves.bind (stays_modify fun _ => rfl) fun _ => stays_useMem c _ _

theorem stays_accessMem (size : Nat) : Moves StaysAt (accessMem c size) :=
  Moves.bind Moves.get fun _ => Moves.bind (stays_toInt63 _) fun _ =>
    Moves.bind (stays_updateMem c _) fun _ => stays_updateIOGas

/-- A payment leaves the program counter. -/
theorem stays_pay (i : Instruction) : Moves StaysAt (pay c i) := by
  cases i with
  | create | create2 =>
      refine Moves.bind (Moves.throwIf _ _) fun _ => ?_
      exact Moves.bind (stays_modify fun _ => rfl) fun _ => Moves.bind Moves.get fun _ =>
        stays_useMem c _ _
  | ret =>
      exact Moves.bind Moves.get fun _ => Moves.bind (stays_modify fun _ => rfl) fun _ =>
        stays_useMem c _ _
  | revert =>
      exact Moves.bind (Moves.throwIf _ _) fun _ => Moves.bind Moves.get fun _ =>
        Moves.bind (stays_modify fun _ => rfl) fun _ => stays_useMem c _ _
  | suicide =>
      refine Moves.bind (Moves.throwIf _ _) fun _ => ?_
      exact Moves.bind (stays_modify fun _ => rfl) fun _ => Moves.bind Moves.get fun _ =>
        Moves.bind (Moves.runIf (stays_modify fun _ => rfl)) fun _ => stays_updateIOGas
  | mload | mstore | mstore8 => exact stays_accessMem c _
  | sha3 =>
      exact Moves.bind Moves.get fun _ => Moves.bind (stays_toInt63 _) fun _ =>
        Moves.bind (stays_modify fun _ => rfl) fun _ => stays_useMem c _ _
  | log n =>
      refine Moves.bind (Moves.throwIf _ _) fun _ => Moves.bind ?_ fun _ => stays_updateIOGas
      exact Moves.bind Moves.get fun _ => Moves.bind (stays_toInt63 _) fun _ =>
        Moves.bind (stays_modify fun _ => rfl) fun _ => Moves.bind (stays_toInt63 _) fun _ =>
          stays_updateMem c _
  | exp => exact Moves.bind Moves.get fun _ => stays_payPrice _
  | shl | shr | sar | returndatasize =>
      exact Moves.bind (Moves.throwIf _ _) fun _ => stays_updateIOGas
  | balance | extcodesize | blockhash | sload | jumpdest => exact stays_payPrice _
  | calldatacopy | codecopy => exact stays_payCopy c _ _
  | returndatacopy =>
      exact Moves.bind (Moves.throwIf _ _) fun _ => Moves.bind Moves.get fun _ =>
        Moves.bind (Moves.throwIf _ _) fun _ => stays_payCopy c _ _
  | extcodecopy => exact Moves.bind (stays_modify fun _ => rfl) fun _ => stays_payCopy c _ _
  | pushc | jumpc | jumpci => exact Moves.ite stays_updateIOGas (Moves.throw _)
  | sstore =>
      refine Moves.bind (Moves.throwIf _ _) fun _ => Moves.bind ?_ fun _ => stays_updateIOGas
      refine Moves.bind Moves.get fun _ => Moves.ite (stays_modify fun _ => rfl) (Moves.ite ?_ ?_)
      · exact Moves.bind (stays_modify fun _ => rfl) fun _ => stays_modify fun _ => rfl
      · exact stays_modify fun _ => rfl
  | invalid | unsupported _ => exact Moves.throw _
  | _ => exact stays_updateIOGas

theorem stays_payCall : Moves StaysAt (payCall c) := by
  refine Moves.bind ?_ fun _ => Moves.bind (stays_modify fun _ => rfl) fun _ =>
    Moves.bind ?_ fun _ => ?_
  · exact Moves.bind Moves.get fun _ => Moves.bind (Moves.runIf (Moves.throwIf _ _)) fun _ =>
      Moves.bind (Moves.runIf (Moves.throwIf _ _)) fun _ => Moves.throwIf _ _
  · refine Moves.bind (stays_modify fun _ => rfl) fun _ => Moves.bind Moves.get fun _ => ?_
    refine Moves.bind (Moves.runIf (stays_modify fun _ => rfl)) fun _ => ?_
    refine Moves.bind (Moves.runIf (stays_modify fun _ => rfl)) fun _ => ?_
    exact Moves.bind (stays_toInt63 _) fun _ => Moves.bind (stays_toInt63 _) fun _ =>
      Moves.bind (stays_updateMem c _) fun _ => stays_updateIOGas
  · exact Moves.bind Moves.get fun _ => Moves.bind (stays_toInt63 _) fun _ =>
      Moves.bind (stays_modify fun _ => rfl) fun _ => Moves.bind stays_updateIOGas fun _ =>
        Moves.pure _

/-! ## Where an instruction goes on -/

theorem Advances.after_payment {α : Type} {m : Action σ α} {f : α → Action σ (Option Bytes)}
    (hm : Moves StaysAt m) (hf : ∀ a, Advances (f a)) : Advances (m >>= f) := by
  intro s t h
  obtain ⟨a, u, hfirst, hsecond⟩ := bind_eq_ok.mp h
  have hstays : u.pc = s.pc := hm.ends hfirst
  rw [hf a u t hsecond, hstays]

theorem advances_callRest (gas : U256) : Advances (callRest c gas) := by
  refine advances_next fun s => ?_
  unfold finishCall
  split <;> rfl

/-- An instruction that does not set the program counter goes on with the next one. -/
theorem advances_interpretCases {i : Instruction} (hi : straight i = true) :
    Advances (interpretCases c i) := by
  cases hcall : isCall i with
  | true =>
      rw [interpretCases_call c hcall, caseCall_eq]
      exact Advances.after_payment (stays_payCall c) (advances_callRest c)
  | false =>
      obtain ⟨f, hf, heq⟩ := interpretCases_eq c i hcall
      rw [heq]
      exact Advances.after_payment (stays_pay c i) fun _ => hf.advances hi

/-- A step that ends well is an instruction that fits. -/
theorem execOne_ok {s t : LegacyVM σ} {a : Option Bytes} (h : execOne c s = .ok a t) :
    interpretCases c (opAt c.program.code s.pc) (ready c s) = .ok a t := by
  rw [execOne] at h
  rcases fetchInstruction_spec c s with ⟨-, hfetch⟩ | ⟨-, e, u, -, hfetch⟩
  · rw [bind_of_ok hfetch, get_bind] at h
    exact h
  · rw [bind_of_error hfetch] at h
    cases h

theorem isJumpDest_iff {dests : List Nat} {dest : U256} :
    isJumpDest dests dest = true ↔ dest.toNat ≤ 0x7FFFFFFFFFFFFFFF ∧ dest.toNat ∈ dests := by
  simp [isJumpDest]

theorem verifyJumpDest_ok {dest : U256} {s t : LegacyVM σ} {u : Unit}
    (h : verifyJumpDest c dest s = .ok u t) : t.pc ∈ c.program.jumpDests := by
  rw [verifyJumpDest] at h
  split at h
  · next hdest =>
      cases h
      exact (isJumpDest_iff.mp hdest).2
  · cases h

/-- Where the execution goes on: with the next instruction, behind a push with its number on
the stack, or at a jump destination. -/
inductive Arrives (program : Program) (s t : LegacyVM σ) : Prop where
  | falls (hpc : t.pc = following program.code s.pc)
      (hnumber : ∀ n, opAt program.code s.pc = .push n → t.sp 0 = pushed program.code s.pc n)
  | jumps (h : t.pc ∈ program.jumpDests)

/-- An instruction that is not a push goes on with the next one. -/
theorem Arrives.of_next {program : Program} {s t : LegacyVM σ}
    (hpush : ∀ n, opAt program.code s.pc ≠ .push n) (hpc : t.pc = s.pc + 1) :
    Arrives program s t := by
  refine .falls ?_ fun n hn => absurd hn (hpush n)
  rw [hpc, following_of_not_push hpush]

theorem arrives_execOne {s t : LegacyVM σ} (hop : ¬Synthetic (opAt c.program.code s.pc))
    (h : execOne c s = .ok none t) : Arrives c.program s t := by
  have hcase := execOne_ok c h
  cases hs : opAt c.program.code s.pc with
  | push n =>
      rw [hs] at hcase
      obtain ⟨_, u, hpaid, hpush⟩ := bind_eq_ok.mp hcase
      obtain ⟨-, rfl⟩ := updateIOGas_eq_ok.mp hpaid
      cases hpush
      refine .falls ?_ fun m hm => ?_
      · rw [following_of_push hs]
        rfl
      · rw [hs] at hm
        cases hm
        rfl
  | jump =>
      rw [hs] at hcase
      obtain ⟨_, u, -, hjump⟩ := bind_eq_ok.mp hcase
      rw [get_bind] at hjump
      obtain ⟨_, v, hverify, hnext⟩ := bind_eq_ok.mp hjump
      cases hnext
      exact .jumps (verifyJumpDest_ok c hverify)
  | jumpi =>
      rw [hs] at hcase
      obtain ⟨_, u, hpaid, hjump⟩ := bind_eq_ok.mp hcase
      obtain ⟨-, rfl⟩ := updateIOGas_eq_ok.mp hpaid
      rw [get_bind] at hjump
      split at hjump
      · obtain ⟨_, v, hverify, hnext⟩ := bind_eq_ok.mp hjump
        cases hnext
        exact .jumps (verifyJumpDest_ok c hverify)
      · cases hjump
        exact .of_next (by simp [hs]) rfl
  | pushc | jumpc | jumpci =>
      rw [hs] at hop
      exact absurd (by decide) hop
  | _ =>
      rw [hs] at hcase
      have hnext : t.pc = s.pc + 1 := advances_interpretCases c rfl (ready c s) t hcase
      exact .of_next (by simp [hs]) hnext

end LegacyVM

/-! ## The two builds -/

namespace Context

/-- The build with or without `EVM_OPTIMIZE`. -/
abbrev built (optimized : Bool) : Context σ := { c with optimized }

theorem program_built (optimized : Bool) :
    (c.built optimized).program = optimize optimized c.message.code := rfl

end Context

namespace LegacyVM

variable {c}

/-- The machine without its instruction register. -/
def forget (s : LegacyVM σ) : LegacyVM σ := { s with op := .stop }

/-- The result without the instruction register of its machine. -/
def forgetIn {α : Type} :
    EStateM.Result VMException (LegacyVM σ) α → EStateM.Result VMException (LegacyVM σ) α
  | .ok a s => .ok a s.forget
  | .error e s => .error e s.forget

/-- The results agree up to the instruction register. -/
def Alike {α : Type} (r r' : EStateM.Result VMException (LegacyVM σ) α) : Prop :=
  forgetIn r = forgetIn r'

/-- The next instruction does not depend on the register. -/
theorem execOne_forget (s : LegacyVM σ) : execOne c s.forget = execOne c s := rfl

/-- What the execution of an instruction is, after its checks. -/
theorem execOne_if (s : LegacyVM σ) :
    execOne c s =
      if s.stack.length < (opAt c.program.code s.pc).metric.args then
        .error .stackUnderflow (fetched c s)
      else if 1024 < s.stack.length - (opAt c.program.code s.pc).metric.args +
          (opAt c.program.code s.pc).metric.ret then .error .outOfStack (fetched c s)
      else interpretCases c (opAt c.program.code s.pc) (ready c s) := by
  have hfetch := fetchInstruction_eq c s
  rw [execOne]
  split
  · next hargs => exact bind_of_error (hfetch.trans (if_pos hargs))
  · next hargs =>
      have hfetch := hfetch.trans (if_neg hargs)
      split
      · next hfit => exact bind_of_error (hfetch.trans (if_pos hfit))
      · next hfit => exact bind_of_ok (hfetch.trans (if_neg hfit))

theorem updateIOGas_eq (s : LegacyVM σ) :
    updateIOGas s = if s.ioGas < s.runGas then .error .outOfGas s
      else .ok ⟨⟩ { s with ioGas := s.ioGas - s.runGas } := by
  split
  · next hlt =>
      rw [updateIOGas, get_bind]
      exact bind_of_error (throwIf_of hlt)
  · next hle => exact updateIOGas_of_le (Nat.le_of_not_lt hle)

/-- Two instructions with the same metric that agree after their checks. -/
theorem alike_execOne_of_metric {d : Context σ} {s : LegacyVM σ}
    (hmetric : (opAt c.program.code s.pc).metric = (opAt d.program.code s.pc).metric)
    (h : execOne d s = interpretCases d (opAt d.program.code s.pc) (ready d s) →
      Alike (interpretCases c (opAt c.program.code s.pc) (ready c s))
        (interpretCases d (opAt d.program.code s.pc) (ready d s))) :
    Alike (execOne c s) (execOne d s) := by
  have hc := execOne_if (c := c) s
  have hd := execOne_if (c := d) s
  rw [hmetric] at hc
  by_cases hargs : s.stack.length < (opAt d.program.code s.pc).metric.args
  · rw [hc, hd, if_pos hargs, if_pos hargs]
    rfl
  · rw [if_neg hargs] at hc hd
    by_cases hfit : 1024 < s.stack.length - (opAt d.program.code s.pc).metric.args +
        (opAt d.program.code s.pc).metric.ret
    · rw [hc, hd, if_pos hfit, if_pos hfit]
      rfl
    · rw [if_neg hfit] at hc hd
      rw [hc, hd]
      exact h hd

/-- Two instructions that pay their base cost and agree after it. -/
theorem alike_updateIOGas {α : Type} {m m' : Action σ α} {s t : LegacyVM σ}
    (hst : s.forget = t.forget)
    (h : t.runGas ≤ t.ioGas →
      Alike (m { s with ioGas := s.ioGas - s.runGas })
        (m' { t with ioGas := t.ioGas - t.runGas })) :
    Alike ((do updateIOGas; m) s) ((do updateIOGas; m') t) := by
  have hgas : s.ioGas = t.ioGas := congrArg (·.ioGas) hst
  have hrun : s.runGas = t.runGas := congrArg (·.runGas) hst
  by_cases hlt : t.ioGas < t.runGas
  · rw [bind_of_error ((updateIOGas_eq s).trans (if_pos (hgas ▸ hrun ▸ hlt))),
      bind_of_error ((updateIOGas_eq t).trans (if_pos hlt))]
    show EStateM.Result.error VMException.outOfGas s.forget = .error .outOfGas t.forget
    rw [hst]
  · rw [bind_of_ok ((updateIOGas_eq s).trans (if_neg (hgas ▸ hrun ▸ hlt))),
      bind_of_ok ((updateIOGas_eq t).trans (if_neg hlt))]
    exact h (Nat.le_of_not_lt hlt)

/-- The push of a number that stands in `n` bytes. -/
def pushNumber (val : U256) (n : Nat) : Action σ (Option Bytes) := do
  updateIOGas
  modify fun s => { s.setSPP val with pc := s.pc + n + 1 }
  pure none

theorem interpretCases_push (n : Nat) (s : LegacyVM σ) :
    interpretCases c (.push n) s = pushNumber (pushed c.program.code s.pc n) n s := by
  refine bind_congr_ok fun _ t ht => ?_
  obtain ⟨-, rfl⟩ := updateIOGas_eq_ok.mp ht
  rfl

theorem verifyJumpDest_of {dest : U256} (hdest : isJumpDest c.program.jumpDests dest = true)
    (s : LegacyVM σ) : verifyJumpDest c dest s = .ok ⟨⟩ { s.dropArgs with pc := dest.toNat } := by
  rw [verifyJumpDest, if_pos hdest]
  rfl

/-- A jump to `dest` that is taken if there is a condition. -/
def jumpTo (dest : Nat) (taken : Bool) : Action σ (Option Bytes) := do
  updateIOGas
  modify fun s => { s.dropArgs with pc := if taken then dest else s.pc + 1 }
  pure none

/-- A jump whose destination is one. -/
theorem interpretCases_jump {s : LegacyVM σ}
    (hdest : isJumpDest c.program.jumpDests (s.sp 0) = true) :
    interpretCases c .jump s = jumpTo (s.sp 0).toNat true s := by
  refine bind_congr_ok fun _ t ht => ?_
  obtain ⟨-, rfl⟩ := updateIOGas_eq_ok.mp ht
  exact bind_of_ok (verifyJumpDest_of hdest _)

/-- A conditional jump whose destination is one. -/
theorem interpretCases_jumpi {s : LegacyVM σ}
    (hdest : isJumpDest c.program.jumpDests (s.sp 0) = true) :
    interpretCases c .jumpi s = jumpTo (s.sp 0).toNat (s.sp 1 ≠ 0) s := by
  refine bind_congr_ok fun _ t ht => ?_
  have hsp : ∀ i, t.sp i = s.sp i := by
    obtain ⟨-, rfl⟩ := updateIOGas_eq_ok.mp ht
    exact fun _ => rfl
  rw [get_bind, hsp, hsp]
  by_cases hcond : s.sp 1 ≠ 0
  · rw [if_pos hcond, bind_of_ok (verifyJumpDest_of hdest t), decide_eq_true hcond]
    rfl
  · rw [if_neg hcond, decide_eq_false hcond]
    rfl

/-- A jump that the optimizer has marked. -/
theorem interpretCases_jumpc (s : LegacyVM σ) :
    interpretCases (c.built true) .jumpc s = jumpTo ((s.sp 0).toNat % 2 ^ 64) true s := by
  refine bind_congr_ok fun _ t ht => ?_
  obtain ⟨-, rfl⟩ := updateIOGas_eq_ok.mp ht
  rfl

theorem interpretCases_jumpci (s : LegacyVM σ) :
    interpretCases (c.built true) .jumpci s =
      jumpTo ((s.sp 0).toNat % 2 ^ 64) (s.sp 1 ≠ 0) s := by
  refine bind_congr_ok fun _ t ht => ?_
  obtain ⟨-, rfl⟩ := updateIOGas_eq_ok.mp ht
  simp only [decide_eq_true_eq]
  rfl

/-- The build matters for pushes, jumps and what the optimizer makes. -/
theorem interpretCases_built {i : Instruction} (hi : straight i = true) :
    interpretCases (c.built true) i = interpretCases (c.built false) i := by
  cases i with
  | push n | pushc | jump | jumpi | jumpc | jumpci => cases hi
  | _ => rfl

theorem jumpDests_built (c : Context σ) :
    (c.built true).program.jumpDests = (c.built false).program.jumpDests :=
  (optimize_spec c.message.code).1

theorem verifyJumpDest_built (dest : U256) :
    verifyJumpDest (c.built true) dest = verifyJumpDest (c.built false) dest := by
  rw [verifyJumpDest, verifyJumpDest, jumpDests_built]

theorem ready_eq (s : LegacyVM σ) :
    ready c s =
      { s with
        op := opAt c.program.code s.pc
        runGas := (c.schedule.tierGas (opAt c.program.code s.pc).metric.gasPriceTier).toNat
        newMemSize := s.mem.length
        copyMemSize := 0 } := rfl

theorem ready_pc (s : LegacyVM σ) : (ready c s).pc = s.pc := rfl

theorem ready_sp (s : LegacyVM σ) (i : Nat) : (ready c s).sp i = s.sp i := rfl

/-! ## Steps of the two builds -/

/-- The program counter is at a boundary, and a jump behind a push finds the pushed number on
the stack. -/
structure Steady (code : Bytes) (s : LegacyVM σ) : Prop where
  boundary : Boundary (plain code).code s.pc
  number : ∀ val, Follows (plain code).code s.pc val →
    opAt (plain code).code s.pc = .jump ∨ opAt (plain code).code s.pc = .jumpi → s.sp 0 = val

theorem steady_execOne {s t : LegacyVM σ} (hs : Steady c.message.code s)
    (h : execOne (c.built false) s = .ok none t) : Steady c.message.code t := by
  obtain ⟨hordinary, hdests⟩ := plain_spec c.message.code
  rcases arrives_execOne (c.built false) (hordinary s.pc hs.boundary) h with ⟨hpc, hnumber⟩ | hjump
  · refine ⟨hpc ▸ hs.boundary.next, fun val hfollows _ => ?_⟩
    obtain ⟨p, n, hp, hop, hfollowing, rfl⟩ := hfollows
    have hsame : p = s.pc := hp.following_inj hs.boundary (hfollowing.trans hpc)
    subst hsame
    exact hnumber n hop
  · obtain ⟨hboundary, hop⟩ := (hdests t.pc).mp hjump
    refine ⟨hboundary, fun val _ hjump => ?_⟩
    rw [hop] at hjump
    rcases hjump with hjump | hjump <;> cases hjump

/-- A push at `pc` of more than five bytes has the value of the push that its offset in the
pool refers to. -/
def Kept (code : Bytes) (pc : Nat) : Prop :=
  ∀ k e, (largePushes code)[k]? = some e → e.1 = pc →
    ((largePushes code)[k % 2 ^ 16]?).map Prod.snd = some e.2

/-- A push of up to five bytes does not refer to the pool. -/
theorem kept_of_small {code : Bytes} {pc : Nat} (h : (opAt (plain code).code pc).pushBytes ≤ 5) :
    Kept code pc := by
  intro k e hk hpc
  have hlarge := mem_largePushesFrom _ _ (List.mem_of_getElem? hk)
  rw [hpc] at hlarge
  omega

/-- The offsets do not wrap if there are not too many such pushes. -/
theorem kept_of_length_le {code : Bytes} (h : (largePushes code).length ≤ 2 ^ 16) (pc : Nat) :
    Kept code pc := by
  intro k e hk _
  have hlt := (List.getElem?_eq_some_iff.mp hk).1
  rw [Nat.mod_eq_of_lt (Nat.lt_of_lt_of_le hlt h), hk]
  rfl

/-- An instruction that is as before. -/
theorem alike_same {s : LegacyVM σ}
    (hordinary : ¬Synthetic (opAt (c.built false).program.code s.pc))
    (h : ∀ j, s.pc ≤ j → j < following (c.built false).program.code s.pc →
      (c.built true).program.code[j]? = (c.built false).program.code[j]?) :
    Alike (execOne (c.built true) s) (execOne (c.built false) s) := by
  have hop := opAt_congr (h s.pc (Nat.le_refl _) (lt_following _ _))
  refine alike_execOne_of_metric (by rw [hop]) fun _ => ?_
  have hready : ready (c.built true) s = ready (c.built false) s := by
    rw [ready_eq, ready_eq, hop]
  rw [hop, hready]
  cases hs : opAt (c.built false).program.code s.pc with
  | push n =>
      rw [following_of_push hs] at h
      rw [interpretCases_push, interpretCases_push, ready_pc,
        pushed_congr fun j hlo hhi => h j (Nat.le_of_lt hlo) (Nat.lt_succ_of_le hhi)]
      rfl
  | jump =>
      rw [interpretCases, interpretCases]
      simp only [verifyJumpDest_built]
      rfl
  | jumpi =>
      rw [interpretCases, interpretCases]
      simp only [verifyJumpDest_built]
      rfl
  | pushc | jumpc | jumpci =>
      rw [hs] at hordinary
      exact absurd (by decide) hordinary
  | _ =>
      rw [interpretCases_built rfl]
      rfl

/-- The number of two bytes. -/
theorem ofNat_div_mul_add_mod {k : Nat} (hk : k < 2 ^ 16) :
    (UInt8.ofNat (k / 256)).toNat * 256 + (UInt8.ofNat (k % 256)).toNat = k := by
  rw [UInt8.toNat_ofNat', UInt8.toNat_ofNat', Nat.mod_eq_of_lt (by omega),
    Nat.mod_eq_of_lt (by omega)]
  omega

/-- A pooled push, which reads the value that its offset in the pool refers to. -/
theorem interpretCases_pushc {s : LegacyVM σ} {n k : Nat} (hn : n ≤ 32) (hlarge : 5 < n)
    (hrest : (c.built true).program.code[s.pc + 3]? = some (UInt8.ofNat (n - 2)))
    (hhigh : (c.built true).program.code[s.pc + 1]? = some (UInt8.ofNat (k % 2 ^ 16 / 256)))
    (hlow : (c.built true).program.code[s.pc + 2]? = some (UInt8.ofNat (k % 2 ^ 16 % 256))) :
    interpretCases (c.built true) .pushc s =
      pushNumber ((c.built true).program.pool.getD (k % 2 ^ 16) 0) n s := by
  refine bind_congr_ok fun _ t ht => ?_
  obtain ⟨-, rfl⟩ := updateIOGas_eq_ok.mp ht
  have hoff := ofNat_div_mul_add_mod (k := k % 2 ^ 16) (Nat.mod_lt _ (by decide))
  have hskip : s.pc + 3 + (UInt8.ofNat (n - 2)).toNat = s.pc + n + 1 := by
    rw [UInt8.toNat_ofNat', Nat.mod_eq_of_lt (by omega)]
    omega
  simp only [modify_bind, List.getD_eq_getElem?_getD, hrest, hhigh, hlow, Option.getD_some, hoff,
    hskip]

/-- `PUSH32` has the most bytes. -/
theorem pushBytes_ofByte (b : UInt8) : (Instruction.ofByte b).pushBytes ≤ 32 := by
  have hall : ∀ i : Fin 256, (Instruction.ofByte (.ofNat i)).pushBytes ≤ 32 := by decide +kernel
  have h := hall ⟨b.toNat, b.toNat_lt⟩
  rwa [UInt8.ofNat_toNat] at h

/-- A push of more than five bytes that has become a reference to the pool. -/
theorem interpretCases_pooled {s : LegacyVM σ} {n : Nat}
    (h : Pooled (c.built false).program.code (largePushes c.message.code)
      (c.built true).program.code s.pc n) :
    ∃ k, (largePushes c.message.code)[k]? =
        some (s.pc, pushed (c.built false).program.code s.pc n) ∧
      interpretCases (c.built true) .pushc (ready (c.built true) s) =
        pushNumber ((c.built true).program.pool.getD (k % 2 ^ 16) 0) n (ready (c.built true) s) := by
  obtain ⟨k, hk, hhigh, hlow⟩ := h.offset
  have hn : n ≤ 32 := by
    have hbytes := pushBytes_ofByte ((c.built false).program.code.getD s.pc 0)
    rwa [show Instruction.ofByte _ = Instruction.push n from h.op] at hbytes
  exact ⟨k, hk, interpretCases_pushc (s := ready (c.built true) s) hn h.large h.rest hhigh hlow⟩

theorem pool_getD (c : Context σ) {k : Nat} {val : U256}
    (h : ((largePushes c.message.code)[k]?).map Prod.snd = some val) :
    (c.built true).program.pool.getD k 0 = val := by
  rw [List.getD_eq_getElem?_getD, c.program_built, (optimize_spec c.message.code).2.1,
    List.getElem?_map, h, Option.getD_some]

theorem alike_pooled {s : LegacyVM σ} {n : Nat}
    (hkept : ∀ t, execOne (c.built false) s = .ok none t → Kept c.message.code s.pc)
    (h : Pooled (c.built false).program.code (largePushes c.message.code)
      (c.built true).program.code s.pc n) :
    Alike (execOne (c.built true) s) (execOne (c.built false) s) := by
  obtain ⟨k, hk, hpushc⟩ := interpretCases_pooled h
  have hop : opAt (c.built true).program.code s.pc = .pushc := opAt_of_getElem? h.pooled
  have hold : opAt (c.built false).program.code s.pc = .push n := h.op
  refine alike_execOne_of_metric (by rw [hop, hold]; rfl) fun hexec => ?_
  rw [hold, interpretCases_push] at hexec
  rw [hop, hold, interpretCases_push, hpushc]
  refine alike_updateIOGas (by rw [ready_eq, ready_eq, hop, hold]; rfl) fun hle => ?_
  -- a push that is paid goes on
  have hkept := hkept _ (hexec.trans (bind_of_ok (updateIOGas_of_le hle)))
  rw [pool_getD c (hkept k _ hk rfl), ready_eq, ready_eq, hop, hold]
  rfl

/-- A jump behind the push of a verified destination. -/
theorem alike_marked {s : LegacyVM σ} {b : UInt8} (hs : Steady c.message.code s)
    (h : MarkedJump (c.built false).program.code (c.built false).program.jumpDests s.pc b)
    (hb : (c.built true).program.code[s.pc]? = some b) :
    Alike (execOne (c.built true) s) (execOne (c.built false) s) := by
  obtain ⟨⟨val, hfollows, hdest⟩, hjump⟩ := h
  have hold : opAt (c.built false).program.code s.pc = .jump ∨
      opAt (c.built false).program.code s.pc = .jumpi := hjump.imp And.left And.left
  obtain rfl : s.sp 0 = val := hs.number val hfollows hold
  have hpc : (s.sp 0).toNat % 2 ^ 64 = (s.sp 0).toNat := by
    have hle := (isJumpDest_iff.mp hdest).1
    omega
  rcases hjump with ⟨hold, rfl⟩ | ⟨hold, rfl⟩
  · have hop : opAt (c.built true).program.code s.pc = .jumpc := opAt_of_getElem? hb
    have hjump := interpretCases_jump (s := ready (c.built false) s) hdest
    refine alike_execOne_of_metric (by rw [hop, hold]; rfl) fun _ => ?_
    rw [hop, hold, interpretCases_jumpc, hjump, ready_sp, ready_sp, hpc, ready_eq, ready_eq, hop,
      hold]
    exact alike_updateIOGas rfl fun _ => rfl
  · have hop : opAt (c.built true).program.code s.pc = .jumpci := opAt_of_getElem? hb
    have hjump := interpretCases_jumpi (s := ready (c.built false) s) hdest
    refine alike_execOne_of_metric (by rw [hop, hold]; rfl) fun _ => ?_
    rw [hop, hold, interpretCases_jumpci, hjump, ready_sp, ready_sp, ready_sp, ready_sp, hpc,
      ready_eq, ready_eq, hop, hold]
    exact alike_updateIOGas rfl fun _ => rfl

/-- **A step of the optimized code** goes along with one of the plain code, up to the
instruction register. -/
theorem alike_execOne {s : LegacyVM σ} (hs : Steady c.message.code s)
    (hkept : ∀ t, execOne (c.built false) s = .ok none t → Kept c.message.code s.pc) :
    Alike (execOne (c.built true) s) (execOne (c.built false) s) := by
  cases (optimize_spec c.message.code).2.2 s.pc hs.boundary with
  | same _ h => exact alike_same ((plain_spec c.message.code).1 s.pc hs.boundary) h
  | pooled h => exact alike_pooled hkept h
  | marked h hb => exact alike_marked hs h hb

theorem pushNumber_ok {val : U256} {n : Nat} {s t : LegacyVM σ} {a : Option Bytes}
    (h : pushNumber val n s = .ok a t) : t.sp 0 = val := by
  obtain ⟨_, u, -, hpush⟩ := bind_eq_ok.mp h
  cases hpush
  rfl

theorem Alike.ok {α : Type} {r r' : EStateM.Result VMException (LegacyVM σ) α} {a : α}
    {t : LegacyVM σ} (h : Alike r r') (hr' : r' = .ok a t) :
    ∃ u, r = .ok a u ∧ u.forget = t.forget := by
  subst hr'
  cases r with
  | ok b u =>
      injection h with hab hut
      exact ⟨u, by rw [hab], hut⟩
  | error e u => cases h

/-- Where the two builds push alike, the number is the one that the offset refers to. -/
theorem kept_of_alike {s t : LegacyVM σ} (hs : Steady c.message.code s)
    (h : Alike (execOne (c.built true) s) (execOne (c.built false) s))
    (hplain : execOne (c.built false) s = .ok none t) : Kept c.message.code s.pc := by
  intro k e hk hpc
  have hlarge : 5 < (opAt (plain c.message.code).code s.pc).pushBytes :=
    hpc ▸ mem_largePushesFrom _ _ (List.mem_of_getElem? hk)
  cases (optimize_spec c.message.code).2.2 s.pc hs.boundary with
  | same hsmall _ => exact absurd hlarge (Nat.not_lt_of_le hsmall)
  | marked hmarked _ =>
      rcases hmarked.2 with ⟨hjump, -⟩ | ⟨hjump, -⟩
      · rw [hjump] at hlarge
        exact absurd hlarge (by decide)
      · rw [hjump] at hlarge
        exact absurd hlarge (by decide)
  | @pooled n hpooled =>
      obtain ⟨k', hk', hpushc⟩ := interpretCases_pooled hpooled
      obtain rfl : k = k' := largePushes_inj hk hk' hpc
      obtain rfl : e = (s.pc, pushed (c.built false).program.code s.pc n) :=
        Option.some.inj (hk.symm.trans hk')
      have hop : opAt (c.built true).program.code s.pc = .pushc := opAt_of_getElem? hpooled.pooled
      have hold : opAt (c.built false).program.code s.pc = .push n := hpooled.op
      obtain ⟨u, hu, hut⟩ := h.ok hplain
      have hplain := execOne_ok (c.built false) hplain
      have hu := execOne_ok (c.built true) hu
      rw [hold, interpretCases_push] at hplain
      rw [hop, hpushc] at hu
      have hstack : u.stack = t.stack := congrArg (·.stack) hut
      have hsame : u.sp 0 = t.sp 0 := by rw [sp, sp, hstack]
      rw [pushNumber_ok hplain, pushNumber_ok hu] at hsame
      obtain ⟨hlt, -⟩ := List.getElem?_eq_some_iff.mp hk
      have hoff : k % 2 ^ 16 < (largePushes c.message.code).length :=
        Nat.lt_of_le_of_lt (Nat.mod_le _ _) hlt
      have hvalue := List.getElem?_eq_getElem hoff
      rw [pool_getD c (by rw [hvalue]; rfl)] at hsame
      rw [hvalue]
      exact congrArg some hsame

end LegacyVM

end CppSwc.Evm
