import CppSwc.Evm.OptimizedStep
import CppSwc.Evm.VMFace

/-!
# Optimized code runs as it is written

`optimized_alike_iff` follows both builds from the start of `exec`: they agree after every
number of instructions if and only if every push of more than five bytes that is executed
has the value that its offset in the pool refers to.  With at most `2 ^ 16` such pushes in
the code this is always so (`legacyVM_built`).

The last section has a code with one more, which jumps over the first `2 ^ 16`.
-/

namespace CppSwc.Evm

open Lib

variable {σ : Type} (c : Context σ)

namespace Execution

open LegacyVM

/-- The execution without the instruction register of its machine. -/
def forget : Execution σ → Execution σ
  | .running s => .running s.forget
  | .returned output s => .returned output s.forget
  | .thrown e s => .thrown e s.forget

theorem vm_forget (x : Execution σ) : x.forget.vm = x.vm.forget := by
  cases x with
  | running s | returned output s | thrown e s => rfl

theorem outcome_forget (x : Execution σ) : x.forget.outcome = x.outcome := by
  cases x with
  | running s | returned output s | thrown e s => rfl

/-- The execution after one more instruction, unless it has ended. -/
def proceed (c : Context σ) (x : Execution σ) : Execution σ := (x.step c).getD x

/-- The execution that a result of an instruction gives. -/
def ofResult : EStateM.Result VMException (LegacyVM σ) (Option Bytes) → Execution σ
  | .ok none s => .running s
  | .ok (some output) s => .returned output s
  | .error e s => .thrown e s

theorem run_eq (c : Context σ) (n : Nat) (x : Execution σ) : run c n x = (proceed c)^[n] x := by
  induction n generalizing x with
  | zero => rfl
  | succ n ih =>
      rw [run, Function.iterate_succ_apply]
      cases hstep : x.step c with
      | some y =>
          rw [proceed, hstep]
          exact ih y
      | none =>
          have hends : proceed c x = x := by rw [proceed, hstep, Option.getD_none]
          rw [hends, Function.iterate_fixed hends]

theorem run_succ (c : Context σ) (n : Nat) (x : Execution σ) :
    run c (n + 1) x = proceed c (run c n x) := by
  rw [run_eq, run_eq, Function.iterate_succ_apply']

theorem proceed_running (s : LegacyVM σ) : proceed c (running s) = ofResult (execOne c s) := by
  rw [proceed, step]
  rcases execOne c s with ⟨_ | output, t⟩ | ⟨e, t⟩ <;> rfl

theorem proceed_returned (output : Bytes) (s : LegacyVM σ) :
    proceed c (returned output s) = returned output s := rfl

theorem proceed_thrown (e : VMException) (s : LegacyVM σ) :
    proceed c (thrown e s) = thrown e s := rfl

theorem forget_ofResult (r : EStateM.Result VMException (LegacyVM σ) (Option Bytes)) :
    (ofResult r).forget = ofResult (forgetIn r) := by
  rcases r with ⟨_ | output, t⟩ | ⟨e, t⟩ <;> rfl

theorem ofResult_eq_running {r : EStateM.Result VMException (LegacyVM σ) (Option Bytes)}
    {s : LegacyVM σ} (h : ofResult r = .running s) : r = .ok none s := by
  rcases r with ⟨_ | output, t⟩ | ⟨e, t⟩
  · cases h
    rfl
  · cases h
  · cases h

theorem ofResult_inj {r r' : EStateM.Result VMException (LegacyVM σ) (Option Bytes)}
    (h : ofResult r = ofResult r') : r = r' := by
  rcases r with ⟨_ | output, s⟩ | ⟨e, s⟩ <;> rcases r' with ⟨_ | output', t⟩ | ⟨e', t⟩ <;>
    cases h <;> rfl

/-- The next instruction does not depend on the register. -/
theorem forget_proceed {x y : Execution σ} (h : x.forget = y.forget) :
    (proceed c x).forget = (proceed c y).forget := by
  have hforget : ∀ z : Execution σ, (proceed c z).forget = (proceed c z.forget).forget := by
    intro z
    cases z with
    | running s => rw [forget, proceed_running, proceed_running, execOne_forget]
    | returned output s => rfl
    | thrown e s => rfl
  rw [hforget x, hforget y, h]

theorem forget_run {c : Context σ} {x y : Execution σ} (h : x.forget = y.forget) (n : Nat) :
    (run c n x).forget = (run c n y).forget := by
  induction n with
  | zero => exact h
  | succ n ih =>
      rw [run_succ, run_succ]
      exact forget_proceed c ih

/-- Every push of more than five bytes that goes on within `n` instructions has the value that
its offset in the pool refers to. -/
def KeptAlong (n : Nat) (x : Execution σ) : Prop :=
  ∀ m < n, ∀ s t, run (c.built false) m x = .running s →
    run (c.built false) (m + 1) x = .running t → Kept c.message.code s.pc

/-- The executions of plain code from a steady machine. -/
theorem steady_run {x : Execution σ} (hsteady : ∀ s, x = .running s → Steady c.message.code s)
    (n : Nat) (s : LegacyVM σ) (h : run (c.built false) n x = .running s) :
    Steady c.message.code s := by
  induction n generalizing s with
  | zero => exact hsteady s h
  | succ n ih =>
      rw [run_succ] at h
      cases hrun : run (c.built false) n x with
      | running r =>
          rw [hrun, proceed_running] at h
          exact steady_execOne (ih r hrun) (ofResult_eq_running h)
      | returned output r =>
          rw [hrun, proceed_returned] at h
          cases h
      | thrown e r =>
          rw [hrun, proceed_thrown] at h
          cases h

/-- **The two builds run alike** up to the register. -/
theorem alike_run {x : Execution σ} (hsteady : ∀ s, x = .running s → Steady c.message.code s)
    (n : Nat) (hkept : KeptAlong c n x) :
    (run (c.built true) n x).forget = (run (c.built false) n x).forget := by
  induction n with
  | zero => rfl
  | succ n ih =>
      have ih := ih fun m hm => hkept m (Nat.lt_succ_of_lt hm)
      have hkept := hkept n (Nat.lt_succ_self n)
      rw [run_succ] at hkept
      rw [run_succ, run_succ, forget_proceed _ ih]
      cases hrun : run (c.built false) n x with
      | running s =>
          rw [hrun, proceed_running] at hkept
          rw [proceed_running, proceed_running, forget_ofResult, forget_ofResult]
          refine congrArg ofResult (alike_execOne (steady_run c hsteady n s hrun) fun t ht => ?_)
          exact hkept s t rfl (by rw [ht]; rfl)
      | returned output s => rfl
      | thrown e s => rfl

/-- A machine at the start of a code. -/
theorem steady_of_zero {c : Context σ} {s : LegacyVM σ} (h : s.pc = 0) :
    Steady c.message.code s := by
  refine ⟨h ▸ Boundary.zero _, fun val hfollows _ => ?_⟩
  obtain ⟨p, -, -, -, hfollowing, -⟩ := hfollows
  have hlt := lt_following (plain c.message.code).code p
  rw [hfollowing, h] at hlt
  exact absurd hlt (Nat.not_lt_zero p)

/-- **Optimized code runs as it is written** if and only if every push of more than five bytes
that is executed has the value that its offset in the pool refers to. -/
theorem optimized_alike_iff (c : Context σ) (gas : U256) (vm : LegacyVM σ) (n : Nat) :
    (∀ m ≤ n, (run (c.built true) m (start gas vm)).forget =
        (run (c.built false) m (start gas vm)).forget) ↔ KeptAlong c n (start gas vm) := by
  have hsteady : ∀ s, start gas vm = .running s → Steady c.message.code s := by
    intro s hs
    cases hs
    exact steady_of_zero rfl
  constructor
  · intro halike m hm s t hs ht
    have hforget := forget_proceed (c.built true) (halike m (Nat.le_of_lt hm))
    have hnext := halike (m + 1) hm
    rw [run_succ] at ht
    rw [run_succ, run_succ, hforget] at hnext
    rw [hs, proceed_running] at ht
    rw [hs, proceed_running, proceed_running, forget_ofResult, forget_ofResult] at hnext
    exact kept_of_alike (steady_run c hsteady m s hs) (ofResult_inj hnext) (ofResult_eq_running ht)
  · intro hkept m hm
    exact alike_run c hsteady m fun k hk => hkept k (Nat.lt_of_lt_of_le hk hm)

/-- Code with at most `2 ^ 16` pushes of more than five bytes has the same result, output, gas
and world in both builds. -/
theorem legacyVM_built (c : Context σ) (h : (largePushes c.message.code).length ≤ 2 ^ 16)
    (fuel : Nat) (gas : U256) (w : σ) :
    ((legacyVM fuel).exec (c.built true) gas w).1.outcome =
        ((legacyVM fuel).exec (c.built false) gas w).1.outcome ∧
      ((legacyVM fuel).exec (c.built true) gas w).1.gas =
        ((legacyVM fuel).exec (c.built false) gas w).1.gas ∧
      ((legacyVM fuel).exec (c.built true) gas w).2 =
        ((legacyVM fuel).exec (c.built false) gas w).2 := by
  have halike := alike_run c (x := start gas { ioGas := 0, ext := w })
    (fun s hs => by cases hs; exact steady_of_zero rfl) fuel
    fun _ _ s _ _ _ => kept_of_length_le h s.pc
  have hvm := congrArg vm halike
  rw [vm_forget, vm_forget] at hvm
  refine ⟨?_, ?_, ?_⟩
  · show (run (c.built true) fuel _).outcome = (run (c.built false) fuel _).outcome
    rw [← outcome_forget, halike, outcome_forget]
  · exact congrArg (fun s => BitVec.ofNat 256 s.ioGas) hvm
  · exact congrArg (·.ext) hvm

/-! ## A pool that wraps -/

theorem run_running {c : Context σ} {s t : LegacyVM σ} (h : execOne c s = .ok none t) (n : Nat) :
    run c (n + 1) (running s) = run c n (running t) := by
  rw [run, step, h]

theorem run_returned {c : Context σ} {s t : LegacyVM σ} {output : Bytes}
    (h : execOne c s = .ok (some output) t) (n : Nat) :
    run c (n + 1) (running s) = returned output t := by
  rw [run, step, h]
  cases n with
  | zero => rfl
  | succ n => rfl

theorem run_add (c : Context σ) (m n : Nat) (x : Execution σ) :
    run c (m + n) x = run c n (run c m x) := by
  rw [run_eq, run_eq, run_eq, Nat.add_comm, Function.iterate_add_apply]

/-- The code of `n` pushes of six zero bytes. -/
def zeroPushes (n : Nat) : Bytes := (List.replicate n [0x65, 0, 0, 0, 0, 0, 0]).flatten

/-- The code that jumps over `2 ^ 16` pushes of six bytes, pushes the size 1 with six bytes,
and returns the memory from 0 on. -/
def wrappingCode : Bytes :=
  [0x63, 0, 7, 0, 6, 0x56] ++ zeroPushes 65536 ++ [0x5b, 0x65, 0, 0, 0, 0, 0, 1, 0x60, 0, 0xf3]

theorem length_zeroPushes (n : Nat) : (zeroPushes n).length = 7 * n := by
  rw [zeroPushes, List.length_flatten, List.map_replicate, List.sum_replicate_nat]
  exact Nat.mul_comm n 7

theorem length_wrappingCode : wrappingCode.length = 458769 := by
  rw [wrappingCode, List.length_append, List.length_append, length_zeroPushes]
  rfl

theorem zeroPushes_add (m n : Nat) : zeroPushes (m + n) = zeroPushes m ++ zeroPushes n := by
  rw [zeroPushes, List.replicate_add, List.flatten_append]
  rfl

theorem ordinary_wrappingCode : ∀ b ∈ wrappingCode, ¬Synthetic (.ofByte b) := by
  have hzero : ∀ b ∈ zeroPushes 65536, ¬Synthetic (.ofByte b) := by
    intro b hb
    obtain ⟨l, hl, hb⟩ := List.mem_flatten.mp hb
    have hall : ∀ b ∈ [(0x65 : UInt8), 0, 0, 0, 0, 0, 0], ¬Synthetic (.ofByte b) := by
      decide +kernel
    exact hall b (List.eq_of_mem_replicate hl ▸ hb)
  rw [wrappingCode, List.forall_mem_append, List.forall_mem_append]
  exact ⟨⟨by decide +kernel, hzero⟩, by decide +kernel⟩

/-- The code for the plain build. -/
theorem plain_wrappingCode : (plain wrappingCode).code =
    [0x63, 0, 7, 0, 6, 0x56] ++ (zeroPushes 65536 ++
      ([0x5b, 0x65, 0, 0, 0, 0, 0, 1, 0x60, 0, 0xf3] ++ List.replicate 33 0)) := by
  rw [plain_of_ordinary ordinary_wrappingCode, wrappingCode, List.append_assoc, List.append_assoc]

/-- The skipped pushes. -/
theorem zeroPush_at {j : Nat} (hj : j < 65536) :
    opAt (plain wrappingCode).code (6 + 7 * j) = .push 6 ∧
      pushed (plain wrappingCode).code (6 + 7 * j) 6 = 0 := by
  obtain ⟨i, hi⟩ := Nat.exists_eq_add_of_lt hj
  have hsplit : ∃ rest, (plain wrappingCode).code =
      ([0x63, 0, 7, 0, 6, 0x56] ++ zeroPushes j) ++ 0x65 :: 0 :: 0 :: 0 :: 0 :: 0 :: 0 :: rest := by
    refine ⟨zeroPushes i ++
      ([0x5b, 0x65, 0, 0, 0, 0, 0, 1, 0x60, 0, 0xf3] ++ List.replicate 33 0), ?_⟩
    rw [plain_wrappingCode, hi, Nat.add_assoc, zeroPushes_add, Nat.add_comm i 1, zeroPushes_add 1 i]
    simp only [List.append_assoc, List.cons_append, List.nil_append]
    rfl
  obtain ⟨rest, hrest⟩ := hsplit
  have hlength : ([0x63, 0, 7, 0, 6, 0x56] ++ zeroPushes j : Bytes).length + 0 = 6 + 7 * j := by
    rw [List.length_append, length_zeroPushes]
    rfl
  rw [hrest, ← hlength, opAt_append, pushed_append]
  exact ⟨rfl, rfl⟩

/-- The code behind the skipped pushes. -/
theorem wrapping_tail :
    opAt (plain wrappingCode).code 458758 = .jumpdest ∧
      opAt (plain wrappingCode).code 458759 = .push 6 ∧
      pushed (plain wrappingCode).code 458759 6 = 1 ∧
      opAt (plain wrappingCode).code 458766 = .push 1 ∧
      pushed (plain wrappingCode).code 458766 1 = 0 ∧
      opAt (plain wrappingCode).code 458768 = .ret := by
  have hlength : ([0x63, 0, 7, 0, 6, 0x56] ++ zeroPushes 65536 : Bytes).length = 458758 := by
    rw [List.length_append, length_zeroPushes]
    rfl
  rw [plain_wrappingCode, ← List.append_assoc]
  generalize ([0x63, 0, 7, 0, 6, 0x56] ++ zeroPushes 65536 : Bytes) = pre at hlength ⊢
  rw [show 458758 = pre.length + 0 by omega, show 458759 = pre.length + 1 by omega,
    show 458766 = pre.length + 8 by omega, show 458768 = pre.length + 10 by omega]
  simp only [opAt_append, pushed_append]
  decide

theorem wrapping_head : opAt (plain wrappingCode).code 0 = .push 4 ∧
    pushed (plain wrappingCode).code 0 4 = 458758 ∧ opAt (plain wrappingCode).code 5 = .jump := by
  rw [plain_wrappingCode]
  exact ⟨rfl, rfl, rfl⟩

theorem boundary_zeroPush {j : Nat} (hj : j ≤ 65536) :
    Boundary (plain wrappingCode).code (6 + 7 * j) := by
  induction j with
  | zero =>
      obtain ⟨hpush, -, hjump⟩ := wrapping_head
      have hfirst := (Boundary.zero (plain wrappingCode).code).next
      rw [following_of_push hpush] at hfirst
      have hsecond := hfirst.next
      rwa [following_of_not_push (by rw [hjump]; exact fun _ h => by cases h)] at hsecond
  | succ j ih =>
      have hnext := (ih (by omega)).next
      rwa [following_of_push (zeroPush_at (by omega)).1,
        show 6 + 7 * j + 6 + 1 = 6 + 7 * (j + 1) by omega] at hnext

/-- The skipped pushes in the pool. -/
theorem largePushesFrom_zeroPushes {i j : Nat} (hij : j + i ≤ 65536) (fuel : Nat) :
    (largePushesFrom (plain wrappingCode).code 458769 (i + fuel) (6 + 7 * j)).map Prod.snd =
      List.replicate i 0 ++
        (largePushesFrom (plain wrappingCode).code 458769 fuel (6 + 7 * (j + i))).map Prod.snd := by
  induction i generalizing j with
  | zero => simp
  | succ i ih =>
      obtain ⟨hop, hzero⟩ := zeroPush_at (show j < 65536 by omega)
      have hnext := ih (j := j + 1) (by omega)
      rw [show i + 1 + fuel = i + fuel + 1 by omega, largePushesFrom, if_neg (by omega), hop,
        following_of_push hop, Instruction.pushBytes, largeAt, if_pos (by decide), hzero,
        show 6 + 7 * j + 6 + 1 = 6 + 7 * (j + 1) by omega, List.map_append, hnext,
        show j + 1 + i = j + (i + 1) by omega]
      rfl

/-- The first `2 ^ 16` numbers of the pool are zero. -/
theorem wrapping_pool {k : Nat} (hk : k < 65536) :
    ((largePushes wrappingCode)[k]?).map Prod.snd = some 0 := by
  obtain ⟨hpush, -, hjump⟩ := wrapping_head
  have hskipped := largePushesFrom_zeroPushes (i := 65536) (j := 0) (by decide) 393231
  have hstart : largePushes wrappingCode =
      largePushesFrom (plain wrappingCode).code 458769 (65536 + 393231) (6 + 7 * 0) := by
    rw [largePushes, length_wrappingCode, show 458769 = 65536 + 393231 + 1 + 1 from rfl,
      largePushesFrom, largePushesFrom, if_neg (by decide), hpush, following_of_push hpush,
      if_neg (by decide), show 0 + 4 + 1 = 5 from rfl, hjump,
      following_of_not_push (by rw [hjump]; exact fun _ h => by cases h),
      show largeAt (plain wrappingCode).code 0 (Instruction.push 4).pushBytes = [] from rfl,
      show largeAt (plain wrappingCode).code 5 Instruction.jump.pushBytes = [] from rfl,
      List.nil_append, List.nil_append]
  rw [← List.getElem?_map, hstart, hskipped,
    List.getElem?_append_left (by rwa [List.length_replicate]), List.getElem?_replicate, if_pos hk]

/-- The code under the newest schedule. -/
def wrapping : Context Unit where
  optimized := true
  schedule := .constantinople
  message := { code := wrappingCode }
  env := {}
  host := idleHost
  sha3 _ := 0

/-- A machine without memory. -/
structure At (s : LegacyVM σ) (pc : Nat) (stack : List U256) (gas : Nat) : Prop where
  pc : s.pc = pc
  stack : s.stack = stack
  mem : s.mem = []
  ioGas : s.ioGas = gas

section At

variable {c : Context σ} {s : LegacyVM σ} {pc gas : Nat} {stack : List U256}
  (hc : c.schedule = .constantinople) (hs : At s pc stack gas)

include hc hs

/-- A push, pooled or not. -/
theorem at_pushNumber {op : Instruction} {val : U256} {n : Nat} (hop : opAt c.program.code pc = op)
    (hmetric : op.metric = ⟨.veryLow, 0, 1⟩)
    (hcase : interpretCases c op (ready c s) = pushNumber val n (ready c s))
    (hroom : stack.length < 1024) (hgas : 3 ≤ gas) :
    ∃ t, execOne c s = .ok none t ∧ At t (pc + n + 1) (val :: stack) (gas - 3) := by
  obtain ⟨rfl, rfl, hmem, rfl⟩ := hs
  subst hop
  have hrun : (ready c s).runGas = 3 := by
    rw [ready_eq, hmetric, hc]
    rfl
  have hpaid := updateIOGas_of_le (s := ready c s) (by rw [hrun]; exact hgas)
  have hfits : ¬1024 < s.stack.length - 0 + 1 := by omega
  rw [execOne_if, hmetric, if_neg (Nat.not_lt_zero _), if_neg hfits, hcase]
  refine ⟨_, bind_of_ok hpaid, rfl, ?_, hmem, ?_⟩
  · show val :: (s.stack.drop (opAt c.program.code s.pc).metric.args) = _
    rw [hmetric]
    rfl
  · show s.ioGas - (ready c s).runGas = _
    rw [hrun]

theorem at_push {n : Nat} (hop : opAt c.program.code pc = .push n) (hroom : stack.length < 1024)
    (hgas : 3 ≤ gas) :
    ∃ t, execOne c s = .ok none t ∧
      At t (pc + n + 1) (pushed c.program.code pc n :: stack) (gas - 3) := by
  refine at_pushNumber hc hs hop rfl ?_ hroom hgas
  rw [interpretCases_push, ready_pc, hs.pc]

theorem at_jump {dest : U256} {rest : List U256} (hstack : stack = dest :: rest)
    (hop : opAt c.program.code pc = .jump)
    (hdest : isJumpDest c.program.jumpDests dest = true)
    (hroom : rest.length ≤ 1024) (hgas : 8 ≤ gas) :
    ∃ t, execOne c s = .ok none t ∧ At t dest.toNat rest (gas - 8) := by
  obtain ⟨rfl, rfl, hmem, rfl⟩ := hs
  have hrun : (ready c s).runGas = 8 := by
    rw [ready_eq, hop, hc]
    rfl
  have hsp : s.sp 0 = dest := by
    rw [sp, hstack]
    rfl
  have hcase := interpretCases_jump (s := ready c s) (by rw [ready_sp, hsp]; exact hdest)
  have hpaid := updateIOGas_of_le (s := ready c s) (by rw [hrun]; exact hgas)
  rw [ready_sp, hsp] at hcase
  have hargs : ¬(dest :: rest).length < 1 := by simp
  have hfits : ¬1024 < (dest :: rest).length - 1 + 0 := by
    rw [List.length_cons]
    omega
  rw [execOne_if, hop, hstack, Instruction.metric, if_neg hargs, if_neg hfits, hcase]
  refine ⟨_, bind_of_ok hpaid, rfl, ?_, hmem, ?_⟩
  · show s.stack.drop (opAt c.program.code s.pc).metric.args = _
    rw [hop, hstack]
    rfl
  · show s.ioGas - (ready c s).runGas = _
    rw [hrun]

omit hc in
theorem at_jumpdest (hop : opAt c.program.code pc = .jumpdest) (hroom : stack.length ≤ 1024)
    (hgas : 1 ≤ gas) :
    ∃ t, execOne c s = .ok none t ∧ At t (pc + 1) stack (gas - 1) := by
  obtain ⟨rfl, rfl, hmem, rfl⟩ := hs
  have hpaid := updateIOGas_of_le (s := { ready c s with runGas := 1 }) hgas
  have hfits : ¬1024 < s.stack.length - 0 + 0 := by omega
  rw [execOne_if, hop, Instruction.metric, if_neg (Nat.not_lt_zero _), if_neg hfits]
  exact ⟨_, bind_of_ok hpaid, rfl, rfl, hmem, rfl⟩

/-- `RETURN` of no memory or of the first byte of a machine without memory. -/
theorem at_ret {size : U256} (hstack : stack = [0, size]) (hop : opAt c.program.code pc = .ret)
    (hsize : size = 0 ∨ size = 1) (hgas : 3 ≤ gas ∧ gas < 2 ^ 32) :
    ∃ t, execOne c s = .ok (some (List.replicate size.toNat 0)) t := by
  obtain ⟨rfl, rfl, hmem, rfl⟩ := hs
  have hargs : ¬[0, size].length < 2 := by simp
  have hfits : ¬1024 < [0, size].length - 2 + 0 := by simp
  have hrun : (ready c s).runGas = 0 := by
    rw [ready_eq, hop, hc]
    rfl
  have hsp : ∀ i, (ready c s).sp i = [0, size].getD i 0 := fun i => by rw [ready_sp, sp, hstack]
  have hempty : (ready c s).mem = [] := hmem
  have hleft : (ready c s).ioGas = s.ioGas := rfl
  rw [execOne_if, hop, hstack, Instruction.metric, if_neg hargs, if_neg hfits]
  generalize ready c s = u at *
  have hword : memGas c (roundUp (memEnd 0 size)) ≤ 3 := by
    rw [memGas, hc]
    rcases hsize with rfl | rfl
    · decide
    · decide
  have hzero : memGas c 0 = 0 := by
    rw [memGas, hc]
    decide
  have hs : Affordable c u := by
    rw [Affordable, hempty, hleft]
    show memGas c 0 + s.ioGas < 2 ^ 63
    omega
  have hgrowth : growthGas c u (roundUp (memEnd (u.sp 0) (u.sp 1))) ≤ u.ioGas := by
    rw [hsp, hsp, growthGas, hleft]
    show (if _ then memGas c (roundUp (memEnd 0 size)) - _ else 0) ≤ s.ioGas
    split
    · exact Nat.le_trans (Nat.sub_le _ _) (Nat.le_trans hword hgas.1)
    · exact Nat.zero_le _
  have hret := interpretCases_ret_of_le (by rw [hc]; decide) hs hrun hgrowth
  rw [hsp, hsp, hempty] at hret
  have hbytes : Lib.outcome (interpretCases c .ret) u =
      .ok (some (List.replicate size.toNat 0)) := by
    rw [hret]
    rcases hsize with rfl | rfl
    · rfl
    · rfl
  exact ⟨_, eq_ok_of_outcome (by rw [hbytes]; rfl)⟩

end At

/-- The destination of the jump. -/
theorem wrapping_jumpDest : isJumpDest (plain wrappingCode).jumpDests 458758 = true := by
  have hmem : 458758 ∈ (plain wrappingCode).jumpDests :=
    ((plain_spec wrappingCode).2 458758).mpr ⟨boundary_zeroPush (le_refl 65536), wrapping_tail.1⟩
  exact isJumpDest_iff.mpr ⟨by decide, hmem⟩

section Wrapping

variable {c : Context σ} {s : LegacyVM σ} (hc : c.schedule = .constantinople)
  (hprogram : c.program = plain wrappingCode)

include hc hprogram

/-- Up to the push of the size. -/
theorem wrapping_start (hs : At s 0 [] 100) :
    ∃ s₁ s₂ s₃, execOne c s = .ok none s₁ ∧ execOne c s₁ = .ok none s₂ ∧
      execOne c s₂ = .ok none s₃ ∧ At s₁ 5 [458758] 97 ∧ At s₂ 458758 [] 89 ∧
      At s₃ 458759 [] 88 := by
  obtain ⟨hpush, hdest, hjump⟩ := wrapping_head
  have htarget := wrapping_tail.1
  have hdests := wrapping_jumpDest
  rw [← hprogram] at hpush hdest hjump htarget hdests
  obtain ⟨s₁, h₁, hs₁⟩ := at_push hc hs hpush (by decide) (by decide)
  rw [hdest] at hs₁
  obtain ⟨s₂, h₂, hs₂⟩ := at_jump hc hs₁ rfl hjump hdests (by decide) (by decide)
  obtain ⟨s₃, h₃, hs₃⟩ := at_jumpdest hs₂ htarget (by decide) (by decide)
  exact ⟨s₁, s₂, s₃, h₁, h₂, h₃, hs₁, hs₂, hs₃⟩

/-- The push of the size in the plain code. -/
theorem wrapping_size (hs : At s 458759 [] 88) :
    ∃ t, execOne c s = .ok none t ∧ At t 458766 [1] 85 := by
  obtain ⟨-, hpush, hone, -⟩ := wrapping_tail
  rw [← hprogram] at hpush hone
  have hnext := at_push hc hs hpush (by decide) (by decide)
  rwa [hone] at hnext

/-- From the push of the size on. -/
theorem wrapping_end {size : U256} (hsize : size = 0 ∨ size = 1) (hs : At s 458766 [size] 85) :
    ∃ s₁ t, execOne c s = .ok none s₁ ∧ At s₁ 458768 [0, size] 82 ∧
      execOne c s₁ = .ok (some (List.replicate size.toNat 0)) t := by
  obtain ⟨-, -, -, hpush, hzero, hret⟩ := wrapping_tail
  rw [← hprogram] at hpush hzero hret
  obtain ⟨s₁, h₁, hs₁⟩ := at_push hc hs hpush (by simp) (by decide)
  rw [hzero] at hs₁
  obtain ⟨t, ht⟩ := at_ret hc hs₁ rfl hret hsize (by decide)
  exact ⟨s₁, t, h₁, hs₁, ht⟩

end Wrapping

theorem boundary_large : Boundary (plain wrappingCode).code 458759 := by
  have hnext := (boundary_zeroPush (le_refl 65536)).next
  rwa [following_of_not_push (by rw [wrapping_tail.1]; exact fun _ h => by cases h)] at hnext

theorem boundary_size : Boundary (plain wrappingCode).code 458766 := by
  have hnext := boundary_large.next
  rwa [following_of_push wrapping_tail.2.1] at hnext

/-- The push of the size in the optimized code. -/
theorem wrapping_pooled {c : Context σ} {s : LegacyVM σ} (hc : c.schedule = .constantinople)
    (hcode : c.message.code = wrappingCode) (hs : At s 458759 [] 88) :
    ∃ t, execOne (c.built true) s = .ok none t ∧ At t 458766 [0] 85 := by
  have hpush := wrapping_tail.2.1
  cases (optimize_spec wrappingCode).2.2 458759 boundary_large with
  | same hsmall _ =>
      rw [hpush] at hsmall
      exact absurd hsmall (by decide)
  | marked h _ =>
      rw [MarkedJump, hpush] at h
      rcases h.2 with ⟨h, -⟩ | ⟨h, -⟩ <;> cases h
  | @pooled n h =>
      obtain rfl : n = 6 := Instruction.push.inj (h.op.symm.trans hpush)
      rw [← hs.pc, ← hcode] at h
      obtain ⟨k, -, hpushc⟩ := interpretCases_pooled h
      have hzero : (c.built true).program.pool.getD (k % 2 ^ 16) 0 = 0 :=
        pool_getD c (hcode ▸ wrapping_pool (Nat.mod_lt k (by decide)))
      rw [hzero] at hpushc
      have hop : opAt (c.built true).program.code 458759 = .pushc :=
        hs.pc ▸ opAt_of_getElem? h.pooled
      exact at_pushNumber (c := c.built true) hc hs hop rfl hpushc (by decide) (by decide)

section Wrapping

variable {c : Context σ} {s : LegacyVM σ} (hc : c.schedule = .constantinople)
  (hcode : c.message.code = wrappingCode)

include hc hcode

/-- The plain code pushes the size 1. -/
theorem plain_returns (hs : At s 0 [] 100) :
    ∃ t, run (c.built false) 6 (running s) = .returned [0] t := by
  have hprogram : (c.built false).program = plain wrappingCode := by rw [c.program_built, hcode]
  obtain ⟨s₁, s₂, s₃, h₁, h₂, h₃, -, -, hs₃⟩ := wrapping_start (c := c.built false) hc hprogram hs
  obtain ⟨s₄, h₄, hs₄⟩ := wrapping_size (c := c.built false) hc hprogram hs₃
  obtain ⟨s₅, t, h₅, -, h₆⟩ := wrapping_end (c := c.built false) hc hprogram (.inr rfl) hs₄
  refine ⟨t, ?_⟩
  rw [run_running h₁, run_running h₂, run_running h₃, run_running h₄, run_running h₅,
    run_returned h₆]
  rfl

/-- The two builds run alike up to the push of the size. -/
theorem alike_to_size (hs : At s 0 [] 100) :
    ∃ t, (run (c.built true) 3 (running s)).forget = (running t).forget ∧ At t 458759 [] 88 := by
  have hprogram : (c.built false).program = plain wrappingCode := by rw [c.program_built, hcode]
  obtain ⟨hpush, -, hjump⟩ := wrapping_head
  have htarget := wrapping_tail.1
  obtain ⟨s₁, s₂, s₃, h₁, h₂, h₃, hs₁, hs₂, hs₃⟩ :=
    wrapping_start (c := c.built false) hc hprogram hs
  have hsteady : ∀ t, running s = .running t → Steady c.message.code t := by
    intro t ht
    cases ht
    exact steady_of_zero hs.pc
  have halike := alike_run c hsteady 3 fun k hk t _ ht _ => ?_
  · refine ⟨s₃, halike.trans ?_, hs₃⟩
    rw [run_running h₁, run_running h₂, run_running h₃]
    rfl
  · rw [hcode]
    refine kept_of_small ?_
    have hcases : t = s ∨ t = s₁ ∨ t = s₂ := by
      interval_cases k
      · cases ht
        exact .inl rfl
      · rw [run_running h₁] at ht
        cases ht
        exact .inr (.inl rfl)
      · rw [run_running h₁, run_running h₂] at ht
        cases ht
        exact .inr (.inr rfl)
    rcases hcases with rfl | rfl | rfl
    · rw [hs.pc, hpush]
      decide
    · rw [hs₁.pc, hjump]
      decide
    · rw [hs₂.pc, htarget]
      decide

/-- The optimized code pushes the size 0 and returns no byte. -/
theorem optimized_returns (hs : At s 0 [] 100) :
    ∃ t, run (c.built true) 6 (running s) = .returned [] t := by
  have hprogram : (c.built false).program = plain wrappingCode := by rw [c.program_built, hcode]
  obtain ⟨-, -, -, hsmall, -, hret⟩ := wrapping_tail
  obtain ⟨s₃, hstart, hs₃⟩ := alike_to_size hc hcode hs
  obtain ⟨s₄, h₄, hs₄⟩ := wrapping_pooled hc hcode hs₃
  obtain ⟨s₅, t, h₅, hs₅, h₆⟩ := wrapping_end (c := c.built false) hc hprogram (.inl rfl) hs₄
  have hsteady : ∀ t, running s₄ = .running t → Steady c.message.code t := by
    intro t ht
    cases ht
    rw [hcode]
    refine ⟨hs₄.pc ▸ boundary_size, fun val _ hjump => ?_⟩
    rw [hs₄.pc, hsmall] at hjump
    rcases hjump with hjump | hjump <;> cases hjump
  have halike := alike_run c hsteady 2 fun k hk u _ hu _ => ?_
  · have hforget : (run (c.built true) 6 (running s)).forget = (returned [] t).forget := by
      rw [run_add _ 3 3, forget_run hstart, run_running h₄, halike, run_running h₅, run_returned h₆]
      rfl
    cases hrun : run (c.built true) 6 (running s) with
    | returned output u =>
        rw [hrun] at hforget
        injection hforget with houtput
        exact ⟨u, by rw [houtput]⟩
    | running u | thrown e u =>
        rw [hrun] at hforget
        cases hforget
  · rw [hcode]
    refine kept_of_small ?_
    have hcases : u = s₄ ∨ u = s₅ := by
      interval_cases k
      · cases hu
        exact .inl rfl
      · rw [run_running h₅] at hu
        cases hu
        exact .inr rfl
    rcases hcases with rfl | rfl
    · rw [hs₄.pc, hsmall]
      decide
    · rw [hs₅.pc, hret]
      decide

end Wrapping

/-- **The pool wraps.**  The plain code returns one byte, and the optimized code none: the
push of the size is the push with number `2 ^ 16` of more than five bytes, and it is given
the number of the first one. -/
theorem pool_offset_wraps :
    ∃ s t, run (wrapping.built false) 6 (start 100 freshVM) = .returned [0] s ∧
      run (wrapping.built true) 6 (start 100 freshVM) = .returned [] t := by
  have hstart : At (start 100 freshVM : Execution Unit).vm 0 [] 100 := ⟨rfl, rfl, rfl, rfl⟩
  obtain ⟨s, hs⟩ := plain_returns (c := wrapping) rfl rfl hstart
  obtain ⟨t, ht⟩ := optimized_returns (c := wrapping) rfl rfl hstart
  exact ⟨s, t, hs, ht⟩

end Execution

end CppSwc.Evm
