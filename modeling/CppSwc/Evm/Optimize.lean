import CppSwc.Evm.Program
import Mathlib.Logic.Function.Iterate
import Mathlib.Order.Monotone.Basic

/-!
# What optimize does to the code

The instructions of a code begin at its boundaries, which are found by following the code
from its start.  `optimize` without its second loop leaves them as they are, but for the
instructions that only the optimizer makes (`plain_spec`).

The second loop goes over the same boundaries.  `Rewritten` says what it may have done to
the instruction at one: nothing, a push of more than five bytes has become a reference to
the pool, or a jump behind the push of a verified destination has been marked.  The offset
of a pooled push is its number among these pushes modulo `2 ^ 16` (`optimize_spec`).
-/

namespace CppSwc.Evm

/-! ## Boundaries -/

/-- The instruction at a position. -/
def opAt (bytes : Bytes) (pc : Nat) : Instruction := .ofByte (bytes.getD pc 0)

/-- The position behind an instruction and what it pushes. -/
def following (bytes : Bytes) (pc : Nat) : Nat := pc + (opAt bytes pc).pushBytes + 1

/-- An instruction begins here. -/
def Boundary (bytes : Bytes) (pc : Nat) : Prop := ∃ n, (following bytes)^[n] 0 = pc

variable {bytes bytes' : Bytes} {pc q n : Nat}

theorem lt_following (bytes : Bytes) (pc : Nat) : pc < following bytes pc := by
  rw [following]
  omega

theorem Boundary.zero (bytes : Bytes) : Boundary bytes 0 := ⟨0, rfl⟩

theorem Boundary.next (h : Boundary bytes pc) : Boundary bytes (following bytes pc) := by
  obtain ⟨n, rfl⟩ := h
  exact ⟨n + 1, Function.iterate_succ_apply' _ n 0⟩

theorem strictMono_boundaries (bytes : Bytes) : StrictMono fun n => (following bytes)^[n] 0 := by
  refine strictMono_nat_of_lt_succ fun n => ?_
  rw [Function.iterate_succ_apply']
  exact lt_following bytes _

/-- No instruction begins inside another one. -/
theorem Boundary.following_le (hpc : Boundary bytes pc) (hq : Boundary bytes q) (hlt : pc < q) :
    following bytes pc ≤ q := by
  obtain ⟨m, rfl⟩ := hpc
  obtain ⟨n, rfl⟩ := hq
  have hmn : m < n := (strictMono_boundaries bytes).lt_iff_lt.mp hlt
  rw [← Function.iterate_succ_apply' (following bytes) m 0]
  exact (strictMono_boundaries bytes).monotone hmn

/-- An instruction follows at most one. -/
theorem Boundary.following_inj (hpc : Boundary bytes pc) (hq : Boundary bytes q)
    (heq : following bytes pc = following bytes q) : pc = q := by
  rcases Nat.lt_trichotomy pc q with hlt | heq' | hlt
  · have hle := hpc.following_le hq hlt
    have := lt_following bytes q
    omega
  · exact heq'
  · have hle := hq.following_le hpc hlt
    have := lt_following bytes pc
    omega

/-! ## Code behind other code -/

theorem opAt_append (pre rest : Bytes) (i : Nat) :
    opAt (pre ++ rest) (pre.length + i) = opAt rest i := by
  rw [opAt, opAt, List.getD_eq_getElem?_getD, List.getElem?_append_right (Nat.le_add_right _ _),
    Nat.add_sub_cancel_left, ← List.getD_eq_getElem?_getD]
theorem pushed_append (pre rest : Bytes) (i n : Nat) :
    pushed (pre ++ rest) (pre.length + i) n = pushed rest i n := by
  rw [pushed, pushed, Nat.add_assoc, List.drop_append,
    List.drop_eq_nil_of_le (Nat.le_add_right _ _), List.nil_append, Nat.add_sub_cancel_left]

/-! ## The first loop -/

/-- An instruction that only the optimizer makes. -/
def Synthetic (op : Instruction) : Prop := op = .pushc ∨ op = .jumpc ∨ op = .jumpci

instance (op : Instruction) : Decidable (Synthetic op) := inferInstanceAs (Decidable (_ ∨ _ ∨ _))

/-- The byte that the first loop leaves. -/
def tableByte (b : UInt8) : UInt8 := if Synthetic (.ofByte b) then invalidByte else b

theorem not_synthetic_tableByte (b : UInt8) : ¬Synthetic (.ofByte (tableByte b)) := by
  unfold tableByte
  split
  · decide
  · assumption

theorem pushBytes_tableByte (b : UInt8) :
    (Instruction.ofByte (tableByte b)).pushBytes = (Instruction.ofByte b).pushBytes := by
  unfold tableByte
  split
  · next h =>
      rcases h with h | h | h <;> rw [h] <;> rfl
  · rfl

theorem tableByte_eq_jumpdest (b : UInt8) :
    Instruction.ofByte (tableByte b) = .jumpdest ↔ Instruction.ofByte b = .jumpdest := by
  unfold tableByte
  split
  · next h =>
      rcases h with h | h | h <;> rw [h] <;> decide
  · rfl

theorem jumpTable_zero (pc : Nat) (b : UInt8) (rest : Bytes) :
    jumpTable pc 0 (b :: rest) =
      (tableByte b :: (jumpTable (pc + 1) (Instruction.ofByte b).pushBytes rest).1,
        if Instruction.ofByte b = .jumpdest then
          pc :: (jumpTable (pc + 1) (Instruction.ofByte b).pushBytes rest).2
        else (jumpTable (pc + 1) (Instruction.ofByte b).pushBytes rest).2) := rfl

theorem jumpTable_succ (pc skip : Nat) (b : UInt8) (rest : Bytes) :
    jumpTable pc (skip + 1) (b :: rest) =
      (b :: (jumpTable (pc + 1) skip rest).1, (jumpTable (pc + 1) skip rest).2) := rfl

theorem length_jumpTable (pc skip : Nat) (rest : Bytes) :
    (jumpTable pc skip rest).1.length = rest.length := by
  induction rest generalizing pc skip with
  | nil => rfl
  | cons b rest ih =>
      cases skip with
      | zero =>
          rw [jumpTable_zero]
          simp [ih]
      | succ skip =>
          rw [jumpTable_succ]
          simp [ih]

/-- What the first loop says of the code. -/
structure Tabled (bytes : Bytes) (dests : List Nat) (lo hi : Nat) : Prop where
  ordinary : ∀ q, Boundary bytes q → lo ≤ q → q < hi → ¬Synthetic (opAt bytes q)
  sound : ∀ d ∈ dests, Boundary bytes d ∧ opAt bytes d = .jumpdest
  complete : ∀ q, Boundary bytes q → lo ≤ q → q < hi → opAt bytes q = .jumpdest → q ∈ dests

theorem getD_append_length (pre rest : Bytes) (b : UInt8) :
    (pre ++ b :: rest).getD pre.length 0 = b := by
  simp [List.getD_eq_getElem?_getD]

/-- The first loop, from a position with a boundary `skip` bytes ahead. -/
theorem tabled_jumpTable (rest pre zeros : Bytes) (pc skip : Nat) (hpc : pre.length = pc)
    (hbytes : bytes = pre ++ (jumpTable pc skip rest).1 ++ zeros)
    (hahead : Boundary bytes (pc + skip))
    (hinside : ∀ q, Boundary bytes q → q < pc + skip → q < pc) :
    Tabled bytes (jumpTable pc skip rest).2 pc (pc + rest.length) := by
  induction rest generalizing pre pc skip with
  | nil =>
      have hnone : ∀ {q}, pc ≤ q → ¬q < pc + ([] : Bytes).length := fun hlo => Nat.not_lt.mpr hlo
      refine ⟨fun q _ hlo hhi => absurd hhi (hnone hlo), fun d hd => ?_,
        fun q _ hlo hhi => absurd hhi (hnone hlo)⟩
      cases hd
  | cons b rest ih =>
      have hpre : (pre ++ [b]).length = pc + 1 := by simp [hpc]
      cases skip with
      | succ skip =>
          rw [jumpTable_succ] at hbytes ⊢
          have hahead' : Boundary bytes (pc + 1 + skip) :=
            (show pc + (skip + 1) = pc + 1 + skip by omega) ▸ hahead
          have hrest := ih (pre ++ [b]) (pc + 1) skip hpre (by simp [hbytes]) hahead'
            fun q hq hlt => Nat.lt_succ_of_lt (hinside q hq (by omega))
          have hlater : ∀ q, Boundary bytes q → pc ≤ q → q < pc + (b :: rest).length →
              pc + 1 ≤ q ∧ q < pc + 1 + rest.length := by
            -- the data of a push is no boundary
            intro q hq hlo hhi
            have := hinside q hq
            rw [List.length_cons] at hhi
            omega
          refine ⟨fun q hq hlo hhi => ?_, hrest.sound, fun q hq hlo hhi => ?_⟩
          · exact hrest.ordinary q hq (hlater q hq hlo hhi).1 (hlater q hq hlo hhi).2
          · exact hrest.complete q hq (hlater q hq hlo hhi).1 (hlater q hq hlo hhi).2
      | zero =>
          rw [jumpTable_zero] at hbytes ⊢
          have hop : opAt bytes pc = .ofByte (tableByte b) := by
            rw [opAt, hbytes, List.append_assoc, List.cons_append, ← hpc, getD_append_length]
          have hfollowing : following bytes pc = pc + 1 + (Instruction.ofByte b).pushBytes := by
            rw [following, hop, pushBytes_tableByte]
            omega
          have hrest := ih (pre ++ [tableByte b]) (pc + 1) (Instruction.ofByte b).pushBytes
            (by simp [hpc]) (by simp [hbytes]) (hfollowing ▸ Boundary.next hahead)
            fun q hq hlt => by
              by_contra hle
              have hinside' := Boundary.following_le hahead hq (by omega)
              rw [Nat.add_zero, hfollowing] at hinside'
              omega
          refine ⟨fun q hq hlo hhi => ?_, fun d hd => ?_, fun q hq hlo hhi hjump => ?_⟩
          · rcases Nat.eq_or_lt_of_le hlo with rfl | hlt
            · rw [hop]
              exact not_synthetic_tableByte b
            · refine hrest.ordinary q hq hlt ?_
              rw [List.length_cons] at hhi
              omega
          · by_cases hjumpdest : Instruction.ofByte b = .jumpdest
            · rw [if_pos hjumpdest] at hd
              rcases List.mem_cons.mp hd with rfl | hd
              · refine ⟨hahead, ?_⟩
                rw [hop, tableByte, if_neg (by rw [hjumpdest]; decide), hjumpdest]
              · exact hrest.sound d hd
            · rw [if_neg hjumpdest] at hd
              exact hrest.sound d hd
          · rcases Nat.eq_or_lt_of_le hlo with rfl | hlt
            · rw [hop, tableByte_eq_jumpdest] at hjump
              rw [if_pos hjump]
              exact List.mem_cons_self
            · rw [List.length_cons] at hhi
              have hmem := hrest.complete q hq hlt (by omega) hjump
              split
              · exact List.mem_cons_of_mem _ hmem
              · exact hmem

/-- The code without the second loop. -/
abbrev plain (code : Bytes) : Program := optimize false code

theorem plain_eq (code : Bytes) :
    plain code = ⟨(jumpTable 0 0 code).1 ++ List.replicate 33 0, (jumpTable 0 0 code).2, []⟩ := rfl

theorem length_plain (code : Bytes) : (plain code).code.length = code.length + 33 := by
  rw [plain_eq]
  simp [length_jumpTable]

theorem plain_past (code : Bytes) (hpc : code.length ≤ pc) : opAt (plain code).code pc = .stop := by
  rw [opAt, plain_eq, List.getD_eq_getElem?_getD,
    List.getElem?_append_right (by rw [length_jumpTable]; exact hpc), List.getElem?_replicate]
  split <;> rfl

/-- At the boundaries of the code without the second loop there is no instruction that only
the optimizer makes, and its jump destinations are the boundaries with a `JUMPDEST`. -/
theorem plain_spec (code : Bytes) :
    (∀ q, Boundary (plain code).code q → ¬Synthetic (opAt (plain code).code q)) ∧
      ∀ d, d ∈ (plain code).jumpDests ↔
        Boundary (plain code).code d ∧ opAt (plain code).code d = .jumpdest := by
  have htable : Tabled (plain code).code (plain code).jumpDests 0 (0 + code.length) :=
    tabled_jumpTable code [] (List.replicate 33 0) 0 0 rfl rfl (Boundary.zero _) fun q _ h => h
  refine ⟨fun q hq => ?_, fun d => ⟨htable.sound d, fun ⟨hd, hjump⟩ => ?_⟩⟩
  · by_cases hlt : q < code.length
    · exact htable.ordinary q hq (Nat.zero_le q) (by omega)
    · rw [plain_past code (Nat.le_of_not_lt hlt)]
      decide
  · refine htable.complete d hd (Nat.zero_le d) ?_ hjump
    by_contra hle
    rw [plain_past code (by omega)] at hjump
    cases hjump

/-- Code without instructions that only the optimizer makes is not changed by the first
loop. -/
theorem jumpTable_of_ordinary {rest : Bytes} (h : ∀ b ∈ rest, ¬Synthetic (.ofByte b))
    (pc skip : Nat) : (jumpTable pc skip rest).1 = rest := by
  induction rest generalizing pc skip with
  | nil => rfl
  | cons b rest ih =>
      have ih := ih fun b' hb' => h b' (List.mem_cons_of_mem _ hb')
      cases skip with
      | zero =>
          rw [jumpTable_zero, ih, tableByte, if_neg (h b List.mem_cons_self)]
      | succ skip => rw [jumpTable_succ, ih]

theorem plain_of_ordinary {code : Bytes} (h : ∀ b ∈ code, ¬Synthetic (.ofByte b)) :
    (plain code).code = code ++ List.replicate 33 0 := by
  rw [plain_eq, jumpTable_of_ordinary h]

/-! ## The second loop -/

/-- The push of `n` bytes at a position, if these are more than five. -/
def largeAt (bytes : Bytes) (pc n : Nat) : List (Nat × U256) :=
  if 5 < n then [(pc, pushed bytes pc n)] else []

/-- The pushes of more than five bytes from `pc` on, with their positions.  The first
argument bounds the number of rounds. -/
def largePushesFrom (bytes : Bytes) (nBytes : Nat) : Nat → Nat → List (Nat × U256)
  | 0, _ => []
  | fuel + 1, pc =>
      if nBytes ≤ pc then []
      else
        largeAt bytes pc (opAt bytes pc).pushBytes ++
          largePushesFrom bytes nBytes fuel (following bytes pc)

/-- The pushes of more than five bytes of a code. -/
def largePushes (code : Bytes) : List (Nat × U256) :=
  largePushesFrom (plain code).code code.length code.length 0

/-- Every entry is a push of more than five bytes. -/
theorem mem_largePushesFrom {bytes : Bytes} {nBytes : Nat} {e : Nat × U256} (fuel pc : Nat)
    (h : e ∈ largePushesFrom bytes nBytes fuel pc) : 5 < (opAt bytes e.1).pushBytes := by
  induction fuel generalizing pc with
  | zero => cases h
  | succ fuel ih =>
      rw [largePushesFrom] at h
      split at h
      · cases h
      · rcases List.mem_append.mp h with h | h
        · rw [largeAt] at h
          split at h
          · next hlarge =>
              rw [List.mem_singleton.mp h]
              exact hlarge
          · cases h
        · exact ih _ h

theorem le_of_mem_largePushesFrom {nBytes : Nat} {e : Nat × U256} (fuel pc : Nat)
    (h : e ∈ largePushesFrom bytes nBytes fuel pc) : pc ≤ e.1 := by
  induction fuel generalizing pc with
  | zero => cases h
  | succ fuel ih =>
      rw [largePushesFrom] at h
      split at h
      · cases h
      · rcases List.mem_append.mp h with h | h
        · rw [largeAt] at h
          split at h
          · rw [List.mem_singleton.mp h]
          · cases h
        · exact Nat.le_trans (Nat.le_of_lt (lt_following bytes pc)) (ih _ h)

theorem pairwise_largePushesFrom (bytes : Bytes) (nBytes fuel pc : Nat) :
    (largePushesFrom bytes nBytes fuel pc).Pairwise fun e e' => e.1 < e'.1 := by
  induction fuel generalizing pc with
  | zero => exact .nil
  | succ fuel ih =>
      rw [largePushesFrom]
      split
      · exact .nil
      · refine List.pairwise_append.mpr ⟨?_, ih _, fun e he e' he' => ?_⟩
        · rw [largeAt]
          split
          · exact List.pairwise_singleton _ _
          · exact .nil
        · have hlater := le_of_mem_largePushesFrom _ _ he'
          have hlt := lt_following bytes pc
          rw [largeAt] at he
          split at he
          · rw [List.mem_singleton.mp he]
            exact Nat.lt_of_lt_of_le hlt hlater
          · cases he

/-- A push has one number. -/
theorem largePushes_inj {code : Bytes} {i j : Nat} {e e' : Nat × U256}
    (hi : (largePushes code)[i]? = some e) (hj : (largePushes code)[j]? = some e')
    (hpos : e.1 = e'.1) : i = j := by
  have hsorted : ((largePushes code).map Prod.fst).Pairwise (· < ·) :=
    List.pairwise_map.mpr (pairwise_largePushesFrom _ _ _ _)
  have hi' : ((largePushes code).map Prod.fst)[i]? = some e.1 := by rw [List.getElem?_map, hi]; rfl
  have hj' : ((largePushes code).map Prod.fst)[j]? = some e.1 := by
    rw [List.getElem?_map, hj, hpos]
    rfl
  obtain ⟨hlt, -⟩ := List.getElem?_eq_some_iff.mp hi'
  exact (List.getElem?_inj hlt (hsorted.imp Nat.ne_of_lt)).mp (hi'.trans hj'.symm)

/-- Right before `pc` stands a push of the number. -/
def Follows (bytes : Bytes) (pc : Nat) (val : U256) : Prop :=
  ∃ p n, Boundary bytes p ∧ opAt bytes p = .push n ∧ following bytes p = pc ∧
    val = pushed bytes p n

/-- The jump at `pc` has been marked, behind the push of a verified destination. -/
def MarkedJump (bytes : Bytes) (dests : List Nat) (pc : Nat) (b : UInt8) : Prop :=
  (∃ val, Follows bytes pc val ∧ isJumpDest dests val) ∧
    (opAt bytes pc = .jump ∧ b = 0xad ∨ opAt bytes pc = .jumpi ∧ b = 0xae)

/-- The push at `pc` refers to the pool, with its number among the large pushes. -/
structure Pooled (bytes : Bytes) (larges : List (Nat × U256)) (code : Bytes) (pc n : Nat) :
    Prop where
  op : opAt bytes pc = .push n
  large : 5 < n
  pooled : code[pc]? = some 0xac
  rest : code[pc + 3]? = some (UInt8.ofNat (n - 2))
  offset : ∃ k, larges[k]? = some (pc, pushed bytes pc n) ∧
    code[pc + 1]? = some (UInt8.ofNat (k % 2 ^ 16 / 256)) ∧
    code[pc + 2]? = some (UInt8.ofNat (k % 2 ^ 16 % 256))

/-- What has become of the instruction at `pc`. -/
inductive Rewritten (bytes : Bytes) (dests : List Nat) (larges : List (Nat × U256)) (code : Bytes)
    (pc : Nat) : Prop where
  | same (hsmall : (opAt bytes pc).pushBytes ≤ 5)
      (h : ∀ j, pc ≤ j → j < following bytes pc → code[j]? = bytes[j]?)
  | pooled {n : Nat} (h : Pooled bytes larges code pc n)
  | marked {b : UInt8} (h : MarkedJump bytes dests pc b) (hb : code[pc]? = some b)

variable {dests : List Nat} {larges larges' : List (Nat × U256)} {code code' : Bytes}

theorem Rewritten.mono (h : Rewritten bytes dests larges code pc)
    (hcode : ∀ j, pc ≤ j → j < following bytes pc → code'[j]? = code[j]?)
    (hlarges : ∀ (k : Nat) (e : Nat × U256), larges[k]? = some e → larges'[k]? = some e) :
    Rewritten bytes dests larges' code' pc := by
  cases h with
  | same hsmall h => exact .same hsmall fun j hlo hhi => (hcode j hlo hhi).trans (h j hlo hhi)
  | marked h hb => exact .marked h ((hcode pc (Nat.le_refl pc) (lt_following bytes pc)).trans hb)
  | @pooled n h =>
      have hlarge := h.large
      have hfollowing : following bytes pc = pc + n + 1 := by rw [following, h.op]; rfl
      obtain ⟨k, hk, hhigh, hlow⟩ := h.offset
      refine .pooled (n := n) ⟨h.op, hlarge, ?_, ?_, k, hlarges k _ hk, ?_, ?_⟩
      · exact (hcode pc (by omega) (by omega)).trans h.pooled
      · exact (hcode (pc + 3) (by omega) (by omega)).trans h.rest
      · exact (hcode (pc + 1) (by omega) (by omega)).trans hhigh
      · exact (hcode (pc + 2) (by omega) (by omega)).trans hlow

/-- The state of the second loop at the boundary `pc`.  `larges` are the large pushes
before it. -/
structure Scanned (bytes : Bytes) (dests : List Nat) (larges : List (Nat × U256))
    (program : Program) (pc : Nat) : Prop where
  boundary : Boundary bytes pc
  jumpDests : program.jumpDests = dests
  length : program.code.length = bytes.length
  pool : program.pool = larges.map Prod.snd
  behind : ∀ q, Boundary bytes q → q < pc → Rewritten bytes dests larges program.code q
  here : program.code[pc]? = bytes[pc]? ∨
    ∃ b, MarkedJump bytes dests pc b ∧ program.code[pc]? = some b
  ahead : ∀ j, pc < j → program.code[j]? = bytes[j]?

theorem opAt_congr (h : code[pc]? = bytes[pc]?) : opAt code pc = opAt bytes pc := by
  rw [opAt, opAt, List.getD_eq_getElem?_getD, List.getD_eq_getElem?_getD, h]

theorem opAt_of_getElem? {b : UInt8} (h : code[pc]? = some b) : opAt code pc = .ofByte b := by
  rw [opAt, List.getD_eq_getElem?_getD, h, Option.getD_some]

/-- What a push reads stands behind it. -/
theorem pushed_congr (h : ∀ j, pc < j → j ≤ pc + n → code[j]? = bytes[j]?) :
    pushed code pc n = pushed bytes pc n := by
  have hdata : (code.drop (pc + 1)).take n = (bytes.drop (pc + 1)).take n := by
    refine List.ext_getElem? fun j => ?_
    rw [List.getElem?_take, List.getElem?_take]
    split
    · rw [List.getElem?_drop, List.getElem?_drop]
      exact h _ (by omega) (by omega)
    · rfl
  rw [pushed, pushed, hdata]

theorem following_of_push (h : opAt bytes pc = .push n) : following bytes pc = pc + n + 1 := by
  rw [following, h]
  rfl

theorem pushBytes_of_not_push {op : Instruction} (h : ∀ n, op ≠ .push n) : op.pushBytes = 0 := by
  cases op with
  | push n => exact absurd rfl (h n)
  | _ => rfl

/-- An instruction that is not a push has no data. -/
theorem following_of_not_push (h : ∀ n, opAt bytes pc ≠ .push n) :
    following bytes pc = pc + 1 := by
  rw [following, pushBytes_of_not_push h]

namespace Scanned

variable {program : Program}

/-- The second loop sees the pushes of the code. -/
theorem push_iff (h : Scanned bytes dests larges program pc) :
    opAt program.code pc = .push n ↔ opAt bytes pc = .push n := by
  rcases h.here with hsame | ⟨b, ⟨-, hmarked⟩, hb⟩
  · rw [opAt_congr hsame]
  · rw [opAt_of_getElem? hb]
    rcases hmarked with ⟨hop, rfl⟩ | ⟨hop, rfl⟩
    · rw [hop]
      simp [show Instruction.ofByte 0xad = .jumpc from rfl]
    · rw [hop]
      simp [show Instruction.ofByte 0xae = .jumpci from rfl]

/-- The boundary at which the loop stands becomes one behind it. -/
theorem rewritten_here (h : Scanned bytes dests larges program pc)
    (hpush : ∀ n, opAt bytes pc ≠ .push n) :
    Rewritten bytes dests larges program.code pc := by
  rcases h.here with hsame | ⟨b, hmarked, hb⟩
  · refine .same (by rw [pushBytes_of_not_push hpush]; decide) fun j hlo hhi => ?_
    rw [following_of_not_push hpush] at hhi
    rwa [show j = pc by omega]
  · exact .marked hmarked hb

/-- A step over an instruction that is not a push. -/
theorem skip (h : Scanned bytes dests larges program pc) (hpush : ∀ n, opAt bytes pc ≠ .push n) :
    Scanned bytes dests larges program (pc + 1) := by
  have hfollowing := following_of_not_push hpush
  refine { h with boundary := hfollowing ▸ h.boundary.next, behind := ?_, here := ?_, ahead := ?_ }
  · intro q hq hlt
    rcases Nat.lt_or_eq_of_le (Nat.le_of_lt_succ hlt) with hlt | rfl
    · exact h.behind q hq hlt
    · exact h.rewritten_here hpush
  · exact .inl (h.ahead _ (Nat.lt_succ_self pc))
  · exact fun j hj => h.ahead j (by omega)

/-- The code behind a push is as before, and in front of it too. -/
theorem poolPush_getElem? (program : Program) (pc n : Nat) (val : U256) {j : Nat}
    (hj : j < pc ∨ pc + n < j) : (poolPush program pc n val).code[j]? = program.code[j]? := by
  unfold poolPush
  split
  · simp only [List.getElem?_set]
    rw [if_neg (by omega), if_neg (by omega), if_neg (by omega), if_neg (by omega)]
  · rfl

theorem constJump_getElem? (program : Program) (i : Nat) (val : U256) {j : Nat} (hj : j ≠ i) :
    (constJump program i val).code[j]? = program.code[j]? := by
  unfold constJump
  dsimp only
  split
  · exact List.getElem?_set_ne (Ne.symm hj)
  · split
    · exact List.getElem?_set_ne (Ne.symm hj)
    · rfl

theorem constJump_frame (program : Program) (i : Nat) (val : U256) :
    (constJump program i val).jumpDests = program.jumpDests ∧
      (constJump program i val).pool = program.pool ∧
      (constJump program i val).code.length = program.code.length := by
  unfold constJump
  dsimp only
  split
  · exact ⟨rfl, rfl, List.length_set⟩
  · split
    · exact ⟨rfl, rfl, List.length_set⟩
    · exact ⟨rfl, rfl, rfl⟩

/-- A code has a byte where its instruction is not `STOP`. -/
theorem lt_length_of_opAt (h : opAt bytes pc ≠ .stop) : pc < bytes.length := by
  by_contra hle
  refine h ?_
  rw [opAt, List.getD_eq_getElem?_getD, List.getElem?_eq_none (Nat.le_of_not_lt hle)]
  rfl

/-- What `constJump` does where it looks. -/
theorem constJump_here (program : Program) (i : Nat) (val : U256) :
    (constJump program i val).code[i]? = program.code[i]? ∨
      isJumpDest program.jumpDests val = true ∧
        (opAt program.code i = .jump ∧ (constJump program i val).code[i]? = some 0xad ∨
          opAt program.code i = .jumpi ∧ (constJump program i val).code[i]? = some 0xae) := by
  unfold constJump
  dsimp only
  split
  · next h =>
      have hlt : i < program.code.length := lt_length_of_opAt (by rw [opAt, h.1]; decide)
      exact .inr ⟨h.2, .inl ⟨h.1, by simp [hlt]⟩⟩
  · split
    · next h =>
        have hlt : i < program.code.length := lt_length_of_opAt (by rw [opAt, h.1]; decide)
        exact .inr ⟨h.2, .inr ⟨h.1, by simp [hlt]⟩⟩
    · exact .inl rfl

theorem poolPush_frame (program : Program) (pc n : Nat) :
    (poolPush program pc n (pushed bytes pc n)).jumpDests = program.jumpDests ∧
      (poolPush program pc n (pushed bytes pc n)).pool =
        program.pool ++ (largeAt bytes pc n).map Prod.snd ∧
      (poolPush program pc n (pushed bytes pc n)).code.length = program.code.length := by
  unfold poolPush largeAt
  split
  · exact ⟨rfl, rfl, by simp⟩
  · exact ⟨rfl, by simp, rfl⟩

/-- A pooled push refers to its number. -/
theorem poolPush_here (h : Scanned bytes dests larges program pc) (hop : opAt bytes pc = .push n)
    (hroom : pc + 3 < bytes.length) :
    Rewritten bytes dests (larges ++ largeAt bytes pc n)
      (poolPush program pc n (pushed bytes pc n)).code pc := by
  have hlength := h.length
  unfold poolPush largeAt
  split
  · next hlarge =>
      have hnumber : program.pool.length = larges.length := by rw [h.pool, List.length_map]
      refine .pooled (n := n) ⟨hop, hlarge, ?_, ?_, larges.length, ?_, ?_, ?_⟩
      · simp [show pc < program.code.length by omega]
      · simp [show pc + 3 < program.code.length by omega]
      · simp
      · simp [show pc + 1 < program.code.length by omega, hnumber]
      · simp [show pc + 2 < program.code.length by omega, hnumber]
  · next hsmall =>
    refine .same (by rw [hop]; exact Nat.le_of_not_lt hsmall) fun j hlo _ => ?_
    rcases Nat.eq_or_lt_of_le hlo with rfl | hlt
    · rcases h.here with hsame | ⟨b, ⟨-, hmarked⟩, -⟩
      · exact hsame
      · rcases hmarked with ⟨hjump, -⟩ | ⟨hjump, -⟩
        · rw [hop] at hjump
          cases hjump
        · rw [hop] at hjump
          cases hjump
    · exact h.ahead j hlt

/-- A step over a push. -/
theorem push (h : Scanned bytes dests larges program pc) (hop : opAt bytes pc = .push n)
    (hroom : pc + 3 < bytes.length) :
    Scanned bytes dests (larges ++ largeAt bytes pc n)
      (constJump (poolPush program pc n (pushed bytes pc n)) (pc + n + 1) (pushed bytes pc n))
      (pc + n + 1) := by
  have hfollowing := following_of_push hop
  obtain ⟨hdests, hpool, hlength⟩ : _ ∧ _ = program.pool ++ (largeAt bytes pc n).map Prod.snd ∧ _ :=
    poolPush_frame program pc n
  have hhere := poolPush_here h hop hroom
  have hbefore : ∀ {j}, j < pc ∨ pc + n < j →
      (poolPush program pc n (pushed bytes pc n)).code[j]? = program.code[j]? :=
    poolPush_getElem? program pc n _
  generalize poolPush program pc n (pushed bytes pc n) = pooled at *
  obtain ⟨hdests', hpool', hlength'⟩ := constJump_frame pooled (pc + n + 1) (pushed bytes pc n)
  have hbehind : ∀ {j}, j ≤ pc + n →
      (constJump pooled (pc + n + 1) (pushed bytes pc n)).code[j]? = pooled.code[j]? :=
    fun hj => constJump_getElem? pooled _ _ (by omega)
  have hahead : pooled.code[pc + n + 1]? = bytes[pc + n + 1]? := by
    rw [hbefore (by omega), h.ahead _ (by omega)]
  refine ⟨hfollowing ▸ h.boundary.next, hdests'.trans (hdests.trans h.jumpDests),
    hlength'.trans (hlength.trans h.length), ?_, ?_, ?_, ?_⟩
  · rw [hpool', hpool, h.pool, List.map_append]
  · intro q hq hlt
    rcases Nat.lt_trichotomy q pc with hlt' | rfl | hgt
    · have hle := hq.following_le h.boundary hlt'
      refine (h.behind q hq hlt').mono (fun j _ hhi => ?_) fun k e hk => ?_
      · rw [hbehind (by omega), hbefore (by omega)]
      · have hlt := (List.getElem?_eq_some_iff.mp hk).1
        exact (List.getElem?_append_left hlt).trans hk
    · exact hhere.mono (fun j _ hhi => hbehind (by omega)) fun _ _ hk => hk
    · have hle := h.boundary.following_le hq hgt
      omega
  · rcases constJump_here pooled (pc + n + 1) (pushed bytes pc n) with hsame | ⟨hdest, hjump⟩
    · exact .inl (hsame.trans hahead)
    · have hop' := opAt_congr hahead
      rw [hop'] at hjump
      have hfollows : Follows bytes (pc + n + 1) (pushed bytes pc n) :=
        ⟨pc, n, h.boundary, hop, hfollowing, rfl⟩
      have hverified : isJumpDest dests (pushed bytes pc n) = true := by
        rwa [hdests, h.jumpDests] at hdest
      rcases hjump with ⟨hjump, hb⟩ | ⟨hjump, hb⟩
      · exact .inr ⟨0xad, ⟨⟨_, hfollows, hverified⟩, .inl ⟨hjump, rfl⟩⟩, hb⟩
      · exact .inr ⟨0xae, ⟨⟨_, hfollows, hverified⟩, .inr ⟨hjump, rfl⟩⟩, hb⟩
  · intro j hj
    rw [constJump_getElem? pooled _ _ (by omega), hbefore (by omega), h.ahead j (by omega)]

end Scanned

/-- The second loop goes over all boundaries. -/
theorem scanned_firstPass {nBytes : Nat} (hlength : bytes.length = nBytes + 33) (fuel : Nat)
    {program : Program} (h : Scanned bytes dests larges program pc) (hfuel : nBytes ≤ pc + fuel) :
    ∃ pc', nBytes ≤ pc' ∧
      Scanned bytes dests (larges ++ largePushesFrom bytes nBytes fuel pc)
        (firstPass nBytes fuel pc program) pc' := by
  induction fuel generalizing pc larges program with
  | zero =>
      refine ⟨pc, by omega, ?_⟩
      rw [largePushesFrom, List.append_nil]
      exact h
  | succ fuel ih =>
      rw [firstPass, largePushesFrom]
      by_cases hpast : nBytes ≤ pc
      · rw [if_pos hpast, if_pos hpast, List.append_nil]
        exact ⟨pc, hpast, h⟩
      · rw [if_neg hpast, if_neg hpast]
        cases hop : opAt bytes pc with
        | push n =>
            have hpush := h.push_iff.mpr hop
            have hrest := ih (h.push hop (by omega)) (by omega)
            rw [opAt] at hpush
            rw [following_of_push hop, Instruction.pushBytes, ← List.append_assoc]
            simp only [hpush, pushed_congr fun j hj _ => h.ahead j hj]
            exact hrest
        | _ =>
            have hpush : ∀ n, opAt bytes pc ≠ .push n := by
              intro n hn
              rw [hop] at hn
              cases hn
            have hrest := ih (h.skip hpush) (by omega)
            rw [following_of_not_push hpush]
            split
            · next n hn => exact absurd (h.push_iff.mp hn) (hpush n)
            · exact hrest

theorem optimize_true (code : Bytes) :
    optimize true code = firstPass code.length code.length 0 (plain code) := rfl

/-- **What `optimize` does**: the same jump destinations, the large pushes as the pool, and
at every boundary an instruction that is as before, pooled or marked. -/
theorem optimize_spec (code : Bytes) :
    (optimize true code).jumpDests = (plain code).jumpDests ∧
      (optimize true code).pool = (largePushes code).map Prod.snd ∧
      ∀ q, Boundary (plain code).code q →
        Rewritten (plain code).code (plain code).jumpDests (largePushes code)
          (optimize true code).code q := by
  have hstart : Scanned (plain code).code (plain code).jumpDests [] (plain code) 0 :=
    { boundary := Boundary.zero _
      jumpDests := rfl
      length := rfl
      pool := rfl
      behind := fun q _ hlt => absurd hlt (Nat.not_lt_zero q)
      here := .inl rfl
      ahead := fun _ _ => rfl }
  obtain ⟨pc, hpast, h⟩ := scanned_firstPass (length_plain code) code.length hstart (by omega)
  rw [optimize_true]
  refine ⟨h.jumpDests, h.pool, fun q hq => ?_⟩
  have hstop := plain_past code hpast
  rcases Nat.lt_trichotomy q pc with hlt | rfl | hgt
  · exact h.behind q hq hlt
  · refine h.rewritten_here fun n hn => ?_
    rw [hstop] at hn
    cases hn
  · refine .same ?_ fun j hlo _ => h.ahead j (by omega)
    rw [plain_past code (Nat.le_trans hpast (Nat.le_of_lt hgt))]
    decide

end CppSwc.Evm
