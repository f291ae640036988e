import CppSwc.Evm.Instruction

/-!
# Preparing the code

`LegacyVM::optimize`: the code is copied and extended by zero bytes, the jump
destinations are collected, and, in a build with `EVM_OPTIMIZE`, long pushes are
moved to a constant pool and jumps to constants are marked as verified.

The bytes of the instructions that only the optimizer makes are replaced by
`INVALID` where they stand in the code as instructions.
-/

namespace CppSwc.Evm

/-- The code as the interpreter runs it. -/
structure Program where
  /-- `m_code`. -/
  code : Bytes
  /-- `m_jumpDests`. -/
  jumpDests : List Nat
  /-- `m_pool`. -/
  pool : List U256
deriving DecidableEq

/-- The byte of `INVALID`. -/
def invalidByte : UInt8 := 0xfe

/-- The first loop of `optimize`, from `pc` on.  `skip` bytes of a push are still to
be passed over. -/
def jumpTable : (pc skip : Nat) → Bytes → Bytes × List Nat
  | _, _, [] => ([], [])
  | pc, skip + 1, b :: rest =>
      let (code, dests) := jumpTable (pc + 1) skip rest
      (b :: code, dests)
  | pc, 0, b :: rest =>
      let op := Instruction.ofByte b
      let (code, dests) := jumpTable (pc + 1) op.pushBytes rest
      let b := if op = .pushc ∨ op = .jumpc ∨ op = .jumpci then invalidByte else b
      (b :: code, if op = .jumpdest then pc :: dests else dests)

/-- `verifyJumpDest`, without the throw. -/
def isJumpDest (dests : List Nat) (dest : U256) : Bool :=
  dest.toNat ≤ 0x7FFFFFFFFFFFFFFF && dests.contains dest.toNat

/-- The number that a push reads from the bytes behind it. -/
def pushed (code : Bytes) (pc n : Nat) : U256 :=
  ((code.drop (pc + 1)).take n).foldl (fun val b => val <<< 8 ||| BitVec.ofNat 256 b.toNat) 0

/-- A push of more than five bytes becomes a reference to the pool. -/
def poolPush (program : Program) (pc n : Nat) (val : U256) : Program :=
  if 5 < n then
    let poolOff := program.pool.length % 2 ^ 16
    { program with
      pool := program.pool ++ [val]
      code := (((program.code.set pc 0xac).set (pc + 3) (UInt8.ofNat (n - 2))).set (pc + 2)
        (UInt8.ofNat (poolOff % 256))).set (pc + 1) (UInt8.ofNat (poolOff / 256)) }
  else program

/-- A jump to a constant destination behind its push is marked as verified. -/
def constJump (program : Program) (i : Nat) (val : U256) : Program :=
  let op := Instruction.ofByte (program.code.getD i 0)
  if op = .jump ∧ isJumpDest program.jumpDests val then
    { program with code := program.code.set i 0xad }
  else if op = .jumpi ∧ isJumpDest program.jumpDests val then
    { program with code := program.code.set i 0xae }
  else program

/-- The second loop of `optimize`, from `pc` on.  The first argument bounds the
number of rounds. -/
def firstPass (nBytes : Nat) : Nat → Nat → Program → Program
  | 0, _, program => program
  | fuel + 1, pc, program =>
      if nBytes ≤ pc then program
      else
        match Instruction.ofByte (program.code.getD pc 0) with
        | .push n =>
            let val := pushed program.code pc n
            let program := constJump (poolPush program pc n val) (pc + n + 1) val
            firstPass nBytes fuel (pc + n + 1) program
        | _ => firstPass nBytes fuel (pc + 1) program

/-- `optimize`.  The flag is `EVM_OPTIMIZE`. -/
def optimize (optimized : Bool) (code : Bytes) : Program :=
  let (table, dests) := jumpTable 0 0 code
  let program : Program := {
    code := table ++ List.replicate 33 0
    jumpDests := dests
    pool := [] }
  if optimized then firstPass code.length code.length 0 program else program

end CppSwc.Evm
