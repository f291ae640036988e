import CppSwc.Evm.Schedule

/-!
# Instructions

`Instruction` of libevm and the table of `Instruction.cpp`, as far as the
interpreters read it: how many items an instruction takes from the stack, how many
it leaves, and its price tier.

The instructions of EIP 615 and EIP 616 are in the table and are not enabled in any
build.  They and the bytes without an instruction are `unsupported`, with what the
table says of them.  The table names `XOR` twice and `XOOR` not at all, so `XOOR` is
one of the bytes without an entry.
-/

namespace CppSwc.Evm

/-- `InstructionMetric`. -/
structure InstructionMetric where
  gasPriceTier : Tier
  args : Nat
  ret : Nat
deriving DecidableEq, Repr

/-- `Instruction`.  A number is the one in the name: `push 1` to `push 32`,
`dup 1` to `dup 16`, `swap 1` to `swap 16` and `log 0` to `log 4`. -/
inductive Instruction where
  | stop | add | mul | sub | div | sdiv | mod | smod | addmod | mulmod | exp | signextend
  | lt | gt | slt | sgt | eq | iszero | and | or | xor | not | byte | shl | shr | sar
  | sha3
  | address | balance | origin | caller | callvalue | calldataload | calldatasize | calldatacopy
  | codesize | codecopy | gasprice | extcodesize | extcodecopy | returndatasize | returndatacopy
  | blockhash | coinbase | timestamp | number | difficulty | gaslimit
  | pop | mload | mstore | mstore8 | sload | sstore | jump | jumpi | pc | msize | gas | jumpdest
  | push (n : Nat) | dup (n : Nat) | swap (n : Nat) | log (n : Nat)
  | pushc | jumpc | jumpci
  | create | call | callcode | ret | delegatecall | staticcall | create2 | revert | invalid | suicide
  | unsupported (metric : InstructionMetric)
deriving DecidableEq, Repr

namespace Instruction

/-- The table entries of EIP 615 and EIP 616. -/
def unsupportedMetric : Nat → InstructionMetric
  | 0xb0 => ⟨.veryLow, 1, 0⟩
  | 0xb1 => ⟨.low, 2, 0⟩
  | 0xb2 => ⟨.low, 1, 0⟩
  | 0xb3 => ⟨.mid, 1, 0⟩
  | 0xb4 => ⟨.mid, 1, 0⟩
  | 0xb5 => ⟨.special, 0, 0⟩
  | 0xb6 => ⟨.special, 0, 0⟩
  | 0xb7 => ⟨.mid, 1, 0⟩
  | 0xb8 => ⟨.veryLow, 1, 0⟩
  | 0xb9 => ⟨.veryLow, 0, 1⟩
  | 0xc1 => ⟨.special, 0, 0⟩
  | 0xd6 => ⟨.special, 1, 1⟩
  | 0xe0 => ⟨.veryLow, 1, 1⟩
  | 0xe1 => ⟨.veryLow, 1, 1⟩
  | 0xe2 => ⟨.veryLow, 2, 0⟩
  | 0xe4 => ⟨.special, 1, 1⟩
  | 0xe5 => ⟨.special, 2, 0⟩
  | 0xe6 => ⟨.veryLow, 1, 1⟩
  | 0xe7 => ⟨.veryLow, 1, 1⟩
  | 0xe9 => ⟨.special, 3, 1⟩
  | 0xeb => ⟨.special, 3, 1⟩
  | n =>
      if n ∈ [0xc2, 0xc3, 0xc4, 0xc5, 0xc6, 0xc7, 0xd0, 0xd1, 0xd2, 0xd3, 0xd4, 0xd5, 0xd8, 0xd9,
          0xdb, 0xdc, 0xdd, 0xde, 0xdf, 0xe8, 0xea] then ⟨.special, 2, 1⟩
      else ⟨.invalid, 0, 0⟩

/-- The instruction of a byte. -/
def ofByte (b : UInt8) : Instruction :=
  match b.toNat with
  | 0x00 => .stop
  | 0x01 => .add
  | 0x02 => .mul
  | 0x03 => .sub
  | 0x04 => .div
  | 0x05 => .sdiv
  | 0x06 => .mod
  | 0x07 => .smod
  | 0x08 => .addmod
  | 0x09 => .mulmod
  | 0x0a => .exp
  | 0x0b => .signextend
  | 0x10 => .lt
  | 0x11 => .gt
  | 0x12 => .slt
  | 0x13 => .sgt
  | 0x14 => .eq
  | 0x15 => .iszero
  | 0x16 => .and
  | 0x17 => .or
  | 0x18 => .xor
  | 0x19 => .not
  | 0x1a => .byte
  | 0x1b => .shl
  | 0x1c => .shr
  | 0x1d => .sar
  | 0x20 => .sha3
  | 0x30 => .address
  | 0x31 => .balance
  | 0x32 => .origin
  | 0x33 => .caller
  | 0x34 => .callvalue
  | 0x35 => .calldataload
  | 0x36 => .calldatasize
  | 0x37 => .calldatacopy
  | 0x38 => .codesize
  | 0x39 => .codecopy
  | 0x3a => .gasprice
  | 0x3b => .extcodesize
  | 0x3c => .extcodecopy
  | 0x3d => .returndatasize
  | 0x3e => .returndatacopy
  | 0x40 => .blockhash
  | 0x41 => .coinbase
  | 0x42 => .timestamp
  | 0x43 => .number
  | 0x44 => .difficulty
  | 0x45 => .gaslimit
  | 0x50 => .pop
  | 0x51 => .mload
  | 0x52 => .mstore
  | 0x53 => .mstore8
  | 0x54 => .sload
  | 0x55 => .sstore
  | 0x56 => .jump
  | 0x57 => .jumpi
  | 0x58 => .pc
  | 0x59 => .msize
  | 0x5a => .gas
  | 0x5b => .jumpdest
  | 0xac => .pushc
  | 0xad => .jumpc
  | 0xae => .jumpci
  | 0xf0 => .create
  | 0xf1 => .call
  | 0xf2 => .callcode
  | 0xf3 => .ret
  | 0xf4 => .delegatecall
  | 0xfa => .staticcall
  | 0xfb => .create2
  | 0xfd => .revert
  | 0xfe => .invalid
  | 0xff => .suicide
  | n =>
      if 0x60 ≤ n ∧ n ≤ 0x7f then .push (n - 0x60 + 1)
      else if 0x80 ≤ n ∧ n ≤ 0x8f then .dup (n - 0x80 + 1)
      else if 0x90 ≤ n ∧ n ≤ 0x9f then .swap (n - 0x90 + 1)
      else if 0xa0 ≤ n ∧ n ≤ 0xa4 then .log (n - 0xa0)
      else .unsupported (unsupportedMetric n)

/-- The entry of `c_metrics`, from `c_instructionInfo`. -/
def metric : Instruction → InstructionMetric
  | .stop => ⟨.zero, 0, 0⟩
  | .add | .sub => ⟨.veryLow, 2, 1⟩
  | .mul | .div | .sdiv | .mod | .smod => ⟨.low, 2, 1⟩
  | .exp => ⟨.special, 2, 1⟩
  | .not => ⟨.veryLow, 1, 1⟩
  | .lt | .gt | .slt | .sgt | .eq => ⟨.veryLow, 2, 1⟩
  | .iszero => ⟨.veryLow, 1, 1⟩
  | .and | .or | .xor | .byte | .shl | .shr | .sar => ⟨.veryLow, 2, 1⟩
  | .addmod | .mulmod => ⟨.mid, 3, 1⟩
  | .signextend => ⟨.low, 2, 1⟩
  | .sha3 => ⟨.special, 2, 1⟩
  | .address | .origin | .caller | .callvalue | .calldatasize | .codesize | .gasprice
  | .returndatasize => ⟨.base, 0, 1⟩
  | .balance | .extcodesize | .blockhash => ⟨.special, 1, 1⟩
  | .calldataload => ⟨.veryLow, 1, 1⟩
  | .calldatacopy | .codecopy | .returndatacopy => ⟨.veryLow, 3, 0⟩
  | .extcodecopy => ⟨.special, 4, 0⟩
  | .coinbase | .timestamp | .number | .difficulty | .gaslimit => ⟨.base, 0, 1⟩
  | .pop => ⟨.base, 1, 0⟩
  | .mload => ⟨.veryLow, 1, 1⟩
  | .mstore | .mstore8 => ⟨.veryLow, 2, 0⟩
  | .sload => ⟨.special, 1, 1⟩
  | .sstore => ⟨.special, 2, 0⟩
  | .jump | .jumpc => ⟨.mid, 1, 0⟩
  | .jumpi | .jumpci => ⟨.high, 2, 0⟩
  | .pc | .msize | .gas => ⟨.base, 0, 1⟩
  | .jumpdest => ⟨.special, 0, 0⟩
  | .push _ | .pushc => ⟨.veryLow, 0, 1⟩
  | .dup n => ⟨.veryLow, n, n + 1⟩
  | .swap n => ⟨.veryLow, n + 1, n + 1⟩
  | .log n => ⟨.special, n + 2, 0⟩
  | .create => ⟨.special, 3, 1⟩
  | .create2 => ⟨.special, 4, 1⟩
  | .call | .callcode => ⟨.special, 7, 1⟩
  | .delegatecall | .staticcall => ⟨.special, 6, 1⟩
  | .ret => ⟨.zero, 2, 0⟩
  | .revert => ⟨.special, 2, 0⟩
  | .invalid => ⟨.zero, 0, 0⟩
  | .suicide => ⟨.special, 1, 0⟩
  | .unsupported metric => metric

/-- The number of bytes that an instruction pushes. -/
def pushBytes : Instruction → Nat
  | .push n => n
  | _ => 0

end Instruction

end CppSwc.Evm
