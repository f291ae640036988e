import Std.Data.ExtTreeMap
import Std.Data.ExtTreeSet
import CppSwc.Core.Rlp

/-!
# Common types

Numbers, addresses and the answers that the queues of libethereum share.
-/

namespace CppSwc

/-- `u256`, which wraps. -/
abbrev U256 := BitVec 256

/-- `Address`. -/
abbrev Address := BitVec 160

/-- Hashes and numbers of 256 bits are ordered. -/
instance : Std.TransOrd H256 := inferInstance

instance : Std.LawfulEqOrd H256 := inferInstance

/-- So are addresses. -/
instance : Std.TransOrd Address := inferInstance

instance : Std.LawfulEqOrd Address := inferInstance

/-- `ImportResult`. -/
inductive ImportResult where
  | success
  | unknownParent
  | futureTimeKnown
  | futureTimeUnknown
  | alreadyInChain
  | alreadyKnown
  | malformed
  | overbidGasPrice
  | badChain
  | zeroSignature
deriving DecidableEq, Repr

/-- `QueueStatus`. -/
inductive QueueStatus where
  | ready
  | importing
  | unknownParent
  | bad
  | unknown
deriving DecidableEq, Repr

/-- `IfDropped`. -/
inductive IfDropped where
  | ignore
  | retry
deriving DecidableEq, Repr

end CppSwc
