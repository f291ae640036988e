import Mathlib.Algebra.Order.BigOperators.Group.List
import Mathlib.Algebra.Order.Ring.Nat
import CppSwc.BlockQueue.Queue

/-!
# The byte counts of the block queue

`SizedBlockQueue` and `SizedBlockMap` keep the size in bytes of what they hold, which
`knownFull` and `unknownFull` compare with their limits.  Two operations miscount.

`SizedBlockMap::insert` adds the size of the block after it has moved the block away, so
a block with data is subtracted when it leaves and was never added.  `removeIf` sums up
what `std::remove_if` leaves behind the new end.  A removed block that stands there is
counted.  One that stands further up has been overwritten, and in the place of the block
that was moved over it there is an empty one.
-/

namespace CppSwc

open Lib

/-- Blocks with a number of bytes, which `blockData.size()` gives. -/
class HasByteCount (α : Type) extends HasBlockData α where
  /-- The number of bytes. -/
  byteCount : α → Nat
  dataSize_eq : ∀ b, dataSize b = .ofNat 64 (byteCount b)
  byteCount_movedFrom : ∀ b, byteCount (movedFrom b) = 0

instance : HasByteCount UnverifiedBlock where
  byteCount b := b.blockData.bytes.length
  dataSize_eq _ := rfl
  byteCount_movedFrom _ := rfl

instance : HasByteCount VerifiedBlock where
  byteCount b := b.blockData.length
  dataSize_eq _ := rfl
  byteCount_movedFrom _ := rfl

export HasByteCount (byteCount)

/-! ## Sums of sizes -/

/-- The size of a list of blocks. -/
def totalBytes {α : Type} [HasByteCount α] (bs : List α) : Nat := (bs.map byteCount).sum

section Total

variable {α : Type} [HasByteCount α] {bs : List α} {pred : α → Bool}

@[simp] theorem totalBytes_nil : totalBytes ([] : List α) = 0 := rfl

@[simp] theorem totalBytes_cons (b : α) (bs : List α) :
    totalBytes (b :: bs) = byteCount b + totalBytes bs := by
  simp [totalBytes]

@[simp] theorem totalBytes_append (bs bs' : List α) :
    totalBytes (bs ++ bs') = totalBytes bs + totalBytes bs' := by
  simp [totalBytes]

/-- What meets a condition and what does not make up the whole. -/
theorem totalBytes_filter (pred : α → Bool) (bs : List α) :
    totalBytes (bs.filter pred) + totalBytes (bs.filter (!pred ·)) = totalBytes bs := by
  induction bs with
  | nil => rfl
  | cons b bs ih =>
      rw [List.filter_cons, List.filter_cons]
      cases pred b <;> simp <;> omega

theorem totalBytes_eq_zero_iff : totalBytes bs = 0 ↔ ∀ b ∈ bs, byteCount b = 0 := by
  induction bs with
  | nil => simp
  | cons b bs ih => simp [ih]

/-- The sum the code computes. -/
theorem dataSizes_eq (bs : List α) :
    SizedBlockQueue.dataSizes bs = .ofNat 64 (totalBytes bs) := by
  have hsum : ∀ (bs : List α) (n : BitVec 64),
      bs.foldl (fun n b => n + HasBlockData.dataSize b) n = n + .ofNat 64 (totalBytes bs) := by
    intro bs
    induction bs with
    | nil => simp
    | cons b bs ih =>
        intro n
        rw [List.foldl_cons, ih, HasByteCount.dataSize_eq, totalBytes_cons, BitVec.ofNat_add,
          BitVec.add_assoc]
  rw [SizedBlockQueue.dataSizes, hsum]
  exact BitVec.zero_add _

/-- A subtraction that does not wrap. -/
theorem toNat_sub_ofNat {n : BitVec 64} {m : Nat} (h : m ≤ n.toNat) :
    (n - .ofNat 64 m).toNat = n.toNat - m := by
  have hlt := n.isLt
  have hm : (BitVec.ofNat 64 m).toNat = m := by
    rw [BitVec.toNat_ofNat, Nat.mod_eq_of_lt (by omega)]
  rw [BitVec.toNat_sub_of_le (by rw [BitVec.le_def, hm]; exact h), hm]

/-- An addition that does not wrap. -/
theorem toNat_add_ofNat {n : BitVec 64} {m : Nat} (h : n.toNat + m < 2 ^ 64) :
    (n + .ofNat 64 m).toNat = n.toNat + m := by
  have hm : (BitVec.ofNat 64 m).toNat = m := by
    rw [BitVec.toNat_ofNat, Nat.mod_eq_of_lt (by omega)]
  rw [BitVec.toNat_add_of_lt (by rw [hm]; exact h), hm]

/-- Where one block stands in for another, its size does. -/
theorem totalBytes_replaceFirst {b old : α} (h : bs.find? pred = some old) :
    totalBytes (SizedBlockQueue.replaceFirst pred b bs) + byteCount old =
      totalBytes bs + byteCount b := by
  induction bs with
  | nil => cases h
  | cons x bs ih =>
      rw [List.find?_cons] at h
      rw [SizedBlockQueue.replaceFirst]
      cases hx : pred x with
      | true =>
          rw [hx] at h
          cases h
          simp only [if_true, totalBytes_cons]
          omega
      | false =>
          rw [hx] at h
          have hrest := ih h
          simp only [Bool.false_eq_true, if_false, totalBytes_cons]
          omega

/-- What stands behind the new end sums up to the removed blocks that stand there. -/
theorem totalBytes_tail {tail : Nat → α}
    (h : ∀ i b, bs[i]? = some b →
      (pred b = true → tail i = b) ∧ (pred b = false → byteCount (tail i) = 0)) :
    totalBytes ((List.range bs.length).map tail) = totalBytes (bs.filter pred) := by
  induction bs generalizing tail with
  | nil => rfl
  | cons b bs ih =>
      have hrest : totalBytes ((List.range bs.length).map (tail ∘ Nat.succ)) =
          totalBytes (bs.filter pred) := by
        apply ih
        intro i b' hi
        exact h (i + 1) b' hi
      obtain ⟨hkept, hmoved⟩ := h 0 b rfl
      rw [List.length_cons, List.range_succ_eq_map, List.map_cons, List.map_map, totalBytes_cons,
        hrest, List.filter_cons]
      cases hb : pred b with
      | true => rw [hkept hb, if_pos rfl, totalBytes_cons]
      | false => rw [hmoved hb, if_neg Bool.false_ne_true, Nat.zero_add]

end Total

/-! ## Queues -/

namespace SizedBlockQueue

variable {α : Type} [HasByteCount α] {s : SizedBlockQueue α} {pred : α → Bool}

/-- The operations.  `remove` is a `removeIf`, and `replace` a `replaceIf`. -/
inductive Op (α : Type) where
  | enqueue (b : α)
  | dequeue
  | dequeueMultiple (n : Nat)
  | removeIf (tail : Nat → α) (pred : α → Bool)
  | replaceIf (pred : α → Bool) (b : α)
  | clear

/-- The queue after an operation. -/
def next (s : SizedBlockQueue α) : Op α → SizedBlockQueue α
  | .enqueue b => s.enqueue b
  | .dequeue => s.dequeue
  | .dequeueMultiple n => (s.dequeueMultiple n).2
  | .removeIf tail pred => (s.removeIf tail pred).2
  | .replaceIf pred b => s.replaceIf pred b
  | .clear => {}

/-- What an operation subtracts. -/
def subtracted (s : SizedBlockQueue α) : Op α → Nat
  | .enqueue _ => 0
  | .dequeue => (s.queue.head?.map byteCount).getD 0
  | .dequeueMultiple n => totalBytes (s.queue.take n)
  | .removeIf tail pred => totalBytes ((List.range (s.queue.countP pred)).map tail)
  | .replaceIf pred _ => ((s.queue.find? pred).map byteCount).getD 0
  | .clear => 0

/-- The size is that of the blocks. -/
def Accounted (s : SizedBlockQueue α) : Prop := s.size.toNat = totalBytes s.queue

/-- Of `leftBehind` this much is needed: behind the new end a removed block is where it
was, and in the place of another one there is a block without data. -/
def LeavesBehind (s : SizedBlockQueue α) : Op α → Prop
  | .removeIf tail pred => ∀ i b, (s.queue.drop (s.newEnd pred))[i]? = some b →
      (pred b = true → tail i = b) ∧ (pred b = false → byteCount (tail i) = 0)
  | _ => True

/-- Of the blocks an operation removes, those in front of the new end are without data. -/
def Exact (s : SizedBlockQueue α) : Op α → Prop
  | .removeIf _ pred => ∀ b ∈ s.queue.take (s.newEnd pred), pred b = true → byteCount b = 0
  | _ => True

omit [HasByteCount α] in
theorem length_drop_newEnd : (s.queue.drop (s.newEnd pred)).length = s.queue.countP pred := by
  have hall := List.length_eq_countP_add_countP pred (l := s.queue)
  simp only [Bool.not_eq_true, Bool.decide_eq_false] at hall
  rw [List.length_drop, newEnd]
  omega

/-- What implementations leave is as needed. -/
theorem leavesBehind_of_leaves [DecidableEq α] {tail : Nat → α} (h : s.leaves tail pred = true) :
    s.LeavesBehind (.removeIf tail pred) := by
  intro i b hi
  have hlt : i < s.queue.countP pred :=
    length_drop_newEnd (s := s) ▸ (List.getElem?_eq_some_iff.mp hi).1
  have hread : tail i = if pred b then b else HasBlockData.movedFrom b := by
    have hat := congrArg (·[i]?) (of_decide_eq_true h)
    simp only [removeIf, leftBehind, List.getElem?_map, hi, List.getElem?_range hlt,
      Option.map_some] at hat
    exact Option.some.inj hat
  constructor
  · intro hpred
    rw [hread, if_pos hpred]
  · intro hpred
    rw [hread, hpred, if_neg Bool.false_ne_true, HasByteCount.byteCount_movedFrom]

/-- The sizes of the removed blocks: those in front of the new end, and those that are
still there. -/
theorem totalBytes_removed {tail : Nat → α} (h : s.LeavesBehind (.removeIf tail pred)) :
    totalBytes (s.queue.filter pred) = totalBytes ((s.queue.take (s.newEnd pred)).filter pred) +
      totalBytes ((List.range (s.queue.countP pred)).map tail) := by
  rw [← length_drop_newEnd, totalBytes_tail h, ← totalBytes_append, ← List.filter_append,
    List.take_append_drop]

/-- A block that is found is one of the queue. -/
theorem byteCount_le_of_find? {bs : List α} {b : α} (h : bs.find? pred = some b) :
    byteCount b ≤ totalBytes bs :=
  List.le_sum_of_mem (List.mem_map_of_mem (List.mem_of_find?_eq_some h))

/-- One operation. -/
theorem accounted_next (op : Op α) (h : s.Accounted) (hleft : s.LeavesBehind op)
    (hfits : totalBytes (s.next op).queue < 2 ^ 64) :
    s.subtracted op ≤ s.size.toNat ∧ ((s.next op).Accounted ↔ s.Exact op) := by
  rw [Accounted] at h
  cases op with
  | enqueue b =>
      simp only [next, enqueue, totalBytes_append, totalBytes_cons, totalBytes_nil] at hfits
      simp only [next, enqueue, subtracted, Accounted, Exact, totalBytes_append, totalBytes_cons,
        totalBytes_nil, HasByteCount.dataSize_eq]
      rw [toNat_add_ofNat (by omega), iff_true]
      omega
  | dequeue =>
      simp only [next, dequeue, subtracted, Accounted, Exact]
      cases hqueue : s.queue with
      | nil =>
          rw [hqueue] at h
          simp [h, hqueue]
      | cons b bs =>
          rw [hqueue, totalBytes_cons] at h
          simp only [List.head?_cons, Option.map_some, Option.getD_some, HasByteCount.dataSize_eq]
          rw [toNat_sub_ofNat (by omega), iff_true]
          omega
  | dequeueMultiple n =>
      have hsplit : totalBytes s.queue =
          totalBytes (s.queue.take n) + totalBytes (s.queue.drop n) := by
        rw [← totalBytes_append, List.take_append_drop]
      simp only [next, dequeueMultiple, subtracted, Accounted, Exact, dataSizes_eq]
      rw [toNat_sub_ofNat (by omega), iff_true]
      omega
  | removeIf tail pred =>
      have hremoved := totalBytes_removed hleft
      have hsplit := totalBytes_filter pred s.queue
      have hexact : s.Exact (.removeIf tail pred) ↔
          totalBytes ((s.queue.take (s.newEnd pred)).filter pred) = 0 := by
        simp only [Exact, totalBytes_eq_zero_iff, List.mem_filter, and_imp]
      rw [hexact]
      simp only [next, removeIf, subtracted, Accounted, dataSizes_eq]
      rw [toNat_sub_ofNat (by omega)]
      omega
  | replaceIf pred b =>
      simp only [next, replaceIf] at hfits
      simp only [next, replaceIf, subtracted, Accounted, Exact]
      cases hfind : s.queue.find? pred with
      | none => simp [h]
      | some old =>
          have hsum := totalBytes_replaceFirst (b := b) hfind
          have hold := byteCount_le_of_find? hfind
          rw [hfind] at hfits
          dsimp only at hfits
          simp only [Option.map_some, Option.getD_some, HasByteCount.dataSize_eq]
          rw [toNat_add_ofNat (by rw [toNat_sub_ofNat (by omega)]; omega),
            toNat_sub_ofNat (by omega), iff_true]
          omega
  | clear => simp [next, subtracted, Accounted, Exact]

end SizedBlockQueue

/-! ## Maps -/

namespace SizedBlockMap

variable {κ : Type} [LE κ] [DecidableLE κ] [DecidableEq κ] {m : SizedBlockMap κ}

/-- The size of the entries. -/
def entryBytes (es : List (κ × H256 × Block)) : Nat := (es.map fun e => e.2.2.bytes.length).sum

/-- `removeByKeyEqual`. -/
def removeByKeyEqual (k : κ) (m : SizedBlockMap κ) : SizedBlockMap κ :=
  m.removeRange (m.map.filter fun e => e.1 = k) (m.map.filter fun e => ¬ e.1 = k)

/-- `removeByKeyNotGreater`. -/
def removeByKeyNotGreater (k : κ) (m : SizedBlockMap κ) : SizedBlockMap κ :=
  m.removeRange (m.map.filter fun e => e.1 ≤ k) (m.map.filter fun e => ¬ e.1 ≤ k)

/-- The operations. -/
inductive Op (κ : Type) where
  | insert (k : κ) (hash : H256) (b : Block)
  | removeByKeyEqual (k : κ)
  | removeByKeyNotGreater (k : κ)
  | clear

/-- The map after an operation. -/
def next (m : SizedBlockMap κ) : Op κ → SizedBlockMap κ
  | .insert k hash b => m.insert k hash b
  | .removeByKeyEqual k => m.removeByKeyEqual k
  | .removeByKeyNotGreater k => m.removeByKeyNotGreater k
  | .clear => {}

/-- What an operation subtracts. -/
def subtracted (m : SizedBlockMap κ) : Op κ → Nat
  | .removeByKeyEqual k => entryBytes (m.map.filter fun e => e.1 = k)
  | .removeByKeyNotGreater k => entryBytes (m.map.filter fun e => e.1 ≤ k)
  | _ => 0

/-- The size is that of the blocks. -/
def Accounted (m : SizedBlockMap κ) : Prop := m.size.toNat = entryBytes m.map

/-- A block that is inserted has no data. -/
def Exact : Op κ → Prop
  | .insert _ _ b => b.bytes = []
  | _ => True

omit [LE κ] [DecidableLE κ] [DecidableEq κ] in
theorem entryBytes_filter (p : κ × H256 × Block → Bool) (es : List (κ × H256 × Block)) :
    entryBytes (es.filter p) + entryBytes (es.filter (!p ·)) = entryBytes es := by
  induction es with
  | nil => rfl
  | cons e es ih =>
      rw [List.filter_cons, List.filter_cons]
      cases p e <;> simp [entryBytes] at ih ⊢ <;> omega

omit [LE κ] [DecidableLE κ] [DecidableEq κ] in
/-- The range of a removal is subtracted. -/
theorem accounted_removeRange {removed rest : List (κ × H256 × Block)} (h : m.Accounted)
    (hsplit : entryBytes removed + entryBytes rest = entryBytes m.map) :
    entryBytes removed ≤ m.size.toNat ∧ (m.removeRange removed rest).Accounted := by
  have hsum : ∀ (es : List (κ × H256 × Block)) (n : BitVec 64),
      es.foldl (fun n e => n + .ofNat 64 e.2.2.bytes.length) n = n + .ofNat 64 (entryBytes es) := by
    intro es
    induction es with
    | nil => simp [entryBytes]
    | cons e es ih =>
        intro n
        rw [List.foldl_cons, ih, entryBytes, entryBytes, List.map_cons, List.sum_cons,
          BitVec.ofNat_add, BitVec.add_assoc]
  rw [Accounted] at h ⊢
  have hzero : (0 : BitVec 64) + .ofNat 64 (entryBytes removed) = .ofNat 64 (entryBytes removed) :=
    BitVec.zero_add _
  rw [removeRange, hsum, hzero]
  refine ⟨by omega, ?_⟩
  rw [toNat_sub_ofNat (by omega)]
  dsimp only
  omega

omit [DecidableEq κ] in
theorem entryBytes_insertEntry (k : κ) (v : H256 × Block) (es : List (κ × H256 × Block)) :
    entryBytes (insertEntry k v es) = v.2.bytes.length + entryBytes es := by
  rw [entryBytes, ((insertEntry_perm k v es).map _).sum_eq]
  simp [entryBytes]

/-- One operation. -/
theorem accounted_next (op : Op κ) (h : m.Accounted) :
    m.subtracted op ≤ m.size.toNat ∧ ((m.next op).Accounted ↔ Exact op) := by
  cases op with
  | insert k hash b =>
      rw [Accounted] at h
      simp only [next, insert, subtracted, Accounted, Exact, entryBytes_insertEntry,
        ← List.length_eq_zero_iff]
      omega
  | removeByKeyEqual k =>
      have hkeep := accounted_removeRange h (entryBytes_filter (fun e => e.1 = k) m.map)
      simp only [next, removeByKeyEqual, subtracted, Exact, iff_true]
      simpa using hkeep
  | removeByKeyNotGreater k =>
      have hkeep := accounted_removeRange h (entryBytes_filter (fun e => e.1 ≤ k) m.map)
      simp only [next, removeByKeyNotGreater, subtracted, Exact, iff_true]
      simpa using hkeep
  | clear => simp [next, subtracted, Accounted, Exact, entryBytes]

end SizedBlockMap

/-! ## The queue -/

namespace BlockQueue

/-- `c_maxKnownCount`. -/
def maxKnownCount : Nat := 100000

/-- `c_maxKnownSize`. -/
def maxKnownSize : Nat := 128 * 1024 * 1024

/-- `c_maxUnknownCount`. -/
def maxUnknownCount : Nat := 100000

/-- `c_maxUnknownSize`. -/
def maxUnknownSize : Nat := 512 * 1024 * 1024

/-- `knownSize`. -/
def knownSize (q : BlockQueue) : BitVec 64 := q.verified.size + q.unverified.size + q.verifying.size

/-- `knownFull`. -/
def knownFull (q : BlockQueue) : Bool :=
  maxKnownSize < q.knownSize.toNat || maxKnownCount < q.knownCount

/-- `unknownSize`. -/
def unknownSize (q : BlockQueue) : BitVec 64 := q.future.size + q.unknown.size

/-- `unknownCount`. -/
def unknownCount (q : BlockQueue) : Nat := q.future.map.length + q.unknown.map.length

/-- `unknownFull`. -/
def unknownFull (q : BlockQueue) : Bool :=
  maxUnknownSize < q.unknownSize.toNat || maxUnknownCount < q.unknownCount

/-- An operation on one of the containers. -/
inductive ContainerOp where
  | future (op : SizedBlockMap.Op Nat)
  | unknown (op : SizedBlockMap.Op H256)
  | verified (op : SizedBlockQueue.Op VerifiedBlock)
  | verifying (op : SizedBlockQueue.Op VerifiedBlock)
  | unverified (op : SizedBlockQueue.Op UnverifiedBlock)

/-- The queue after the operation. -/
def onContainer (q : BlockQueue) : ContainerOp → BlockQueue
  | .future op => { q with future := q.future.next op }
  | .unknown op => { q with unknown := q.unknown.next op }
  | .verified op => { q with verified := q.verified.next op }
  | .verifying op => { q with verifying := q.verifying.next op }
  | .unverified op => { q with unverified := q.unverified.next op }

/-- The bytes of the blocks on their way to the chain. -/
def knownBytes (q : BlockQueue) : Nat :=
  totalBytes q.verified.queue + totalBytes q.unverified.queue + totalBytes q.verifying.queue

/-- The bytes of the blocks that wait. -/
def unknownBytes (q : BlockQueue) : Nat :=
  SizedBlockMap.entryBytes q.future.map + SizedBlockMap.entryBytes q.unknown.map

/-- The blocks fit into the address space. -/
def Fits (q : BlockQueue) : Prop := q.knownBytes + q.unknownBytes < 2 ^ 64

instance (q : BlockQueue) : Decidable q.Fits :=
  inferInstanceAs (Decidable (_ < _))

/-- All sizes are those of the blocks. -/
structure Accounted (q : BlockQueue) : Prop where
  future : q.future.Accounted
  unknown : q.unknown.Accounted
  verified : q.verified.Accounted
  verifying : q.verifying.Accounted
  unverified : q.unverified.Accounted

/-- The limits are compared with the bytes there are. -/
structure LimitsCompared (q : BlockQueue) : Prop where
  known : q.knownFull = true ↔ maxKnownSize < q.knownBytes ∨ maxKnownCount < q.knownCount
  unknown : q.unknownFull = true ↔
    maxUnknownSize < q.unknownBytes ∨ maxUnknownCount < q.unknownCount

variable {q : BlockQueue}

/-- Right sizes are compared with the limits. -/
theorem Accounted.limitsCompared (h : q.Accounted) (hfits : q.Fits) : q.LimitsCompared := by
  obtain ⟨hfuture, hunknown, hverified, hverifying, hunverified⟩ := h
  rw [SizedBlockMap.Accounted] at hfuture hunknown
  rw [SizedBlockQueue.Accounted] at hverified hverifying hunverified
  rw [Fits] at hfits
  constructor
  · have hsize : q.knownSize.toNat = q.knownBytes := by
      simp only [knownBytes, unknownBytes] at hfits
      have htwo : (q.verified.size + q.unverified.size).toNat =
          totalBytes q.verified.queue + totalBytes q.unverified.queue := by
        rw [BitVec.toNat_add_of_lt (by omega), hverified, hunverified]
      rw [knownSize, knownBytes, BitVec.toNat_add_of_lt (by omega), htwo, hverifying]
    rw [knownFull, hsize, Bool.or_eq_true, decide_eq_true_eq, decide_eq_true_eq]
  · have hsize : q.unknownSize.toNat = q.unknownBytes := by
      simp only [knownBytes, unknownBytes] at hfits
      rw [unknownSize, unknownBytes, BitVec.toNat_add_of_lt (by omega), hfuture, hunknown]
    rw [unknownFull, hsize, Bool.or_eq_true, decide_eq_true_eq, decide_eq_true_eq]

/-- The operation does not subtract more than there is. -/
def NoWrap (q : BlockQueue) : ContainerOp → Prop
  | .future op => q.future.subtracted op ≤ q.future.size.toNat
  | .unknown op => q.unknown.subtracted op ≤ q.unknown.size.toNat
  | .verified op => q.verified.subtracted op ≤ q.verified.size.toNat
  | .verifying op => q.verifying.subtracted op ≤ q.verifying.size.toNat
  | .unverified op => q.unverified.subtracted op ≤ q.unverified.size.toNat

/-- The operation wraps no subtraction, and after it all sizes are right and compared with
the limits. -/
structure NoDrift (q : BlockQueue) (op : ContainerOp) : Prop where
  noWrap : q.NoWrap op
  accounted : (q.onContainer op).Accounted
  limitsCompared : (q.onContainer op).LimitsCompared

/-- The operation leaves behind what is needed of `std::remove_if`. -/
def LeavesBehind (q : BlockQueue) : ContainerOp → Prop
  | .future _ => True
  | .unknown _ => True
  | .verified op => q.verified.LeavesBehind op
  | .verifying op => q.verifying.LeavesBehind op
  | .unverified op => q.unverified.LeavesBehind op

/-- What holds of any operation: what it leaves behind, and that the blocks after it fit
into the address space. -/
structure Possible (q : BlockQueue) (op : ContainerOp) : Prop where
  fits : (q.onContainer op).Fits
  leavesBehind : q.LeavesBehind op

/-- A block put into a map has no data, and none with data is removed from a queue in
front of the new end. -/
def CountsBytes (q : BlockQueue) : ContainerOp → Prop
  | .future op => SizedBlockMap.Exact op
  | .unknown op => SizedBlockMap.Exact op
  | .verified op => q.verified.Exact op
  | .verifying op => q.verifying.Exact op
  | .unverified op => q.unverified.Exact op

/-- One operation. -/
theorem noDrift_iff (h : q.Accounted) {op : ContainerOp} (hop : q.Possible op) :
    q.NoDrift op ↔ q.CountsBytes op := by
  obtain ⟨hfits, hleft⟩ := hop
  have hall : q.NoWrap op ∧ ((q.onContainer op).Accounted ↔ q.CountsBytes op) := by
    have hbytes := hfits
    simp only [Fits, knownBytes, unknownBytes] at hbytes
    obtain ⟨hfuture, hunknown, hverified, hverifying, hunverified⟩ := h
    cases op with
    | future op =>
        obtain ⟨hwrap, hiff⟩ := SizedBlockMap.accounted_next op hfuture
        refine ⟨hwrap, ?_⟩
        rw [CountsBytes, ← hiff]
        exact ⟨fun h => h.future, fun h => ⟨h, hunknown, hverified, hverifying, hunverified⟩⟩
    | unknown op =>
        obtain ⟨hwrap, hiff⟩ := SizedBlockMap.accounted_next op hunknown
        refine ⟨hwrap, ?_⟩
        rw [CountsBytes, ← hiff]
        exact ⟨fun h => h.unknown, fun h => ⟨hfuture, h, hverified, hverifying, hunverified⟩⟩
    | verified op =>
        obtain ⟨hwrap, hiff⟩ := SizedBlockQueue.accounted_next op hverified hleft
          (by simp only [onContainer] at hbytes; omega)
        refine ⟨hwrap, ?_⟩
        rw [CountsBytes, ← hiff]
        exact ⟨fun h => h.verified, fun h => ⟨hfuture, hunknown, h, hverifying, hunverified⟩⟩
    | verifying op =>
        obtain ⟨hwrap, hiff⟩ := SizedBlockQueue.accounted_next op hverifying hleft
          (by simp only [onContainer] at hbytes; omega)
        refine ⟨hwrap, ?_⟩
        rw [CountsBytes, ← hiff]
        exact ⟨fun h => h.verifying, fun h => ⟨hfuture, hunknown, hverified, h, hunverified⟩⟩
    | unverified op =>
        obtain ⟨hwrap, hiff⟩ := SizedBlockQueue.accounted_next op hunverified hleft
          (by simp only [onContainer] at hbytes; omega)
        refine ⟨hwrap, ?_⟩
        rw [CountsBytes, ← hiff]
        exact ⟨fun h => h.unverified, fun h => ⟨hfuture, hunknown, hverified, hverifying, h⟩⟩
  constructor
  · intro hdrift
    exact hall.2.mp hdrift.accounted
  · intro hexact
    have haccounted := hall.2.mpr hexact
    exact ⟨hall.1, haccounted, haccounted.limitsCompared hfits⟩

/-- An empty queue is accounted for. -/
theorem accounted_empty : ({} : BlockQueue).Accounted := ⟨rfl, rfl, rfl, rfl, rfl⟩

/-- Along the operations on the containers of a queue no size drifts if and only if no
block with data is put into a map, and none is removed from a queue in front of the new
end. -/
theorem noDrift_along_iff (ops : List ContainerOp) (hops : Along onContainer Possible {} ops) :
    Along onContainer NoDrift {} ops ↔ Along onContainer CountsBytes {} ops := by
  refine along_iff (I := Accounted) ?_ ?_ ops accounted_empty hops
  · intro q op h hop
    exact noDrift_iff h hop
  · intro q op h hop hexact
    exact ((noDrift_iff h hop).mpr hexact).accounted

/-- Two verified blocks are queued, the second is removed and the first drained. -/
def removeLastOps : List ContainerOp :=
  [.verified (.enqueue ⟨BlockHeader.sample 1 0, [0, 0]⟩),
    .verified (.enqueue ⟨BlockHeader.sample 2 0, [0]⟩),
    .verified (.removeIf (fun _ => ⟨BlockHeader.sample 2 0, [0]⟩) (·.blockData.length == 1)),
    .verified .dequeue]

theorem noDrift_along_removeLast : Along onContainer NoDrift {} removeLastOps := by
  have hpossible : Along onContainer Possible {} removeLastOps :=
    ⟨⟨by decide +kernel, trivial⟩, ⟨by decide +kernel, trivial⟩,
      ⟨by decide +kernel, SizedBlockQueue.leavesBehind_of_leaves (by decide +kernel)⟩,
      ⟨by decide +kernel, trivial⟩, trivial⟩
  have hexact : Along onContainer CountsBytes {} removeLastOps := by
    refine ⟨trivial, trivial, ?_, trivial, trivial⟩
    intro b hb hshort
    cases hb with
    | head => exact absurd hshort (by decide)
    | tail _ hb => cases hb
  exact (noDrift_along_iff removeLastOps hpossible).mpr hexact

/-- A block of one byte is put into `unknown` and taken out again.  The size is then one
below zero, so the empty queue reports that it is full. -/
theorem unknown_full_when_empty :
    let ops : List ContainerOp := [.unknown (.insert 7 8 (sampleBlock 8 7)),
      .unknown (.removeByKeyEqual 7)]
    Along onContainer Possible {} ops ∧ ¬ Along onContainer NoDrift {} ops ∧
      (ops.foldl onContainer {}).unknownCount = 0 ∧
      (ops.foldl onContainer {}).unknownFull = true := by
  refine ⟨⟨⟨by decide +kernel, trivial⟩, ⟨by decide +kernel, trivial⟩, trivial⟩, ?_,
    by decide +kernel, by decide +kernel⟩
  rintro ⟨hfirst, -⟩
  have hsize : (0 : Nat) = 1 := hfirst.accounted.unknown
  cases hsize

end BlockQueue

end CppSwc
