import CppSwc.Core.Common
import Mathlib.Data.List.FinRange

/-!
# Blooms and log entries

A `LogBloom` is a set of bits, and `shiftBloom` adds three of them for a hash.  A bloom
that contains the bits of a whole also contains those of its parts, by `contains_or`, and
keeps what it contains when more is added, by `contains_or_left`.

The hash function is a parameter, on addresses and on topics.
-/

namespace CppSwc

/-- `LogBloom`, an `h2048`. -/
structure LogBloom where
  bits : BitVec 2048
deriving DecidableEq

namespace LogBloom

/-- The empty bloom. -/
def empty : LogBloom := ⟨0⟩

/-- `operator|`. -/
def or (b c : LogBloom) : LogBloom := ⟨b.bits ||| c.bits⟩

/-- `contains`. -/
def contains (b c : LogBloom) : Bool := b.bits &&& c.bits == c.bits

/-- The place of a bit in `bloomPart<3>`: two bytes of the hash and the mask. -/
def bloomIndex (h : H256) (i : ℕ) : ℕ := (h >>> (240 - 16 * i)).toNat % 2 ^ 16 % 2 ^ 11

/-- `bloomPart<3>`. -/
def bloomPart (h : H256) : LogBloom :=
  ⟨BitVec.twoPow 2048 (bloomIndex h 0) ||| BitVec.twoPow 2048 (bloomIndex h 1) |||
    BitVec.twoPow 2048 (bloomIndex h 2)⟩

/-- `shiftBloom<3>`. -/
def shiftBloom (b : LogBloom) (h : H256) : LogBloom := b.or (bloomPart h)

/-- `containsBloom<3>`. -/
def containsBloom (b : LogBloom) (h : H256) : Bool := b.contains (bloomPart h)

variable {b c d : LogBloom} {h : H256}

theorem contains_iff : b.contains c = true ↔
    ∀ i, c.bits.getLsbD i = true → b.bits.getLsbD i = true := by
  rw [contains, beq_iff_eq]
  constructor
  · intro heq i hi
    rw [← heq, BitVec.getLsbD_and, Bool.and_eq_true] at hi
    exact hi.1
  · intro hsub
    refine BitVec.eq_of_getLsbD_eq fun i _ => ?_
    rw [BitVec.getLsbD_and]
    cases hc : c.bits.getLsbD i with
    | false => exact Bool.and_false _
    | true => rw [hsub i hc, Bool.and_true]

theorem contains_self (b : LogBloom) : b.contains b = true := contains_iff.mpr fun _ hi => hi

theorem contains_trans (hbc : b.contains c = true) (hcd : c.contains d = true) :
    b.contains d = true :=
  contains_iff.mpr fun i hi => contains_iff.mp hbc i (contains_iff.mp hcd i hi)

theorem contains_or : b.contains (c.or d) = true ↔ b.contains c = true ∧ b.contains d = true := by
  simp only [contains_iff, or, BitVec.getLsbD_or, Bool.or_eq_true, or_imp, forall_and]

theorem contains_or_left (hbd : b.contains d = true) : (b.or c).contains d = true := by
  rw [contains_iff] at hbd ⊢
  intro i hi
  rw [or, BitVec.getLsbD_or, hbd i hi, Bool.true_or]

theorem contains_or_right (hcd : c.contains d = true) : (b.or c).contains d = true := by
  rw [contains_iff] at hcd ⊢
  intro i hi
  rw [or, BitVec.getLsbD_or, hcd i hi, Bool.or_true]

theorem contains_empty (b : LogBloom) : b.contains empty = true := by
  rw [contains_iff]
  intro i hi
  simp [empty] at hi

theorem contains_shiftBloom :
    b.contains (c.shiftBloom h) = true ↔ b.contains c = true ∧ b.containsBloom h = true :=
  contains_or

/-- A bloom with a list of hashes added. -/
theorem contains_foldl_shiftBloom {hs : List H256} : b.contains (hs.foldl shiftBloom c) = true ↔
    b.contains c = true ∧ ∀ h ∈ hs, b.containsBloom h = true := by
  induction hs generalizing c with
  | nil => simp
  | cons h hs ih => rw [List.foldl_cons, ih, contains_shiftBloom, List.forall_mem_cons, and_assoc]

/-- A union contains each of its members. -/
theorem contains_foldl_or {bs : List LogBloom} (hb : b ∈ bs) (hbd : b.contains d = true) :
    (bs.foldl or c).contains d = true := by
  have hkeep : ∀ (bs : List LogBloom) (c : LogBloom), c.contains d = true →
      (bs.foldl or c).contains d = true := by
    intro bs
    induction bs with
    | nil => exact fun _ hc => hc
    | cons x bs ih => exact fun c hc => ih _ (contains_or_left hc)
  induction bs generalizing c with
  | nil => cases hb
  | cons x bs ih =>
      rcases List.mem_cons.mp hb with rfl | hb
      · exact hkeep bs _ (contains_or_right hbd)
      · exact ih hb

end LogBloom

/-- `sha3` of addresses and of topics. -/
structure LogHashes where
  address : Address → H256
  topic : H256 → H256

/-- `LogEntry`. -/
structure LogEntry where
  address : Address
  topics : List H256
  data : Bytes
deriving DecidableEq, Repr

/-- `LogEntry::bloom`. -/
def LogEntry.bloom (sha3 : LogHashes) (e : LogEntry) : LogBloom :=
  (e.topics.map sha3.topic).foldl LogBloom.shiftBloom
    (LogBloom.empty.shiftBloom (sha3.address e.address))

/-- `LogEntries`. -/
abbrev LogEntries := List LogEntry

/-- `bloom` of log entries, which is the bloom of a receipt. -/
def LogEntries.bloom (sha3 : LogHashes) (logs : LogEntries) : LogBloom :=
  (logs.map (·.bloom sha3)).foldl LogBloom.or .empty

/-- The bloom of a log contains what an entry has. -/
theorem LogEntries.contains_bloom (sha3 : LogHashes) {logs : LogEntries} {e : LogEntry}
    (he : e ∈ logs) : (logs.bloom sha3).containsBloom (sha3.address e.address) = true ∧
      ∀ t ∈ e.topics, (logs.bloom sha3).containsBloom (sha3.topic t) = true := by
  have hentry : (logs.bloom sha3).contains (e.bloom sha3) = true :=
    LogBloom.contains_foldl_or (List.mem_map_of_mem he) (LogBloom.contains_self _)
  rw [LogEntry.bloom, LogBloom.contains_foldl_shiftBloom, LogBloom.contains_shiftBloom] at hentry
  refine ⟨hentry.1.2, fun t ht => ?_⟩
  exact hentry.2 _ (List.mem_map_of_mem ht)

end CppSwc
