import CppSwc.P2p.NodeTable
import CppSwc.Lib.Selection
import Mathlib.Data.BitVec

/-!
# The nodes nearest to a target

`nearestNodeEntries` of a `NodeTable`.  A node at distance `n` is in the bucket `n - 1`, and the
loops start from the bucket whose number is the distance of the target.  They step through the
buckets around it and leave some out:

* the bucket 0, because the loops that go down stop before it, and the loop that goes up starts
  above it;
* if the target is at a distance `n` from 2 to 254, the buckets below `2 * n - 255`, because the
  loop that goes both ways ends when it is at the top.

So the nodes that are returned are the nearest ones exactly if no node that was left out is among
them (`isNearest_nearestNodeEntries_iff`).
-/

namespace CppSwc

open Lib Std

namespace NodeTable

/-- `distance`.  The loop counts the shifts after which the number is not zero. -/
def distance (sha3 : NodeID → H256) (a b : NodeID) : ℕ := (sha3 a ^^^ sha3 b).toNat.log2

/-- `lastBin`. -/
def lastBin : ℕ := s_bins - 1

/-- The loop that goes both ways from `head = s_bins - n` and `tail`: the buckets that it looks
into, in its order. -/
def spread : ℕ → ℕ → List ℕ
  | 0, _ => []
  | n + 1, tail =>
      let head := s_bins - (n + 1)
      if head = tail then []
      else if tail = 0 then head :: spread n 0
      else head :: tail :: spread n (tail - 1)

/-- The loop that goes up. -/
def upward : ℕ → List ℕ
  | 0 => []
  | n + 1 => (s_bins - (n + 1)) :: upward n

/-- The loop that goes down. -/
def downward : ℕ → List ℕ
  | 0 => []
  | tail + 1 => (tail + 1) :: downward tail

/-- The buckets that are looked into. -/
def scanOrder (head : ℕ) : List ℕ :=
  let tail := if head = 0 then lastBin else (head - 1) % s_bins
  if 1 < head && tail ≠ lastBin then spread (s_bins - head) tail
  else if head < 2 then upward (s_bins - head)
  else downward tail

local instance : Std.TransOrd NodeID := inferInstance

/-- The nodes of a bucket whose entries are alive. -/
def locked (s : NodeTable) (i : ℕ) : List NodeID :=
  if h : i < s_bins then (s.state ⟨i, h⟩).filter s.nodes.contains else []

/-- `found`, for some buckets. -/
def found (dist : NodeID → ℕ) (s : NodeTable) (order : List ℕ) : ExtTreeMap ℕ (List NodeID) :=
  order.foldl (fun found i => (s.locked i).foldl (fun found p => pushAt found (dist p) p) found) ∅

/-- An endpoint that is told to others. -/
def isUsable (endpoint : NodeIPEndpoint) : Bool := endpoint.isSpecified && endpoint.isAllowed

/-- `nearestNodeEntries`, with the endpoints of the entries. -/
def nearestNodeEntries (sha3 : NodeID → H256) (endpoint : NodeID → NodeIPEndpoint) (c : Center)
    (target : NodeID) (s : NodeTable) : List NodeID :=
  (contents (s.found (distance sha3 target) (scanOrder (distance sha3 c.address target)))).foldl
    (fun ret n => if ret.length < s_bucketSize && isUsable (endpoint n) then ret ++ [n] else ret) []

/-! ## The buckets that are left out -/

/-- The bucket is left out for a target at this distance. -/
def isSkipped (head i : ℕ) : Bool :=
  (head ≠ 0 && i = 0) || (2 ≤ head && head < s_bins && i + s_bins < 2 * head)

variable {n tail i head : ℕ}

theorem mem_spread (hn : n ≤ s_bins) (htail : tail < s_bins - n) :
    i ∈ spread n tail ↔ s_bins - n ≤ i ∧ i < s_bins ∨ 0 < i ∧ i ≤ tail ∧ tail < i + n := by
  induction n generalizing tail with
  | zero =>
      rw [spread]
      simp only [List.not_mem_nil, false_iff]
      omega
  | succ n ih =>
      rw [spread, if_neg (by omega)]
      split
      · rw [List.mem_cons, ih (by omega) (by omega)]
        omega
      · rw [List.mem_cons, List.mem_cons, ih (by omega) (by omega)]
        omega

theorem nodup_spread (hn : n ≤ s_bins) (htail : tail < s_bins - n) : (spread n tail).Nodup := by
  induction n generalizing tail with
  | zero => exact List.nodup_nil
  | succ n ih =>
      rw [spread, if_neg (by omega)]
      split
      · rw [List.nodup_cons, mem_spread (by omega) (by omega)]
        exact ⟨by omega, ih (by omega) (by omega)⟩
      · rw [List.nodup_cons, List.nodup_cons, List.mem_cons, mem_spread (by omega) (by omega),
          mem_spread (by omega) (by omega)]
        exact ⟨by omega, by omega, ih (by omega) (by omega)⟩

theorem mem_upward (hn : n ≤ s_bins) : i ∈ upward n ↔ s_bins - n ≤ i ∧ i < s_bins := by
  induction n with
  | zero =>
      simp only [upward, List.not_mem_nil, false_iff]
      omega
  | succ n ih =>
      rw [upward, List.mem_cons, ih (by omega)]
      omega

theorem nodup_upward (hn : n ≤ s_bins) : (upward n).Nodup := by
  induction n with
  | zero => exact List.nodup_nil
  | succ n ih =>
      rw [upward, List.nodup_cons, mem_upward (by omega)]
      exact ⟨by omega, ih (by omega)⟩

theorem mem_downward : i ∈ downward tail ↔ 0 < i ∧ i ≤ tail := by
  induction tail with
  | zero =>
      simp only [downward, List.not_mem_nil, false_iff]
      omega
  | succ tail ih =>
      rw [downward, List.mem_cons, ih]
      omega

theorem nodup_downward : (downward tail).Nodup := by
  induction tail with
  | zero => exact List.nodup_nil
  | succ tail ih =>
      rw [downward, List.nodup_cons, mem_downward]
      exact ⟨by omega, ih⟩

theorem isSkipped_eq_false :
    isSkipped head i = false ↔
      (head = 0 ∨ i ≠ 0) ∧ (head < 2 ∨ s_bins ≤ head ∨ 2 * head ≤ i + s_bins) := by
  simp only [isSkipped, Bool.or_eq_false_iff, Bool.and_eq_false_iff, decide_eq_false_iff_not]
  omega

/-- A target at a distance from 2 to 254. -/
theorem scanOrder_middle (hlow : 2 ≤ head) (hhigh : head < s_bins) :
    scanOrder head = spread (s_bins - head) (head - 1) := by
  have hbins : s_bins = 255 := rfl
  have htail : (head - 1) % s_bins = head - 1 := Nat.mod_eq_of_lt (by omega)
  have hlast : head - 1 ≠ lastBin := by
    rw [lastBin]
    omega
  rw [scanOrder, if_neg (show ¬head = 0 by omega), htail, if_pos]
  rw [Bool.and_eq_true]
  exact ⟨decide_eq_true (by omega), decide_eq_true hlast⟩

theorem scanOrder_low (hlow : head < 2) : scanOrder head = upward (s_bins - head) := by
  rw [scanOrder, if_neg, if_pos hlow]
  rw [Bool.and_eq_true, decide_eq_true_eq]
  omega

theorem scanOrder_top : scanOrder s_bins = downward lastBin := rfl

/-- The buckets that are looked into are all but those that are left out, each once. -/
theorem scanOrder_perm (hhead : head ≤ s_bins) :
    (scanOrder head).Perm ((List.range s_bins).filter fun i => !isSkipped head i) := by
  have hbins : s_bins = 255 := rfl
  have hcases : (scanOrder head).Nodup ∧
      ∀ i, i ∈ scanOrder head ↔ i < s_bins ∧ isSkipped head i = false := by
    simp only [isSkipped_eq_false]
    rcases Nat.lt_or_ge head 2 with hlow | hlow
    · rw [scanOrder_low hlow]
      refine ⟨nodup_upward (Nat.sub_le _ _), fun i => ?_⟩
      rw [mem_upward (Nat.sub_le _ _)]
      omega
    · rcases Nat.lt_or_ge head s_bins with hhigh | hhigh
      · rw [scanOrder_middle hlow hhigh]
        refine ⟨nodup_spread (Nat.sub_le _ _) (by omega), fun i => ?_⟩
        rw [mem_spread (Nat.sub_le _ _) (by omega)]
        omega
      · obtain rfl : head = s_bins := by omega
        rw [scanOrder_top]
        refine ⟨nodup_downward, fun i => ?_⟩
        rw [mem_downward, lastBin]
        omega
  rw [List.perm_ext_iff_of_nodup hcases.1 (List.nodup_range.filter _)]
  intro i
  rw [hcases.2, List.mem_filter, List.mem_range, Bool.not_eq_true']

/-! ## What is returned -/

variable {sha3 : NodeID → H256} {endpoint : NodeID → NodeIPEndpoint} {c : Center}
  {target : NodeID} {s : NodeTable} {dist : NodeID → ℕ} {order : List ℕ}

/-- The entries of some buckets that may be told to others. -/
def usable (endpoint : NodeID → NodeIPEndpoint) (s : NodeTable) (order : List ℕ) : List NodeID :=
  (order.flatMap s.locked).filter fun n => isUsable (endpoint n)

/-- The entries of all buckets. -/
def allUsable (endpoint : NodeID → NodeIPEndpoint) (s : NodeTable) : List NodeID :=
  s.usable endpoint (List.range s_bins)

theorem found_eq (dist : NodeID → ℕ) (s : NodeTable) (order : List ℕ) :
    s.found dist order =
      (order.flatMap s.locked).foldl (fun found p => pushAt found (dist p) p) ∅ := by
  rw [found, List.foldl_flatMap]

/-- The nodes that are found are those of the buckets that are looked into, in the order of
their distance. -/
theorem contents_found (dist : NodeID → ℕ) (s : NodeTable) (order : List ℕ) :
    ((contents (s.found dist order)).Pairwise fun x y => dist x ≤ dist y) ∧
      (contents (s.found dist order)).Perm (order.flatMap s.locked) := by
  obtain ⟨hplaced, hperm⟩ := foldl_pushAt (order.flatMap s.locked) (placed_empty (d := dist))
  have hempty : contents (∅ : ExtTreeMap ℕ (List NodeID)) = [] := rfl
  rw [hempty, List.append_nil] at hperm
  rw [found_eq]
  exact ⟨hplaced.pairwise, hperm⟩

theorem nearestNodeEntries_eq :
    s.nearestNodeEntries sha3 endpoint c target =
      ((contents (s.found (distance sha3 target) (scanOrder (distance sha3 c.address target)))).filter
        fun n => isUsable (endpoint n)).take s_bucketSize := by
  rw [nearestNodeEntries, foldl_take]
  rfl

theorem distance_le (a b : NodeID) : distance sha3 a b ≤ s_bins := by
  rw [distance]
  rcases Nat.eq_zero_or_pos (sha3 a ^^^ sha3 b).toNat with hzero | hpos
  · rw [hzero]
    decide
  · exact Nat.lt_succ_iff.mp ((Nat.log2_lt (Nat.ne_of_gt hpos)).mpr (sha3 a ^^^ sha3 b).isLt)

/-- **The nodes that are returned are the nearest ones** exactly if every node of the buckets
that are left out has `s_bucketSize` nodes of the other buckets before it. -/
theorem isNearest_nearestNodeEntries_iff (sha3 : NodeID → H256)
    (endpoint : NodeID → NodeIPEndpoint) (c : Center) (target : NodeID) (s : NodeTable) :
    IsNearest s_bucketSize (distance sha3 target) (s.allUsable endpoint)
        (s.nearestNodeEntries sha3 endpoint c target) ↔
      ∀ y ∈ s.usable endpoint
          ((List.range s_bins).filter (isSkipped (distance sha3 c.address target))),
        s_bucketSize ≤ (s.usable endpoint
          ((List.range s_bins).filter fun i => !isSkipped (distance sha3 c.address target) i)).countP
            fun x => distance sha3 target x ≤ distance sha3 target y := by
  generalize hhead : distance sha3 c.address target = head
  have hle : head ≤ s_bins := hhead ▸ distance_le _ _
  obtain ⟨hsorted, hperm⟩ := contents_found (distance sha3 target) s (scanOrder head)
  have hscanned : ((contents (s.found (distance sha3 target) (scanOrder head))).filter
      fun n => isUsable (endpoint n)).Perm
        (s.usable endpoint ((List.range s_bins).filter fun i => !isSkipped head i)) :=
    (hperm.trans ((scanOrder_perm hle).flatMap_right _)).filter _
  have hall : ((contents (s.found (distance sha3 target) (scanOrder head))).filter
      (fun n => isUsable (endpoint n)) ++
        s.usable endpoint ((List.range s_bins).filter (isSkipped head))).Perm
      (s.allUsable endpoint) := by
    refine (hscanned.append_right _).trans ?_
    rw [usable, usable, ← List.filter_append, ← List.flatMap_append, allUsable, usable]
    refine (List.Perm.flatMap_right _ ?_).filter _
    exact List.perm_append_comm.trans (List.filter_append_perm _ _)
  rw [nearestNodeEntries_eq, hhead, isNearest_take_iff (hsorted.filter _) hall]
  simp only [hscanned.countP_eq]

/-! ## A node that is left out -/

/-- A hash that evaluates. -/
def lowHash (id : NodeID) : H256 := id.setWidth 256

/-- A node of a table, with its bucket. -/
def lowCenter : Center where
  address := 1
  bucket id := ⟨(distance lowHash 1 id - 1) % s_bins, Nat.mod_lt _ (by decide)⟩

/-- A node at distance 253. -/
def farNode : NodeID := 2 ^ 253 + 1

/-- A table with this node alone. -/
def farTable : NodeTable where
  nodes := (∅ : ExtTreeMap NodeID NodeEntry).insert farNode { pending := false }
  state i := if i.val = 252 then [farNode] else []

/-- An endpoint that may be told to others. -/
def goodEndpoint : NodeIPEndpoint := ⟨0, true, true⟩

/-- For a target at distance 254 no node is returned, though the table has one, and it is in
its bucket. -/
theorem nearestNodeEntries_farTable :
    (lowCenter.bucket farNode).val = 252 ∧
      farTable.nearestNodeEntries lowHash (fun _ => goodEndpoint) lowCenter (2 ^ 254 + 1) = [] ∧
      ¬IsNearest s_bucketSize (distance lowHash (2 ^ 254 + 1))
        (farTable.allUsable fun _ => goodEndpoint)
        (farTable.nearestNodeEntries lowHash (fun _ => goodEndpoint) lowCenter (2 ^ 254 + 1)) := by
  have hnone : farTable.nearestNodeEntries lowHash (fun _ => goodEndpoint) lowCenter
      (2 ^ 254 + 1) = [] := by
    decide +kernel
  have hall : farTable.allUsable (fun _ => goodEndpoint) = [farNode] := by decide +kernel
  refine ⟨by decide +kernel, hnone, fun h => ?_⟩
  have hlength := h.length
  rw [hnone, hall] at hlength
  cases hlength

end NodeTable

end CppSwc
