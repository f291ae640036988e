import CppSwc.Client.Logs
import Mathlib.Order.WellFounded

/-!
# Reads of `LogFilter::matches`

`matches` of a receipt with the reads of topics.  A log entry is turned away at position `i` if
it has fewer than `i` topics, so one with exactly `i` topics is not, and the topic behind its
last one is read.  A read past the end has no result (`none`).

Where no topic is read past the end, the log entries that match are the wanted ones.
-/

namespace CppSwc.LogFilter

variable {f : LogFilter} {e : LogEntry}

/-- The loop over the topic positions of an entry, and whether it gets to the end. -/
def matchTopics (f : LogFilter) (e : LogEntry) : List (Fin 4) → Option Bool
  | [] => some true
  | i :: is =>
      if f.topics i = [] then f.matchTopics e is
      else if e.topics.length < i then some false
      else
        match e.topics[(i : ℕ)]? with
        | none => none
        | some t => if (f.topics i).contains t then f.matchTopics e is else some false

/-- The test of an entry. -/
def matchEntry (f : LogFilter) (e : LogEntry) : Option Bool :=
  if f.addresses ≠ [] ∧ e.address ∉ f.addresses then some false
  else f.matchTopics e (List.finRange 4)

/-- The loop over the entries. -/
def matchEntries (f : LogFilter) : LogEntries → Option LogEntries
  | [] => some []
  | e :: es => do
      let b ← f.matchEntry e
      let ret ← f.matchEntries es
      some (if b then e :: ret else ret)

/-- `matches`, of a receipt. -/
def matchReceipt (sha3 : LogHashes) (f : LogFilter) (r : LogEntries) : Option LogEntries :=
  if f.isRangeFilter then some r
  else if f.matchesBloom sha3 (r.bloom sha3) then f.matchEntries r
  else some []

/-! ## One entry -/

/-- An entry has a topic of a position, or the position is open. -/
def Passes (f : LogFilter) (e : LogEntry) (i : Fin 4) : Prop :=
  f.topics i = [] ∨ ∃ t, e.topics[(i : ℕ)]? = some t ∧ t ∈ f.topics i

/-- An entry gets to the position behind its last topic, and there are topics for it. -/
def Overreads (f : LogFilter) (e : LogEntry) : Prop :=
  (f.addresses = [] ∨ e.address ∈ f.addresses) ∧
    ∃ i : Fin 4, f.topics i ≠ [] ∧ e.topics.length = i ∧ ∀ j < i, f.Passes e j

theorem wants_iff_passes : f.wants e = true ↔
    (f.addresses = [] ∨ e.address ∈ f.addresses) ∧ ∀ i, f.Passes e i := wants_iff

/-- Where an entry passes, the loop goes on. -/
theorem matchTopics_of_passes {i : Fin 4} (h : f.Passes e i) (is : List (Fin 4)) :
    f.matchTopics e (i :: is) = f.matchTopics e is := by
  rw [matchTopics]
  by_cases hempty : f.topics i = []
  · rw [if_pos hempty]
  · obtain ⟨t, ht, hmem⟩ := h.resolve_left hempty
    have hlt := (List.getElem?_eq_some_iff.mp ht).1
    rw [if_neg hempty, if_neg (by omega)]
    simp only [ht, List.contains_iff_mem, hmem, if_true]

/-- Where an entry does not pass, the loop ends, or reads past the end. -/
theorem matchTopics_of_not_passes {i : Fin 4} (h : ¬f.Passes e i) (is : List (Fin 4)) :
    f.matchTopics e (i :: is) = if e.topics.length = i then none else some false := by
  have hne : f.topics i ≠ [] := fun hempty => h (.inl hempty)
  rw [matchTopics, if_neg hne]
  rcases Nat.lt_trichotomy e.topics.length i with hlt | heq | hgt
  · rw [if_pos hlt, if_neg hlt.ne]
  · rw [if_neg (by omega), if_pos heq, List.getElem?_eq_none heq.le]
  · rw [if_neg (by omega), if_neg hgt.ne', List.getElem?_eq_getElem hgt]
    have hmem : e.topics[(i : ℕ)] ∉ f.topics i := fun hmem =>
      h (.inr ⟨_, List.getElem?_eq_getElem hgt, hmem⟩)
    simp only [List.contains_iff_mem, hmem, if_false]

theorem matchTopics_append {is js : List (Fin 4)} (h : ∀ i ∈ is, f.Passes e i) :
    f.matchTopics e (is ++ js) = f.matchTopics e js := by
  induction is with
  | nil => rfl
  | cons i is ih =>
      rw [List.cons_append, matchTopics_of_passes (h i (.head _)), ih fun j hj => h j (.tail _ hj)]

/-- The positions before a position, and those behind it. -/
theorem exists_finRange_split (i : Fin 4) :
    ∃ before behind, List.finRange 4 = before ++ i :: behind ∧ ∀ j ∈ before, j < i := by
  obtain ⟨before, behind, hsplit⟩ := List.append_of_mem (List.mem_finRange i)
  refine ⟨before, behind, hsplit, fun j hj => ?_⟩
  have hpair := List.pairwise_lt_finRange 4
  rw [hsplit, List.pairwise_append] at hpair
  exact hpair.2.2 j hj i (.head _)

/-- The loop over the positions ends at the first one that is not passed. -/
theorem matchTopics_of_first {i : Fin 4} (hi : ¬f.Passes e i) (hfirst : ∀ j < i, f.Passes e j) :
    f.matchTopics e (List.finRange 4) = if e.topics.length = i then none else some false := by
  obtain ⟨before, behind, hsplit, hbefore⟩ := exists_finRange_split i
  rw [hsplit, matchTopics_append fun j hj => hfirst j (hbefore j hj), matchTopics_of_not_passes hi]

theorem matchTopics_of_forall (h : ∀ i, f.Passes e i) :
    f.matchTopics e (List.finRange 4) = some true := by
  rw [← List.append_nil (List.finRange 4), matchTopics_append fun i _ => h i]
  rfl

/-- The first position that is not passed. -/
theorem exists_first (h : ¬∀ i, f.Passes e i) :
    ∃ i, ¬f.Passes e i ∧ ∀ j < i, f.Passes e j := by
  obtain ⟨i, hi, hmin⟩ := wellFounded_lt.has_min {i | ¬f.Passes e i} (not_forall.mp h)
  exact ⟨i, hi, fun j hj => not_not.mp fun hno => hmin j hno hj⟩

/-- A position that is passed is before the end of the topics. -/
theorem lt_length_of_passes {i : Fin 4} (h : f.Passes e i) (hne : f.topics i ≠ []) :
    (i : ℕ) < e.topics.length := by
  obtain ⟨t, ht, -⟩ := h.resolve_left hne
  exact (List.getElem?_eq_some_iff.mp ht).1

/-- The test of an entry reads past the end, or says whether the entry is wanted. -/
theorem matchEntry_eq (f : LogFilter) (e : LogEntry) :
    (f.Overreads e → f.matchEntry e = none) ∧
      (¬f.Overreads e → f.matchEntry e = some (f.wants e)) := by
  rw [matchEntry]
  by_cases haddress : f.addresses = [] ∨ e.address ∈ f.addresses
  · rw [if_neg (by tauto)]
    by_cases hall : ∀ i, f.Passes e i
    · rw [matchTopics_of_forall hall, wants_iff_passes.mpr ⟨haddress, hall⟩]
      refine ⟨?_, fun _ => rfl⟩
      rintro ⟨-, i, hne, hlength, -⟩
      exact absurd hlength (lt_length_of_passes (hall i) hne).ne'
    · obtain ⟨i, hi, hfirst⟩ := exists_first hall
      have hne : f.topics i ≠ [] := fun hempty => hi (.inl hempty)
      have hwants : f.wants e = false := by
        rw [Bool.eq_false_iff]
        exact fun hwants => hall (wants_iff_passes.mp hwants).2
      rw [matchTopics_of_first hi hfirst, hwants]
      constructor
      · -- a position that the entry has the length of is the first one that is not passed
        rintro ⟨-, j, hne', hlength, hfirst'⟩
        rcases lt_trichotomy i j with hlt | rfl | hlt
        · exact absurd (hfirst' i hlt) hi
        · rw [if_pos hlength]
        · exact absurd hlength (lt_length_of_passes (hfirst j hlt) hne').ne'
      · intro hno
        rw [if_neg fun hlength => hno ⟨haddress, i, hne, hlength, hfirst⟩]
  · rw [if_pos (by tauto)]
    have hwants : f.wants e = false := by
      rw [Bool.eq_false_iff]
      exact fun hwants => haddress (wants_iff_passes.mp hwants).1
    rw [hwants]
    exact ⟨fun h => absurd h.1 haddress, fun _ => rfl⟩

/-! ## A receipt -/

theorem matchEntries_eq_none {r : LogEntries} {e : LogEntry} (he : e ∈ r) (h : f.Overreads e) :
    f.matchEntries r = none := by
  induction r with
  | nil => cases he
  | cons e' r ih =>
      rw [matchEntries]
      rcases List.mem_cons.mp he with rfl | he
      · rw [(matchEntry_eq f e).1 h]
        rfl
      · rw [ih he]
        cases f.matchEntry e' <;> rfl

theorem matchEntries_eq_some {r : LogEntries} (h : ∀ e ∈ r, ¬f.Overreads e) :
    f.matchEntries r = some (r.filter f.wants) := by
  induction r with
  | nil => rfl
  | cons e r ih =>
      rw [matchEntries, (matchEntry_eq f e).2 (h e (.head _)), ih fun e' he' => h e' (.tail _ he'),
        List.filter_cons]
      rfl

/-- `matches` stays in bounds and gives exactly the wanted entries, in order, exactly if its
blooms do not match or no entry gets to the position behind its last topic. -/
theorem matchReceipt_iff (sha3 : LogHashes) (f : LogFilter) (r : LogEntries) :
    f.matchReceipt sha3 r = some (r.filter f.wants) ↔
      (f.matchesBloom sha3 (r.bloom sha3) = true → ∀ e ∈ r, ¬f.Overreads e) := by
  rw [matchReceipt]
  by_cases hrange : f.isRangeFilter = true
  · obtain ⟨haddresses, hopen⟩ := isRangeFilter_iff.mp hrange
    have htopics : ∀ i, f.topics i = [] := fun i =>
      not_not.mp fun hne => List.not_mem_nil (hopen ▸ mem_constrained.mpr hne)
    have hwants : ∀ e ∈ r, f.wants e = true := fun e _ =>
      wants_iff_passes.mpr ⟨.inl haddresses, fun i => .inl (htopics i)⟩
    rw [if_pos hrange, List.filter_eq_self.mpr hwants]
    refine iff_of_true rfl ?_
    rintro - e - ⟨-, i, hne, -⟩
    exact hne (htopics i)
  rw [if_neg hrange]
  by_cases hbloom : f.matchesBloom sha3 (r.bloom sha3) = true
  · rw [if_pos hbloom]
    constructor
    · intro heq _ e he hover
      rw [matchEntries_eq_none he hover] at heq
      cases heq
    · exact fun h => matchEntries_eq_some (h hbloom)
  · rw [if_neg hbloom]
    -- a receipt with a wanted entry has the bits of one
    have hnone : r.filter f.wants = [] := by
      refine List.filter_eq_nil_iff.mpr fun e he hwants => hbloom ?_
      obtain ⟨haddress, htopics⟩ := LogEntries.contains_bloom sha3 he
      exact matchesBloom_of_wants hwants haddress htopics
    rw [hnone]
    exact iff_of_true rfl fun h => absurd h hbloom

/-- A filter for a second topic. -/
def secondTopic : LogFilter where
  topics := fun i => if (i : ℕ) = 1 then [7] else []

/-- A log entry with one topic, which has the bits that are looked for. -/
def oneTopic : LogEntry := ⟨0, [7], []⟩

/-- The topic behind the only one is read. -/
theorem matchReceipt_past_end :
    secondTopic.matchReceipt ⟨fun a => a.setWidth 256, id⟩ [oneTopic] = none ∧
      [oneTopic].filter secondTopic.wants = [] := by
  decide +kernel

end CppSwc.LogFilter
