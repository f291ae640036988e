import CppSwc.Mempool.Queue

/-!
# The indices of the transaction queue

Four containers and a counter describe one set of transactions: the multiset of
pending transactions, its indices by hash and by sender and nonce, and the future
transactions by sender and nonce.  `Pending` is what the first three owe each other,
and `Sound` adds the future.

The comparison of the multiset calls `sender()`, which throws for a transaction whose
sender cannot be recovered, after the index by sender and nonce has got its entry.
`manageImport` catches the exception and the entry stays, with an iterator to nowhere.
Everything here is about runs in which all senders can be recovered.
-/

namespace CppSwc

open Lib Std

namespace TransactionQueue

variable {q q' : TransactionQueue} {t x : Transaction} {env : Env} {b : Balance Transaction}

/-! ## Pending transactions -/

/-- The indices lead to the pending transactions and nowhere else. -/
structure Indexed (q : TransactionQueue) : Prop where
  nodup : q.pending.Nodup
  byHash : ∀ h t, q.currentByHash[h]? = some t ↔ t ∈ q.pending ∧ t.sha3 = h
  byNonce : ∀ a n entry, lookup q.currentByAddressAndNonce a n = some entry ↔
    ∃ t ∈ q.pending, entry = some t ∧ t.safeSender = a ∧ t.nonce = n
  occupied : Occupied q.currentByAddressAndNonce

/-- No pending transaction has the hash of another one, or its sender and nonce. -/
def Fresh (q : TransactionQueue) (x : Transaction) : Prop :=
  ∀ t ∈ q.pending, t.sha3 ≠ x.sha3 ∧ (t.safeSender = x.safeSender → t.nonce ≠ x.nonce)

theorem Indexed.lookup_of_mem (h : q.Indexed) (ht : t ∈ q.pending) :
    lookup q.currentByAddressAndNonce t.safeSender t.nonce = some (some t) :=
  (h.byNonce _ _ _).mpr ⟨t, ht, rfl, rfl, rfl⟩

theorem Indexed.eq_of_nonce (h : q.Indexed) (ht : t ∈ q.pending) (hx : x ∈ q.pending)
    (hsender : t.safeSender = x.safeSender) (hnonce : t.nonce = x.nonce) : t = x := by
  have hlookup := h.lookup_of_mem ht
  rw [hsender, hnonce, h.lookup_of_mem hx] at hlookup
  cases hlookup
  rfl

theorem Indexed.eq_of_hash (h : q.Indexed) (ht : t ∈ q.pending) (hx : x ∈ q.pending)
    (hhash : t.sha3 = x.sha3) : t = x := by
  have hlookup := (h.byHash t.sha3 t).mpr ⟨ht, rfl⟩
  rw [hhash, (h.byHash x.sha3 x).mpr ⟨hx, rfl⟩] at hlookup
  cases hlookup
  rfl

theorem Indexed.lookup_eq_none (h : q.Indexed) (hx : q.Fresh x) :
    lookup q.currentByAddressAndNonce x.safeSender x.nonce = none := by
  cases hlookup : lookup q.currentByAddressAndNonce x.safeSender x.nonce with
  | none => rfl
  | some entry =>
      obtain ⟨t, ht, -, hsender, hnonce⟩ := (h.byNonce _ _ _).mp hlookup
      exact absurd hnonce ((hx t ht).2 hsender)

/-- A transaction with an entry in the index has a height above the lowest nonce. -/
theorem height_of_lookup {a : Address} {n : U256} {entry : Option Transaction}
    (hsender : t.sender = some a) (h : lookup q.currentByAddressAndNonce a n = some entry) :
    ∃ lowest, firstKey? (group q.currentByAddressAndNonce a) = some lowest ∧ lowest ≤ n ∧
      q.height t = .ok (t.nonce - lowest) := by
  have hmem : n ∈ group q.currentByAddressAndNonce a := by
    rw [ExtTreeMap.mem_iff_isSome_getElem?, group_getElem?, h]
    rfl
  obtain ⟨lowest, hfirst, hle⟩ := firstKey?_of_mem hmem
  refine ⟨lowest, hfirst, ?_, ?_⟩
  · rcases hle with rfl | hlt
    · exact BitVec.le_refl _
    · exact BitVec.le_of_lt (compareOfLessAndEq_eq_lt.mp hlt)
  · simp only [height, hsender, hfirst]

/-- `register` adds an entry without a node. -/
theorem register_eq (h : lookup q.currentByAddressAndNonce x.safeSender x.nonce = none) :
    q.register x.safeSender x = { q with
      currentByAddressAndNonce := insertAt q.currentByAddressAndNonce x.safeSender x.nonce none } := by
  rw [register, h]
  rfl

/-- The queue with a transaction in the multiset and in both indices. -/
def entered (x : Transaction) (current : SearchTree Transaction) (q : TransactionQueue) :
    TransactionQueue :=
  { q with
    current := current
    currentByAddressAndNonce :=
      insertAt q.currentByAddressAndNonce x.safeSender x.nonce (some x)
    currentByHash := q.currentByHash.insert x.sha3 x }

/-- Where the multiset puts a transaction: between one it does not go before and one
it goes before. -/
structure Cut (q : TransactionQueue) (x : Transaction) (xs ys : List Transaction) : Prop where
  split : q.pending = xs ++ ys
  left : ∀ t ∈ xs.getLast?, (q.register x.safeSender x).priorityCompare x t = .ok false
  right : ∀ t ∈ ys.head?, (q.register x.safeSender x).priorityCompare x t = .ok true

/-- An entered transaction stands at a cut. -/
theorem enter_cut (h : q.enter b x.safeSender x = .ok q') :
    ∃ xs ys, q.Cut x xs ys ∧ q'.pending = xs ++ x :: ys := by
  simp only [enter] at h
  split at h
  · cases h
  · rename_i current hemplace
    cases h
    obtain ⟨xs, ys, hold, hnew, hleft, hright⟩ := SearchTree.emplace_cut hemplace
    refine ⟨xs, ys, ⟨?_, hleft, hright⟩, (b.toList_rebalance _).trans hnew⟩
    rw [← hold, register]
    split <;> rfl

/-- What the pending transactions and their indices owe each other. -/
structure Pending (q : TransactionQueue) : Prop extends Indexed q where
  recoverable : ∀ t ∈ q.pending, t.sender.isSome = true

/-- Every comparison of a new transaction with a pending one gives an answer. -/
theorem Pending.exists_compare (h : q.Pending) (hfresh : q.Fresh x)
    (hx : x.sender.isSome = true) (ht : t ∈ q.pending) :
    ∃ answer, (q.register x.safeSender x).priorityCompare x t = .ok answer := by
  obtain ⟨a, ha⟩ := Option.isSome_iff_exists.mp hx
  obtain ⟨c, hc⟩ := Option.isSome_iff_exists.mp (h.recoverable t ht)
  have hxa : x.safeSender = a := by rw [Transaction.safeSender, ha]; rfl
  have htc : t.safeSender = c := by rw [Transaction.safeSender, hc]; rfl
  rw [register_eq (h.lookup_eq_none hfresh), hxa]
  have hnew : lookup (insertAt q.currentByAddressAndNonce a x.nonce none) a x.nonce =
      some none := lookup_insertAt.trans (if_pos ⟨rfl, rfl⟩)
  have hold : ∃ entry,
      lookup (insertAt q.currentByAddressAndNonce a x.nonce none) c t.nonce = some entry := by
    rw [lookup_insertAt]
    split
    · exact ⟨_, rfl⟩
    · exact ⟨some t, htc ▸ h.lookup_of_mem ht⟩
  obtain ⟨entry, hold⟩ := hold
  obtain ⟨low₁, -, -, h₁⟩ := height_of_lookup (q := { q with
    currentByAddressAndNonce := insertAt q.currentByAddressAndNonce a x.nonce none }) ha hnew
  obtain ⟨low₂, -, -, h₂⟩ := height_of_lookup (q := { q with
    currentByAddressAndNonce := insertAt q.currentByAddressAndNonce a x.nonce none }) hc hold
  rw [priorityCompare, h₁, h₂]
  exact ⟨_, rfl⟩

/-- A new transaction can be entered. -/
theorem Pending.exists_enter (h : q.Pending) (hfresh : q.Fresh x) (hx : x.sender.isSome = true)
    (b : Balance Transaction) :
    ∃ current, q.enter b x.safeSender x = .ok (q.entered x current) := by
  have hregister := register_eq (h.lookup_eq_none hfresh)
  have hcompare : ∀ t ∈ (q.register x.safeSender x).current.toList,
      ∃ answer, (q.register x.safeSender x).priorityCompare x t = .ok answer := by
    intro t ht
    rw [hregister] at ht
    exact h.exists_compare hfresh hx ht
  obtain ⟨current, hcurrent⟩ := SearchTree.exists_emplace (x := x) hcompare
  refine ⟨b.rebalance current, ?_⟩
  simp only [enter, hcurrent]
  rw [hregister]
  simp only [entered, insertAt_insertAt]

theorem Pending.entered {current : SearchTree Transaction} {xs ys : List Transaction}
    (h : q.Pending) (hfresh : q.Fresh x) (hx : x.sender.isSome = true)
    (hold : q.pending = xs ++ ys) (hnew : current.toList = xs ++ x :: ys) :
    (q.entered x current).Pending := by
  have hmem : ∀ t, t ∈ (q.entered x current).pending ↔ t = x ∨ t ∈ q.pending := by
    intro t
    rw [hold, pending, TransactionQueue.entered, hnew]
    simp only [List.mem_append, List.mem_cons]
    tauto
  constructor
  · constructor
    · have hperm : (q.entered x current).pending.Perm (x :: q.pending) := by
        rw [hold, pending, TransactionQueue.entered, hnew]
        exact List.perm_middle
      refine hperm.nodup_iff.mpr (List.nodup_cons.mpr ⟨?_, h.nodup⟩)
      intro hx
      exact (hfresh x hx).1 rfl
    · intro hash t
      rw [hmem, TransactionQueue.entered, getElem?_insert_eq]
      split
      · rename_i heq
        constructor
        · rintro ⟨⟩
          exact ⟨.inl rfl, heq⟩
        · rintro ⟨rfl | ht, hhash⟩
          · rfl
          · exact absurd (hhash.trans heq.symm) (hfresh t ht).1
      · rename_i hne
        rw [h.byHash]
        constructor
        · rintro ⟨ht, hhash⟩
          exact ⟨.inr ht, hhash⟩
        · rintro ⟨rfl | ht, hhash⟩
          · exact absurd hhash hne
          · exact ⟨ht, hhash⟩
    · intro a n entry
      rw [TransactionQueue.entered, lookup_insertAt]
      split
      · rename_i heq
        constructor
        · rintro ⟨⟩
          exact ⟨x, (hmem x).mpr (.inl rfl), rfl, heq⟩
        · rintro ⟨t, ht, rfl, hsender, hnonce⟩
          rcases (hmem t).mp ht with rfl | ht
          · rfl
          · exact absurd (hnonce.trans heq.2.symm) ((hfresh t ht).2 (hsender.trans heq.1.symm))
      · rename_i hne
        rw [h.byNonce]
        constructor
        · rintro ⟨t, ht, rest⟩
          exact ⟨t, (hmem t).mpr (.inr ht), rest⟩
        · rintro ⟨t, ht, rfl, hpair⟩
          rcases (hmem t).mp ht with rfl | ht
          · exact absurd hpair hne
          · exact ⟨t, ht, rfl, hpair⟩
    · exact h.occupied.insertAt _ _ _
  · intro t ht
    rcases (hmem t).mp ht with rfl | ht
    · exact hx
    · exact h.recoverable t ht

/-- The queue without a pending transaction. -/
def removed (b : Balance Transaction) (t : Transaction) (q : TransactionQueue) :
    TransactionQueue :=
  { q with
    currentByAddressAndNonce := eraseAt q.currentByAddressAndNonce t.safeSender [t.nonce]
    current := b.rebalance (q.current.erase t)
    currentByHash := q.currentByHash.erase t.sha3
    known := q.known.erase t.sha3 }

@[simp] theorem removed_pending (b : Balance Transaction) (t : Transaction)
    (q : TransactionQueue) : (q.removed b t).pending = q.pending.erase t := by
  rw [pending, removed, b.toList_rebalance, SearchTree.toList_erase, pending]

/-- A pending transaction can be removed. -/
theorem Pending.remove (h : q.Pending) (ht : t ∈ q.pending) (b : Balance Transaction) :
    q.remove b t.sha3 = .ok (q.removed b t, true) := by
  have hsender : q.currentByAddressAndNonce.contains t.safeSender = true := by
    have hlookup := h.lookup_of_mem ht
    rw [lookup] at hlookup
    rw [ExtTreeMap.contains_iff_mem, ExtTreeMap.mem_iff_isSome_getElem?]
    cases hgroup : q.currentByAddressAndNonce[t.safeSender]? with
    | none =>
        rw [hgroup] at hlookup
        cases hlookup
    | some g => rfl
  simp only [TransactionQueue.remove, (h.byHash t.sha3 t).mpr ⟨ht, rfl⟩, hsender, if_true]
  rfl

theorem Pending.removed (h : q.Pending) (ht : t ∈ q.pending) (b : Balance Transaction) :
    (q.removed b t).Pending := by
  have hmem : ∀ t', t' ∈ (q.removed b t).pending ↔ t' ≠ t ∧ t' ∈ q.pending := by
    intro t'
    rw [removed_pending, h.nodup.mem_erase_iff]
  constructor
  · constructor
    · rw [removed_pending]
      exact h.nodup.erase t
    · intro hash t'
      rw [hmem, TransactionQueue.removed, getElem?_erase_eq]
      split
      · rename_i heq
        constructor
        · intro hnone
          cases hnone
        · rintro ⟨⟨hne, ht'⟩, hhash⟩
          exact absurd (h.eq_of_hash ht' ht (hhash.trans heq.symm)) hne
      · rename_i hne
        rw [h.byHash]
        constructor
        · rintro ⟨ht', hhash⟩
          refine ⟨⟨?_, ht'⟩, hhash⟩
          rintro rfl
          exact hne hhash
        · rintro ⟨⟨-, ht'⟩, hhash⟩
          exact ⟨ht', hhash⟩
    · intro a n entry
      rw [TransactionQueue.removed, lookup_eraseAt]
      split
      · rename_i heq
        constructor
        · intro hnone
          cases hnone
        · rintro ⟨t', ht', rfl, hsender, hnonce⟩
          obtain ⟨hne, ht'⟩ := (hmem t').mp ht'
          refine absurd (h.eq_of_nonce ht' ht (hsender.trans heq.1.symm) ?_) hne
          rw [hnonce, List.mem_singleton.mp heq.2]
      · rename_i hne
        rw [h.byNonce]
        constructor
        · rintro ⟨t', ht', rfl, hsender, hnonce⟩
          refine ⟨t', (hmem t').mpr ⟨?_, ht'⟩, rfl, hsender, hnonce⟩
          rintro rfl
          exact hne ⟨hsender, List.mem_singleton.mpr hnonce.symm⟩
        · rintro ⟨t', ht', rest⟩
          exact ⟨t', ((hmem t').mp ht').2, rest⟩
    · exact h.occupied.eraseAt _ _
  · intro t' ht'
    exact h.recoverable t' ((hmem t').mp ht').2

/-! ## Taking over future transactions -/

/-- What the loop of `makeCurrent` does: some transactions become pending. -/
structure Promoted (q : TransactionQueue) (es : List (U256 × Transaction)) (q' : TransactionQueue) :
    Prop where
  pending : q'.pending.Perm (es.map Prod.snd ++ q.pending)
  future : q'.future = q.future
  futureSize : q'.futureSize = q.futureSize - es.length
  known : q'.known = q.known
  limit : q'.limit = q.limit
  futureLimit : q'.futureLimit = q.futureLimit

/-- Transactions of one sender that are new and differ from each other. -/
structure Takes (q : TransactionQueue) (a : Address) (es : List (U256 × Transaction)) : Prop where
  each : ∀ e ∈ es, e.2.safeSender = a ∧ e.2.sender.isSome = true ∧ q.Fresh e.2
  distinct : es.Pairwise fun e e' => e.2.sha3 ≠ e'.2.sha3 ∧ e.2.nonce ≠ e'.2.nonce

/-- The rest is still new beside the transaction that has just been entered. -/
theorem Takes.tail {a : Address} {e : U256 × Transaction} {es : List (U256 × Transaction)}
    (h : q.Takes a (e :: es)) (hpending : q'.pending.Perm (e.2 :: q.pending)) : q'.Takes a es := by
  obtain ⟨hfirst, hdistinct⟩ := List.pairwise_cons.mp h.distinct
  refine ⟨?_, hdistinct⟩
  intro e' he'
  obtain ⟨hsender, hrecover, hfresh⟩ := h.each e' (.tail _ he')
  refine ⟨hsender, hrecover, ?_⟩
  intro t ht
  rcases List.mem_cons.mp (hpending.mem_iff.mp ht) with rfl | ht
  · exact ⟨(hfirst e' he').1, fun _ => (hfirst e' he').2⟩
  · exact hfresh t ht

/-- The first of them can be entered. -/
theorem Takes.enter {a : Address} {e : U256 × Transaction} {es : List (U256 × Transaction)}
    (h : q.Takes a (e :: es)) (hq : q.Pending) (b : Balance Transaction) :
    ∃ current, q.enter b a e.2 = .ok (q.entered e.2 current) ∧
      ∃ xs ys, q.Cut e.2 xs ys ∧ (q.entered e.2 current).pending = xs ++ e.2 :: ys ∧
        ∀ size, Pending { q.entered e.2 current with futureSize := size } ∧
          Takes { q.entered e.2 current with futureSize := size } a es := by
  obtain ⟨rfl, hrecover, hfresh⟩ := h.each e (.head _)
  obtain ⟨current, henter⟩ := hq.exists_enter hfresh hrecover b
  obtain ⟨xs, ys, hcut, hpending⟩ := enter_cut henter
  have hentered := hq.entered hfresh hrecover hcut.split hpending
  refine ⟨current, henter, xs, ys, hcut, hpending, ?_⟩
  intro size
  refine ⟨⟨⟨hentered.nodup, hentered.byHash, hentered.byNonce, hentered.occupied⟩,
    hentered.recoverable⟩, h.tail ?_⟩
  show (q.entered e.2 current).pending.Perm (e.2 :: q.pending)
  rw [hpending, hcut.split]
  exact List.perm_middle

/-- Such transactions can be taken over. -/
theorem Pending.promote {a : Address} {es : List (U256 × Transaction)} (h : q.Pending)
    (hes : q.Takes a es) (b : Balance Transaction) :
    ∃ q', q.promote b a es = .ok q' ∧ q'.Pending ∧ Promoted q es q' := by
  induction es generalizing q with
  | nil => exact ⟨q, rfl, h, ⟨.refl _, rfl, rfl, rfl, rfl, rfl⟩⟩
  | cons e es ih =>
      obtain ⟨current, henter, xs, ys, hcut, hpending, hrest⟩ := hes.enter h b
      obtain ⟨hentered, htakes⟩ := hrest (q.futureSize - 1)
      obtain ⟨q', hpromote, hsound, hrun⟩ := ih hentered htakes
      refine ⟨q', ?_, hsound, ⟨?_, hrun.future, ?_, hrun.known, hrun.limit, hrun.futureLimit⟩⟩
      · simp only [TransactionQueue.promote, henter]
        exact hpromote
      · have hperm : (q.entered e.2 current).pending.Perm (e.2 :: q.pending) := by
          rw [hpending, hcut.split]
          exact List.perm_middle
        refine hrun.pending.trans ?_
        refine (List.Perm.append_left _ hperm).trans ?_
        exact List.perm_middle
      · rw [hrun.futureSize, List.length_cons]
        dsimp only
        omega

/-- A transaction is pending or waits in the future. -/
def Held (q : TransactionQueue) (t : Transaction) : Prop :=
  t ∈ q.pending ∨ ∃ a n, lookup q.future a n = some t

/-- The pending and the future transactions, with their indices, are one set. -/
structure Sound (q : TransactionQueue) : Prop extends Pending q where
  keyed : ∀ a n t, lookup q.future a n = some t →
    t.safeSender = a ∧ t.nonce = n ∧ t.sender.isSome = true
  apart : ∀ t ∈ q.pending, lookup q.future t.safeSender t.nonce = none
  occupiedFuture : Occupied q.future
  distinct : ∀ t t', q.Held t → q.Held t' → t.sha3 = t'.sha3 → t = t'
  counted : q.futureSize = total q.future

/-- Future transactions may be forgotten. -/
theorem Sound.eraseFuture {a : Address} {keys : List U256} (h : q.Sound) (hnodup : keys.Nodup)
    (hmem : ∀ n ∈ keys, lookup q.future a n ≠ none) :
    Sound { q with
      future := eraseAt q.future a keys
      futureSize := q.futureSize - keys.length } := by
  have hsub : ∀ a' n t, lookup (eraseAt q.future a keys) a' n = some t →
      lookup q.future a' n = some t := by
    intro a' n t ht
    rw [lookup_eraseAt] at ht
    split at ht
    · cases ht
    · exact ht
  have hheld : ∀ t, Held { q with
      future := eraseAt q.future a keys
      futureSize := q.futureSize - keys.length } t → q.Held t := by
    rintro t (ht | ⟨a', n, ht⟩)
    · exact .inl ht
    · exact .inr ⟨a', n, hsub a' n t ht⟩
  refine ⟨⟨⟨h.nodup, h.byHash, h.byNonce, h.occupied⟩, h.recoverable⟩, ?_, ?_, ?_, ?_, ?_⟩
  · intro a' n t ht
    exact h.keyed a' n t (hsub a' n t ht)
  · intro t ht
    dsimp only
    rw [lookup_eraseAt, h.apart t ht]
    split <;> rfl
  · exact h.occupiedFuture.eraseAt _ _
  · intro t t' ht ht'
    exact h.distinct t t' (hheld t ht) (hheld t' ht')
  · have htotal := total_eraseAt hnodup hmem
    have hcount := h.counted
    dsimp only
    omega

theorem consecutive_sublist (l : List (U256 × Transaction)) (nonce : U256) :
    (consecutive nonce l).Sublist l := by
  induction l generalizing nonce with
  | nil => exact .slnil
  | cons e l ih =>
      simp only [consecutive]
      split
      · exact (ih _).cons_cons e
      · exact List.nil_sublist _

/-- What `makeCurrent` takes over are entries of the sender. -/
theorem promoted_sublist {fs : ExtTreeMap U256 Transaction}
    (h : q.future[t.safeSender]? = some fs) : (q.promoted t).Sublist fs.toList := by
  simp only [promoted, h, following]
  split
  · exact (consecutive_sublist _ _).trans (List.dropWhile_sublist _)
  · exact List.nil_sublist _

theorem lookup_of_mem_promoted {e : U256 × Transaction} (he : e ∈ q.promoted t) :
    lookup q.future t.safeSender e.1 = some e.2 := by
  cases hfs : q.future[t.safeSender]? with
  | none =>
      simp only [promoted, hfs] at he
      cases he
  | some fs =>
      rw [lookup, hfs]
      exact getElem?_of_mem_toList ((promoted_sublist hfs).subset he)

theorem nodup_promoted (q : TransactionQueue) (t : Transaction) :
    ((q.promoted t).map Prod.fst).Nodup := by
  cases hfs : q.future[t.safeSender]? with
  | none =>
      simp only [promoted, hfs]
      exact List.nodup_nil
  | some fs => exact ((promoted_sublist hfs).map Prod.fst).nodup (nodup_map_fst_toList fs)

/-- The loop that keeps the future within its limit forgets future transactions, and
none if the limit is kept. -/
theorem Sound.evictFuture {n : Nat} (h : q.Sound) (hn : q.futureSize ≤ n)
    (begins : Nat → Address) :
    ∃ future futureSize,
      q.evictFuture begins n = .ok { q with future := future, futureSize := futureSize } ∧
      Sound { q with future := future, futureSize := futureSize } ∧
      (∀ a n t, lookup future a n = some t → lookup q.future a n = some t) ∧
      futureSize ≤ q.futureLimit ∧
      (q.futureSize ≤ q.futureLimit → future = q.future ∧ futureSize = q.futureSize) := by
  induction n generalizing q with
  | zero => exact ⟨q.future, q.futureSize, rfl, h, fun _ _ _ ht => ht, by omega, fun _ => ⟨rfl, rfl⟩⟩
  | succ n ih =>
      simp only [TransactionQueue.evictFuture]
      split
      · rename_i hle
        exact ⟨q.future, q.futureSize, rfl, h, fun _ _ _ ht => ht, hle, fun _ => ⟨rfl, rfl⟩⟩
      · rename_i hgt
        -- The counter is positive, so there is a group, and groups are not empty.
        have hbegin : ∃ a fs, q.beginFuture (begins n) = some (a, fs) ∧ q.future[a]? = some fs := by
          rw [beginFuture]
          cases hfs : q.future[begins n]? with
          | some fs => exact ⟨_, fs, rfl, hfs⟩
          | none =>
              cases hlist : q.future.toList with
              | nil =>
                  have hzero : total q.future = 0 := by rw [total, sumOf, hlist]; rfl
                  have := h.counted
                  omega
              | cons e es =>
                  refine ⟨e.1, e.2, rfl, getElem?_of_mem_toList ?_⟩
                  rw [hlist]
                  exact .head _
        obtain ⟨a, fs, hbegin, hfs⟩ := hbegin
        obtain ⟨nonce, hlast, hnonce⟩ := lastKey?_of_isEmpty (h.occupiedFuture a fs hfs)
        have hlookup : lookup q.future a nonce ≠ none := by
          rw [lookup, hfs]
          exact hnonce
        have hsound := h.eraseFuture (List.nodup_singleton nonce)
          (fun n hn => List.mem_singleton.mp hn ▸ hlookup)
        simp only [hbegin, hlast]
        obtain ⟨future, futureSize, hok, hsound', hsub, hle, -⟩ :=
          ih hsound (by dsimp only [List.length_singleton]; omega)
        refine ⟨future, futureSize, hok, hsound', ?_, hle, fun hle' => absurd hle' hgt⟩
        intro a' n' t ht
        have ht' := hsub a' n' t ht
        rw [lookup_eraseAt] at ht'
        split at ht'
        · cases ht'
        · exact ht'

/-- What `makeCurrent` does: the transactions that follow become pending, and some
others may be forgotten. -/
structure Advanced (q : TransactionQueue) (t : Transaction) (q' : TransactionQueue) : Prop where
  pending : q'.pending.Perm ((q.promoted t).map Prod.snd ++ q.pending)
  future : ∀ a n t', lookup q'.future a n = some t' → lookup q.future a n = some t'
  known : q'.known = q.known
  limit : q'.limit = q.limit
  futureLimit : q'.futureLimit = q.futureLimit
  bounded : q'.futureSize ≤ q.futureLimit
  kept : q.futureSize - (q.promoted t).length ≤ q.futureLimit → ∀ t', q.Held t' → q'.Held t'

theorem Advanced.held (h : Advanced q t q') {t' : Transaction} (ht : q'.Held t') : q.Held t' := by
  rcases ht with ht | ⟨a, n, ht⟩
  · rcases List.mem_append.mp (h.pending.mem_iff.mp ht) with ht | ht
    · obtain ⟨e, he, rfl⟩ := List.mem_map.mp ht
      exact .inr ⟨_, _, lookup_of_mem_promoted he⟩
    · exact .inl ht
  · exact .inr ⟨a, n, h.future a n t' ht⟩

/-- What `makeCurrent` takes over is new among the pending transactions. -/
theorem Sound.takes (h : q.Sound) (t : Transaction) : q.Takes t.safeSender (q.promoted t) := by
  have hlookup := fun e (he : e ∈ q.promoted t) => lookup_of_mem_promoted he
  constructor
  · intro e he
    obtain ⟨hsender, hnonce, hrecover⟩ := h.keyed _ _ _ (hlookup e he)
    refine ⟨hsender, hrecover, ?_⟩
    intro t' ht'
    have happart := h.apart t' ht'
    constructor
    · intro hhash
      cases h.distinct t' e.2 (.inl ht') (.inr ⟨_, _, hlookup e he⟩) hhash
      rw [hsender, hnonce, hlookup e he] at happart
      cases happart
    · intro hsender' hnonce'
      rw [hsender', hsender, hnonce', hnonce, hlookup e he] at happart
      cases happart
  · have hnodup := nodup_promoted q t
    rw [List.Nodup, List.pairwise_map] at hnodup
    refine hnodup.imp_of_mem ?_
    intro e e' he he' hne
    have hnonce := (h.keyed _ _ _ (hlookup e he)).2.1
    have hnonce' := (h.keyed _ _ _ (hlookup e' he')).2.1
    constructor
    · intro hhash
      have heq := h.distinct e.2 e'.2 (.inr ⟨_, _, hlookup e he⟩) (.inr ⟨_, _, hlookup e' he'⟩) hhash
      exact hne (by rw [← hnonce, ← hnonce', heq])
    · rw [hnonce, hnonce']
      exact hne

/-- The queue after the transactions that follow have become pending. -/
theorem Sound.promote (h : q.Sound) (t : Transaction) (b : Balance Transaction) :
    ∃ q', q.promote b t.safeSender (q.promoted t) = .ok q' ∧ Promoted q (q.promoted t) q' ∧
      Sound { q' with
        future := eraseAt q'.future t.safeSender ((q.promoted t).map Prod.fst) } := by
  have hlookup := fun e (he : e ∈ q.promoted t) => lookup_of_mem_promoted he
  obtain ⟨q', hok, hpending, hrun⟩ := h.toPending.promote (h.takes t) b
  refine ⟨q', hok, hrun, ?_⟩
  have hsub : ∀ a n t', lookup (eraseAt q'.future t.safeSender ((q.promoted t).map Prod.fst)) a n =
      some t' → lookup q.future a n = some t' ∧
      ¬ (t.safeSender = a ∧ n ∈ (q.promoted t).map Prod.fst) := by
    intro a n t' ht'
    rw [lookup_eraseAt, hrun.future] at ht'
    split at ht'
    · cases ht'
    · rename_i hkept
      exact ⟨ht', hkept⟩
  have hheld : ∀ t', Held { q' with
      future := eraseAt q'.future t.safeSender ((q.promoted t).map Prod.fst) } t' → q.Held t' := by
    rintro t' (ht' | ⟨a, n, ht'⟩)
    · rcases List.mem_append.mp (hrun.pending.mem_iff.mp ht') with ht' | ht'
      · obtain ⟨e, he, rfl⟩ := List.mem_map.mp ht'
        exact .inr ⟨_, _, hlookup e he⟩
      · exact .inl ht'
    · exact .inr ⟨a, n, (hsub a n t' ht').1⟩
  refine ⟨⟨⟨hpending.nodup, hpending.byHash, hpending.byNonce, hpending.occupied⟩,
    hpending.recoverable⟩, ?_, ?_, ?_, ?_, ?_⟩
  · intro a n t' ht'
    exact h.keyed a n t' (hsub a n t' ht').1
  · intro t' ht'
    dsimp only
    rw [lookup_eraseAt, hrun.future]
    split
    · rfl
    · rename_i hkept
      rcases List.mem_append.mp (hrun.pending.mem_iff.mp ht') with ht' | ht'
      · obtain ⟨e, he, rfl⟩ := List.mem_map.mp ht'
        obtain ⟨hsender, hnonce, -⟩ := h.keyed _ _ _ (hlookup e he)
        exact absurd ⟨hsender.symm, hnonce ▸ List.mem_map_of_mem he⟩ hkept
      · exact h.apart t' ht'
  · rw [hrun.future]
    exact h.occupiedFuture.eraseAt _ _
  · intro t₁ t₂ ht₁ ht₂
    exact h.distinct t₁ t₂ (hheld t₁ ht₁) (hheld t₂ ht₂)
  · have htotal := total_eraseAt (m := q.future) (a := t.safeSender) (nodup_promoted q t) (by
      intro n hn
      obtain ⟨e, he, rfl⟩ := List.mem_map.mp hn
      rw [hlookup e he]
      simp)
    have hcount := h.counted
    have hsize := hrun.futureSize
    dsimp only
    rw [hrun.future]
    rw [List.length_map] at htotal
    omega

/-- `makeCurrent` always comes to its end. -/
theorem Sound.makeCurrent (h : q.Sound) (env : Env) (t : Transaction) :
    ∃ q', q.makeCurrent env t = .ok q' ∧ q'.Sound ∧ Advanced q t q' := by
  obtain ⟨q₁, hok, hrun, hsound⟩ := h.promote t env.balance
  -- Erasing nothing changes nothing, so both branches are one.
  have hbranch : (if (q.promoted t).isEmpty = true then q₁ else { q₁ with
      future := eraseAt q₁.future t.safeSender ((q.promoted t).map Prod.fst) }) = { q₁ with
      future := eraseAt q₁.future t.safeSender ((q.promoted t).map Prod.fst) } := by
    split
    · rename_i hempty
      rw [List.isEmpty_iff.mp hempty, List.map_nil, eraseAt_nil]
      intro fs hfs
      rw [hrun.future] at hfs
      exact h.occupiedFuture _ _ hfs
    · rfl
  obtain ⟨future, futureSize, hevict, hsound', hsub, hle, hkeep⟩ :=
    hsound.evictFuture (Nat.le_refl _) env.begins
  refine ⟨_, ?_, hsound', ⟨hrun.pending, ?_, hrun.known, hrun.limit, hrun.futureLimit, ?_, ?_⟩⟩
  · simp only [TransactionQueue.makeCurrent, hok]
    dsimp only [Bind.bind, Except.bind]
    rw [hbranch]
    exact hevict
  · intro a n t' ht'
    have ht' := hsub a n t' ht'
    dsimp only at ht'
    rw [lookup_eraseAt, hrun.future] at ht'
    split at ht'
    · cases ht'
    · exact ht'
  · exact hrun.futureLimit ▸ hle
  · intro hroom t' ht'
    obtain ⟨rfl, -⟩ := hkeep (by dsimp only; rw [hrun.futureSize, hrun.futureLimit]; exact hroom)
    rcases ht' with ht' | ⟨a, n, ht'⟩
    · exact .inl (hrun.pending.mem_iff.mpr (List.mem_append_right _ ht'))
    · by_cases htaken : t.safeSender = a ∧ n ∈ (q.promoted t).map Prod.fst
      · obtain ⟨rfl, hn⟩ := htaken
        obtain ⟨e, he, rfl⟩ := List.mem_map.mp hn
        rw [lookup_of_mem_promoted he] at ht'
        cases ht'
        exact .inl (hrun.pending.mem_iff.mpr
          (List.mem_append_left _ (List.mem_map_of_mem he)))
      · refine .inr ⟨a, n, ?_⟩
        dsimp only
        rw [lookup_eraseAt, if_neg htaken, hrun.future]
        exact ht'

end TransactionQueue

end CppSwc
