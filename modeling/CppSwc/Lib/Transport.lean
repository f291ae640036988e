import Mathlib.Data.List.Basic

/-!
# Messages on a stream

A writer turns one message after the other into symbols.  A reader takes the symbols off
the stream, each time as many as it asks for, and has a message after some of its reads.
Both keep a state that changes with what they have written and read, as where the stream
is encrypted.

`Delivers` says what a reader makes of the symbols that are on their way, and where the
writer is who wrote them.  A message that is written goes to its end
(`Delivers.write`), and a read takes from its beginning (`Delivers.feed`), so that it
holds of every connection on which the two do this in any order.
-/

namespace CppSwc.Lib

/-- Writers with states `ω` and readers with states `σ` on a stream of symbols `β`.  A
message is written as a `ν` and read as a `μ`. -/
structure Transport (ω σ ν μ β : Type*) where
  /-- The symbols of a message, and the writer after it. -/
  write : ω → ν → List β × ω
  /-- How many symbols the next read takes. -/
  need : σ → ℕ
  /-- What a read makes of them, unless it fails: a message, if one is complete, and the
  reader after it. -/
  feed : σ → List β → Option (Option μ × σ)

namespace Transport

variable {ω σ ν μ β : Type*} {T : Transport ω σ ν μ β} {Sync : ω → σ → Prop} {means : ν → μ}
  {ok : ν → Prop} {w w' : ω} {r r' : σ} {bs bs' : List β} {ms ms' : List μ}

/-- A reader makes these messages of the symbols, and is then where the writer is. -/
inductive Delivers (T : Transport ω σ ν μ β) (Sync : ω → σ → Prop) :
    σ → List β → List μ → ω → Prop where
  | done {w : ω} {r : σ} : Sync w r → Delivers T Sync r [] [] w
  | read {w : ω} {r r' : σ} {bs : List β} {o : Option μ} {ms : List μ} :
      T.need r ≤ bs.length → T.feed r (bs.take (T.need r)) = some (o, r') →
      Delivers T Sync r' (bs.drop (T.need r)) ms w → Delivers T Sync r bs (o.toList ++ ms) w

/-- A reader that is where the writer is waits for symbols, and reads the message that the
writer writes. -/
structure Lawful (T : Transport ω σ ν μ β) (Sync : ω → σ → Prop) (means : ν → μ)
    (ok : ν → Prop) : Prop where
  need_pos : ∀ {w r}, Sync w r → 0 < T.need r
  write : ∀ {w r m}, Sync w r → ok m →
    T.Delivers Sync r (T.write w m).1 [means m] (T.write w m).2

/-- A read of the symbols that are first. -/
theorem Delivers.read_append {bs₁ bs₂ : List β} {o : Option μ} (hneed : T.need r = bs₁.length)
    (hfeed : T.feed r bs₁ = some (o, r')) (h : T.Delivers Sync r' bs₂ ms w) :
    T.Delivers Sync r (bs₁ ++ bs₂) (o.toList ++ ms) w := by
  have htake : (bs₁ ++ bs₂).take (T.need r) = bs₁ := by rw [hneed, List.take_left]
  have hdrop : (bs₁ ++ bs₂).drop (T.need r) = bs₂ := by rw [hneed, List.drop_left]
  rw [← htake] at hfeed
  rw [← hdrop] at h
  exact .read (by simp [hneed]) hfeed h

/-- What follows on the stream is read by the reader that has read the rest. -/
theorem Delivers.append (h : T.Delivers Sync r bs ms w)
    (hrest : ∀ r', Sync w r' → T.Delivers Sync r' bs' ms' w') :
    T.Delivers Sync r (bs ++ bs') (ms ++ ms') w' := by
  induction h with
  | done hsync => exact hrest _ hsync
  | @read _ r s bs o ms hneed hfeed _ ih =>
      have hread : T.feed r ((bs ++ bs').take (T.need r)) = some (o, s) := by
        rwa [List.take_append_of_le_length hneed]
      rw [List.append_assoc]
      refine .read (Nat.le_trans hneed (by simp)) hread ?_
      rw [List.drop_append_of_le_length hneed]
      exact ih hrest

/-- What is written next is read last. -/
theorem Delivers.write (h : T.Delivers Sync r bs ms w) (hT : T.Lawful Sync means ok) {m : ν}
    (hm : ok m) :
    T.Delivers Sync r (bs ++ (T.write w m).1) (ms ++ [means m]) (T.write w m).2 :=
  h.append fun _ hsync => hT.write hsync hm

/-- A read that has its symbols does not fail, and takes what is first. -/
theorem Delivers.feed (h : T.Delivers Sync r bs ms w) (hT : T.Lawful Sync means ok)
    (hneed : T.need r ≤ bs.length) :
    ∃ o r' ms', T.feed r (bs.take (T.need r)) = some (o, r') ∧ ms = o.toList ++ ms' ∧
      T.Delivers Sync r' (bs.drop (T.need r)) ms' w := by
  cases h with
  | done hsync =>
      have hpos := hT.need_pos hsync
      rw [List.length_nil] at hneed
      omega
  | read _ hfeed hrest => exact ⟨_, _, _, hfeed, rfl, hrest⟩

/-- Another writer that is where the first one is. -/
theorem Delivers.of_writer (h : T.Delivers Sync r bs ms w) (hw : ∀ r', Sync w r' → Sync w' r') :
    T.Delivers Sync r bs ms w' := by
  have hdone : ∀ r', Sync w r' → T.Delivers Sync r' [] [] w' := fun r' hsync => .done (hw r' hsync)
  have happend := h.append hdone
  rwa [List.append_nil, List.append_nil] at happend

/-- Another reader that reads alike. -/
theorem Delivers.of_reader {R : σ → σ → Prop} (h : T.Delivers Sync r bs ms w)
    (hneed : ∀ {r r'}, R r r' → T.need r' = T.need r)
    (hfeed : ∀ {r r' bs o s}, R r r' → T.feed r bs = some (o, s) →
      ∃ s', T.feed r' bs = some (o, s') ∧ R s s')
    (hsync : ∀ {r r'}, R r r' → Sync w r → Sync w r') (hr : R r r') :
    T.Delivers Sync r' bs ms w := by
  induction h generalizing r' with
  | done hdone => exact .done (hsync hr hdone)
  | read hlength hread _ ih =>
      obtain ⟨s', hs', hrel⟩ := hfeed hr hread
      rw [← hneed hr] at hlength hs'
      refine .read hlength hs' ?_
      rw [hneed hr]
      exact ih hsync hrel

end Transport

end CppSwc.Lib
