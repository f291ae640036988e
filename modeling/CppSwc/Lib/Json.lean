import Mathlib.Tactic.Common

/-!
# JSON

A text is a list of bytes.  `scan` cuts it into tokens, one byte after the other, and so a
text that is put together from parts is scanned part by part.  `Value` is the grammar over
the tokens.  It says which tokens a value takes from the front and which are left.

`Text` is the whole: which texts are JSON, and the value they stand for.  `parse` decides
it.

A value keeps strings and numbers as they are written.  What the escapes of a string stand
for is left to the reader, and bytes above 127 are characters of a string like any other.
-/

namespace CppSwc.Lib

/-- The bytes of a string of ASCII characters. -/
def ascii (s : String) : List UInt8 := s.toList.map Char.toUInt8

namespace Json

/-- A character of a string, as it is written. -/
inductive Chr where
  | plain (b : UInt8)
  | escape (b : UInt8)
  | unicode (digits : List UInt8)
deriving DecidableEq, Repr

/-- A token.  A word is a number, or one of the three literals, or nothing that is allowed. -/
inductive Token where
  | beginObject
  | endObject
  | beginArray
  | endArray
  | colon
  | comma
  | str (chars : List Chr)
  | word (w : List UInt8)
deriving DecidableEq, Repr

end Json

/-- A JSON value. -/
inductive Json where
  | null
  | bool (b : Bool)
  | num (literal : List UInt8)
  | str (chars : List Json.Chr)
  | arr (items : List Json)
  | obj (members : List (List Json.Chr × Json))
deriving Inhabited

namespace Json

/-! ## Tokens -/

/-- Insignificant white space. -/
def isSpace (b : UInt8) : Bool := b == 32 || b == 9 || b == 10 || b == 13

def isDigit (b : UInt8) : Bool := '0'.toUInt8 ≤ b && b ≤ '9'.toUInt8

def isHexDigit (b : UInt8) : Bool :=
  isDigit b || ('a'.toUInt8 ≤ b && b ≤ 'f'.toUInt8) || ('A'.toUInt8 ≤ b && b ≤ 'F'.toUInt8)

def quote : UInt8 := '"'.toUInt8

def backslash : UInt8 := '\\'.toUInt8

/-- The characters that are a token each. -/
def punct (b : UInt8) : Option Token :=
  if b = '\x7b'.toUInt8 then some .beginObject
  else if b = '\x7d'.toUInt8 then some .endObject
  else if b = '['.toUInt8 then some .beginArray
  else if b = ']'.toUInt8 then some .endArray
  else if b = ':'.toUInt8 then some .colon
  else if b = ','.toUInt8 then some .comma
  else none

/-- Where the scanner is, with the tokens it has. -/
inductive Scan where
  | between (done : List Token)
  | word (done : List Token) (w : List UInt8)
  | str (done : List Token) (chars : List Chr)
  | escape (done : List Token) (chars : List Chr)
  | unicode (done : List Token) (chars : List Chr) (digits : List UInt8)
  | failed
deriving DecidableEq, Repr

/-- A byte between two tokens, or after a word. -/
def start (done : List Token) (b : UInt8) : Option Scan :=
  if isSpace b then some (.between done)
  else if b = quote then some (.str done [])
  else (punct b).map fun t => .between (done ++ [t])

/-- One byte. -/
def step : Scan → UInt8 → Scan
  | .between done, b => (start done b).getD (.word done [b])
  | .word done w, b => (start (done ++ [.word w]) b).getD (.word done (w ++ [b]))
  | .str done chars, b =>
      if b = quote then .between (done ++ [.str chars])
      else if b = backslash then .escape done chars
      else if b < 32 then .failed
      else .str done (chars ++ [.plain b])
  | .escape done chars, b =>
      if b = 'u'.toUInt8 then .unicode done chars []
      else if b ∈ ascii "\"\\/bfnrt" then .str done (chars ++ [.escape b])
      else .failed
  | .unicode done chars digits, b =>
      if ¬isHexDigit b then .failed
      else if digits.length < 3 then .unicode done chars (digits ++ [b])
      else .str done (chars ++ [.unicode (digits ++ [b])])
  | .failed, _ => .failed

/-- The scanner after a text. -/
def scan (s : Scan) (text : List UInt8) : Scan := text.foldl step s

/-- The tokens, if the text may end here. -/
def Scan.tokens : Scan → Option (List Token)
  | .between done => some done
  | .word done w => some (done ++ [.word w])
  | _ => none

/-- The scanner with more tokens before those it has. -/
def Scan.after (before : List Token) : Scan → Scan
  | .between done => .between (before ++ done)
  | .word done w => .word (before ++ done) w
  | .str done chars => .str (before ++ done) chars
  | .escape done chars => .escape (before ++ done) chars
  | .unicode done chars digits => .unicode (before ++ done) chars digits
  | .failed => .failed

theorem scan_append (s : Scan) (a b : List UInt8) : scan s (a ++ b) = scan (scan s a) b :=
  List.foldl_append

theorem scan_cons (s : Scan) (b : UInt8) (text : List UInt8) :
    scan s (b :: text) = scan (step s b) text := rfl

theorem start_after (before done : List Token) (b : UInt8) :
    start (before ++ done) b = (start done b).map (Scan.after before) := by
  unfold start
  split
  · rfl
  · split
    · rfl
    · cases punct b with
      | none => rfl
      | some t =>
          simp only [Option.map_some, Scan.after, List.append_assoc]

/-- The scanner does not look at the tokens it has. -/
theorem step_after (before : List Token) (s : Scan) (b : UInt8) :
    step (s.after before) b = (step s b).after before := by
  cases s with
  | between done =>
      show (start (before ++ done) b).getD _ = ((start done b).getD _).after before
      rw [start_after]
      cases start done b <;> rfl
  | word done w =>
      show (start (before ++ done ++ [.word w]) b).getD _ =
        ((start (done ++ [.word w]) b).getD _).after before
      rw [List.append_assoc, start_after]
      cases start (done ++ [.word w]) b <;> rfl
  | str done chars =>
      simp only [Scan.after, step]
      split
      · rw [List.append_assoc]
      · split
        · rfl
        · split <;> rfl
  | escape done chars =>
      simp only [Scan.after, step]
      split
      · rfl
      · split <;> rfl
  | unicode done chars digits =>
      simp only [Scan.after, step]
      split
      · rfl
      · split <;> rfl
  | failed => rfl

theorem scan_after (before : List Token) (s : Scan) (text : List UInt8) :
    scan (s.after before) text = (scan s text).after before := by
  induction text generalizing s with
  | nil => rfl
  | cons b text ih => rw [scan_cons, step_after, ih, scan_cons]

theorem scan_between (before : List Token) (text : List UInt8) :
    scan (.between before) text = (scan (.between []) text).after before := by
  rw [← scan_after, Scan.after, List.append_nil]

theorem scan_str (before : List Token) (chars : List Chr) (text : List UInt8) :
    scan (.str before chars) text = (scan (.str [] chars) text).after before := by
  rw [← scan_after, Scan.after, List.append_nil]

/-- A text that is complete is scanned like this inside a longer one, up to the character
that ends it. -/
theorem scan_text {text : List UInt8} {tokens : List Token}
    (h : (scan (.between []) text).tokens = some tokens) (before : List Token) {b : UInt8}
    {t : Token} (hspace : isSpace b = false) (hquote : b ≠ quote) (hb : punct b = some t) :
    scan (.between before) (text ++ [b]) = .between (before ++ tokens ++ [t]) := by
  have hstart : ∀ done, start done b = some (.between (done ++ [t])) := fun done => by
    rw [start, if_neg (by simp [hspace]), if_neg hquote, hb]
    rfl
  rw [scan_append, scan_between]
  show step _ b = _
  cases hscan : scan (.between []) text with
  | between done =>
      rw [hscan] at h
      cases h
      show (start _ b).getD _ = _
      rw [hstart]
      rfl
  | word done w =>
      rw [hscan] at h
      cases h
      show (start _ b).getD _ = _
      rw [hstart, Option.getD_some, List.append_assoc before]
  | str done chars => rw [hscan] at h; cases h
  | escape done chars => rw [hscan] at h; cases h
  | unicode done chars digits => rw [hscan] at h; cases h
  | failed => rw [hscan] at h; cases h

/-- A string without escapes. -/
def plain (text : List UInt8) : List Chr := text.map .plain

/-- A character that stands for itself in a string. -/
def IsPlain (b : UInt8) : Prop := b ≠ quote ∧ b ≠ backslash ∧ ¬b < 32

instance decidableIsPlain (b : UInt8) : Decidable (IsPlain b) :=
  inferInstanceAs (Decidable (b ≠ quote ∧ b ≠ backslash ∧ ¬b < 32))

theorem scan_plain {text : List UInt8} (h : ∀ b ∈ text, IsPlain b) (done : List Token)
    (chars : List Chr) : scan (.str done chars) text = .str done (chars ++ plain text) := by
  induction text generalizing chars with
  | nil => rw [plain, List.map_nil, List.append_nil]; rfl
  | cons b text ih =>
      obtain ⟨hquote, hbackslash, hcontrol⟩ := h b (List.mem_cons_self ..)
      have hstep : step (.str done chars) b = .str done (chars ++ [.plain b]) := by
        rw [step, if_neg hquote, if_neg hbackslash, if_neg hcontrol]
      rw [scan_cons, hstep, ih fun c hc => h c (List.mem_cons_of_mem _ hc), plain, plain,
        List.map_cons, List.append_assoc, List.singleton_append]

/-! ## Numbers -/

/-- At least one digit. -/
def isDigits (w : List UInt8) : Bool := !w.isEmpty && w.all isDigit

/-- An exponent, after the letter and the sign. -/
def isExponent (w : List UInt8) : Bool :=
  match w with
  | [] => false
  | b :: rest => if b = '+'.toUInt8 ∨ b = '-'.toUInt8 then isDigits rest else isDigits w

/-- What comes after the digits before the point. -/
def isFraction (w : List UInt8) : Bool :=
  let isE := fun b : UInt8 => b = 'e'.toUInt8 ∨ b = 'E'.toUInt8
  match w with
  | [] => true
  | b :: rest =>
      if isE b then isExponent rest
      else if b = '.'.toUInt8 then
        let digits := rest.takeWhile isDigit
        isDigits digits && match rest.dropWhile isDigit with
          | [] => true
          | c :: more => isE c && isExponent more
      else false

/-- A number, without the sign.  No digit follows a leading zero. -/
def isUnsigned (w : List UInt8) : Bool :=
  let digits := w.takeWhile isDigit
  isDigits digits && (digits.length == 1 || digits.head? != some '0'.toUInt8) &&
    isFraction (w.dropWhile isDigit)

/-- `number`. -/
def isNumber (w : List UInt8) : Bool :=
  match w with
  | [] => false
  | b :: rest => if b = '-'.toUInt8 then isUnsigned rest else isUnsigned w

/-- The value of a word. -/
def literal (w : List UInt8) : Option Json :=
  if w = ascii "null" then some .null
  else if w = ascii "true" then some (.bool true)
  else if w = ascii "false" then some (.bool false)
  else if isNumber w then some (.num w)
  else none

/-! ## The grammar -/

mutual

/-- A value at the front of some tokens, and the tokens after it. -/
inductive Value : List Token → Json → List Token → Prop where
  | word {w : List UInt8} {v : Json} {rest : List Token} :
      literal w = some v → Value (.word w :: rest) v rest
  | str {chars : List Chr} {rest : List Token} : Value (.str chars :: rest) (.str chars) rest
  | emptyArray {rest : List Token} : Value (.beginArray :: .endArray :: rest) (.arr []) rest
  | array {toks rest : List Token} {items : List Json} :
      Items toks items rest → Value (.beginArray :: toks) (.arr items) rest
  | emptyObject {rest : List Token} : Value (.beginObject :: .endObject :: rest) (.obj []) rest
  | object {toks rest : List Token} {members : List (List Chr × Json)} :
      Members toks members rest → Value (.beginObject :: toks) (.obj members) rest

/-- The items of an array, up to its end. -/
inductive Items : List Token → List Json → List Token → Prop where
  | last {toks rest : List Token} {v : Json} :
      Value toks v (.endArray :: rest) → Items toks [v] rest
  | cons {toks more rest : List Token} {v : Json} {items : List Json} :
      Value toks v (.comma :: more) → Items more items rest → Items toks (v :: items) rest

/-- The members of an object, up to its end. -/
inductive Members : List Token → List (List Chr × Json) → List Token → Prop where
  | last {toks rest : List Token} {key : List Chr} {v : Json} :
      Value toks v (.endObject :: rest) → Members (.str key :: .colon :: toks) [(key, v)] rest
  | cons {toks more rest : List Token} {key : List Chr} {v : Json}
      {members : List (List Chr × Json)} :
      Value toks v (.comma :: more) → Members more members rest →
        Members (.str key :: .colon :: toks) ((key, v) :: members) rest

end

/-- A JSON text and its value. -/
def Text (text : List UInt8) (v : Json) : Prop :=
  ∃ tokens, (scan (.between []) text).tokens = some tokens ∧ Value tokens v []

/-! ## The grammar, decided

A parser for the tokens.  The number bounds how deep it goes, and the number of tokens is
always enough.
-/

mutual

/-- A value at the front. -/
def value : Nat → List Token → Option (Json × List Token)
  | _ + 1, .word w :: rest => (literal w).map fun v => (v, rest)
  | _ + 1, .str chars :: rest => some (.str chars, rest)
  | _ + 1, .beginArray :: .endArray :: rest => some (.arr [], rest)
  | n + 1, .beginArray :: toks => (items n toks).map fun x => (.arr x.1, x.2)
  | _ + 1, .beginObject :: .endObject :: rest => some (.obj [], rest)
  | n + 1, .beginObject :: toks => (members n toks).map fun x => (.obj x.1, x.2)
  | _, _ => none

/-- Items up to the end of the array. -/
def items : Nat → List Token → Option (List Json × List Token)
  | 0, _ => none
  | n + 1, toks =>
      match value n toks with
      | some (v, .endArray :: rest) => some ([v], rest)
      | some (v, .comma :: more) => (items n more).map fun x => (v :: x.1, x.2)
      | _ => none

/-- Members up to the end of the object. -/
def members : Nat → List Token → Option (List (List Chr × Json) × List Token)
  | n + 1, .str key :: .colon :: toks =>
      match value n toks with
      | some (v, .endObject :: rest) => some ([(key, v)], rest)
      | some (v, .comma :: more) => (members n more).map fun x => ((key, v) :: x.1, x.2)
      | _ => none
  | _, _ => none

end

/-- The parser only gives what the grammar has. -/
theorem parser_sound (n : Nat) :
    (∀ toks v rest, value n toks = some (v, rest) → Value toks v rest) ∧
      (∀ toks vs rest, items n toks = some (vs, rest) → Items toks vs rest) ∧
        ∀ toks ms rest, members n toks = some (ms, rest) → Members toks ms rest := by
  induction n with
  | zero =>
      refine ⟨fun toks v rest h => ?_, fun toks vs rest h => ?_, fun toks ms rest h => ?_⟩
      · simp [value] at h
      · simp [items] at h
      · simp [members] at h
  | succ n ih =>
      obtain ⟨hvalue, hitems, hmembers⟩ := ih
      refine ⟨fun toks v rest h => ?_, fun toks vs rest h => ?_, fun toks ms rest h => ?_⟩
      · rw [value.eq_def] at h
        split at h
        · obtain ⟨w, hw, heq⟩ := Option.map_eq_some_iff.mp h
          cases heq
          exact .word hw
        · cases h
          exact .str
        · cases h
          exact .emptyArray
        · obtain ⟨x, hx, heq⟩ := Option.map_eq_some_iff.mp h
          cases heq
          cases ‹n + 1 = _›
          exact .array (hitems _ _ _ hx)
        · cases h
          exact .emptyObject
        · obtain ⟨x, hx, heq⟩ := Option.map_eq_some_iff.mp h
          cases heq
          cases ‹n + 1 = _›
          exact .object (hmembers _ _ _ hx)
        · cases h
      · rw [items] at h
        split at h
        · next hv =>
            cases h
            exact .last (hvalue _ _ _ hv)
        · next hv =>
            obtain ⟨x, hx, heq⟩ := Option.map_eq_some_iff.mp h
            cases heq
            exact .cons (hvalue _ _ _ hv) (hitems _ _ _ hx)
        · cases h
      · rw [members.eq_def] at h
        split at h
        · cases ‹n + 1 = _›
          split at h
          · next hv =>
              cases h
              exact .last (hvalue _ _ _ hv)
          · next hv =>
              obtain ⟨x, hx, heq⟩ := Option.map_eq_some_iff.mp h
              cases heq
              exact .cons (hvalue _ _ _ hv) (hmembers _ _ _ hx)
          · cases h
        · cases h

theorem Items.nonempty {rest rest' : List Token} {vs : List Json} :
    ¬Items (.endArray :: rest) vs rest' := by
  intro h
  cases h with
  | last hv => cases hv
  | cons hv _ => cases hv

theorem Members.nonempty {rest rest' : List Token} {ms : List (List Chr × Json)} :
    ¬Members (.endObject :: rest) ms rest' := by
  intro h
  cases h

mutual

/-- Whatever the grammar has, the parser gives, if it may go twice as deep as there are
tokens. -/
theorem value_complete {toks rest : List Token} {v : Json} : Value toks v rest →
    rest.length < toks.length ∧ ∀ n, 2 * toks.length ≤ n → value n toks = some (v, rest)
  | .word h => by
      refine ⟨Nat.lt_succ_self _, fun n hn => ?_⟩
      rw [List.length_cons] at hn
      obtain ⟨n, rfl⟩ := Nat.exists_eq_add_of_le' (by omega : 1 ≤ n)
      rw [value, h]
      rfl
  | .str => by
      refine ⟨Nat.lt_succ_self _, fun n hn => ?_⟩
      rw [List.length_cons] at hn
      obtain ⟨n, rfl⟩ := Nat.exists_eq_add_of_le' (by omega : 1 ≤ n)
      rw [value]
  | .emptyArray => by
      refine ⟨by simp only [List.length_cons]; omega, fun n hn => ?_⟩
      rw [List.length_cons] at hn
      obtain ⟨n, rfl⟩ := Nat.exists_eq_add_of_le' (by omega : 1 ≤ n)
      rw [value]
  | .array h => by
      obtain ⟨hlength, hitems⟩ := items_complete h
      refine ⟨Nat.lt_succ_of_lt hlength, fun n hn => ?_⟩
      rw [List.length_cons] at hn
      obtain ⟨n, rfl⟩ := Nat.exists_eq_add_of_le' (by omega : 1 ≤ n)
      rw [value, hitems n (by omega)]
      · rfl
      · rintro r rfl
        exact Items.nonempty h
  | .emptyObject => by
      refine ⟨by simp only [List.length_cons]; omega, fun n hn => ?_⟩
      rw [List.length_cons] at hn
      obtain ⟨n, rfl⟩ := Nat.exists_eq_add_of_le' (by omega : 1 ≤ n)
      rw [value]
  | .object h => by
      obtain ⟨hlength, hmembers⟩ := members_complete h
      refine ⟨Nat.lt_succ_of_lt hlength, fun n hn => ?_⟩
      rw [List.length_cons] at hn
      obtain ⟨n, rfl⟩ := Nat.exists_eq_add_of_le' (by omega : 1 ≤ n)
      rw [value, hmembers n (by omega)]
      · rfl
      · rintro r rfl
        exact Members.nonempty h

theorem items_complete {toks rest : List Token} {vs : List Json} : Items toks vs rest →
    rest.length < toks.length ∧ ∀ n, 2 * toks.length + 1 ≤ n → items n toks = some (vs, rest)
  | .last h => by
      obtain ⟨hlength, hvalue⟩ := value_complete h
      rw [List.length_cons] at hlength
      refine ⟨by omega, fun n hn => ?_⟩
      obtain ⟨n, rfl⟩ := Nat.exists_eq_add_of_le' (by omega : 1 ≤ n)
      rw [items, hvalue n (by omega)]
  | .cons h hmore => by
      obtain ⟨hlength, hvalue⟩ := value_complete h
      obtain ⟨hlength', hitems⟩ := items_complete hmore
      rw [List.length_cons] at hlength
      refine ⟨by omega, fun n hn => ?_⟩
      obtain ⟨n, rfl⟩ := Nat.exists_eq_add_of_le' (by omega : 1 ≤ n)
      rw [items, hvalue n (by omega)]
      dsimp only
      rw [hitems n (by omega)]
      rfl

theorem members_complete {toks rest : List Token} {ms : List (List Chr × Json)} :
    Members toks ms rest →
      rest.length < toks.length ∧ ∀ n, 2 * toks.length + 1 ≤ n → members n toks = some (ms, rest)
  | .last h => by
      obtain ⟨hlength, hvalue⟩ := value_complete h
      rw [List.length_cons] at hlength
      refine ⟨by simp only [List.length_cons]; omega, fun n hn => ?_⟩
      rw [List.length_cons, List.length_cons] at hn
      obtain ⟨n, rfl⟩ := Nat.exists_eq_add_of_le' (by omega : 1 ≤ n)
      rw [members, hvalue n (by omega)]
  | .cons h hmore => by
      obtain ⟨hlength, hvalue⟩ := value_complete h
      obtain ⟨hlength', hmembers⟩ := members_complete hmore
      rw [List.length_cons] at hlength
      refine ⟨by simp only [List.length_cons]; omega, fun n hn => ?_⟩
      rw [List.length_cons, List.length_cons] at hn
      obtain ⟨n, rfl⟩ := Nat.exists_eq_add_of_le' (by omega : 1 ≤ n)
      rw [members, hvalue n (by omega)]
      dsimp only
      rw [hmembers n (by omega)]
      rfl

end

/-- The value of a JSON text. -/
def parse (text : List UInt8) : Option Json :=
  match (scan (.between []) text).tokens with
  | none => none
  | some toks =>
      match value (2 * toks.length) toks with
      | some (v, []) => some v
      | _ => none

/-- The parser accepts exactly JSON. -/
theorem parse_eq_some {text : List UInt8} {v : Json} : parse text = some v ↔ Text text v := by
  unfold parse Text
  cases (scan (.between []) text).tokens with
  | none => simp
  | some toks =>
      simp only [Option.some.injEq, exists_eq_left']
      constructor
      · intro h
        split at h
        · next hv =>
            cases h
            exact (parser_sound _).1 _ _ _ hv
        · cases h
      · intro h
        rw [(value_complete h).2 _ (Nat.le_refl _)]

/-! ## Values inside longer texts -/

mutual

/-- What comes after a value does not matter. -/
theorem Value.append {toks rest : List Token} {v : Json} (more : List Token) :
    Value toks v rest → Value (toks ++ more) v (rest ++ more)
  | .word h => .word h
  | .str => .str
  | .emptyArray => .emptyArray
  | .array h => .array (h.append more)
  | .emptyObject => .emptyObject
  | .object h => .object (h.append more)

theorem Items.append {toks rest : List Token} {vs : List Json} (more : List Token) :
    Items toks vs rest → Items (toks ++ more) vs (rest ++ more)
  | .last h => .last (h.append more)
  | .cons h hs => .cons (h.append more) (hs.append more)

theorem Members.append {toks rest : List Token} {ms : List (List Chr × Json)}
    (more : List Token) : Members toks ms rest → Members (toks ++ more) ms (rest ++ more)
  | .last h => .last (h.append more)
  | .cons h hs => .cons (h.append more) (hs.append more)

end

end Json

end CppSwc.Lib
