import CppSwc.Core.HeaderBytes

/-!
# Writing RLP

`RLPStream` writes the items of a list before it knows how long they are.  A list that is
open is on a stack, with the number of items it still waits for and the place where it
began.  When the last item has arrived, the header is moved in there, and the list counts as
an item of the list around it.

`Writes` says which calls write which items, and `run_of_writes` that the output is their
encoding, however the calls are mixed.  `none` is an exception.
-/

namespace CppSwc

/-- The fields of `RLPStream`.  The innermost open list comes first. -/
structure RLPStream where
  m_out : Bytes := []
  m_listStack : List (Nat × Nat) := []
deriving DecidableEq, Repr

namespace RLPStream

open RLP (lengthPrefix appendData maxLength)
open Rlp (bytesRequired)

/-! ## The calls -/

/-- The header of a list whose items take `s` bytes. -/
def listHeader (s : Nat) : Option Bytes :=
  let brs := bytesRequired s
  if s < 56 then some [UInt8.ofNat (0xc0 + s)]
  else if 0xf7 + brs ≤ 0xff then some (UInt8.ofNat (0xf7 + brs) :: bigEndian brs s)
  else none

/-- `noteAppended`, a loop over the stack. -/
def noteAppended (itemCount : Nat) (m_out : Bytes) : List (Nat × Nat) → Option RLPStream
  | [] => some ⟨m_out, []⟩
  | (count, p) :: m_listStack =>
      if itemCount = 0 then some ⟨m_out, (count, p) :: m_listStack⟩
      else if count < itemCount then none
      else if count - itemCount ≠ 0 then some ⟨m_out, (count - itemCount, p) :: m_listStack⟩
      else (listHeader (m_out.length - p)).bind fun header =>
        noteAppended 1 (m_out.take p ++ header ++ m_out.drop p) m_listStack

/-- Bytes at the end of the output. -/
def push (bs : Bytes) (r : RLPStream) : RLPStream := { r with m_out := r.m_out ++ bs }

/-- `appendRaw`. -/
def appendRaw (s : Bytes) (itemCount : Nat) (r : RLPStream) : Option RLPStream :=
  noteAppended itemCount (r.m_out ++ s) r.m_listStack

/-- `pushCount`. -/
def pushCount (count base : Nat) (r : RLPStream) : Option RLPStream :=
  let br := bytesRequired count
  if br + base > 0xff then none
  else some (r.push (UInt8.ofNat (br + base) :: bigEndian br count))

/-- The length of a string or of a list, with the first bytes of the short and of the long
forms. -/
def pushLength (n imm ind : Nat) (r : RLPStream) : Option RLPStream :=
  if n < 56 then some (r.push [UInt8.ofNat (n + imm)]) else r.pushCount n ind

/-- A byte that needs no length. -/
def isSingle : Bytes → Bool
  | [b] => b.toNat < 0x80
  | _ => false

/-- The bytes that are written of a string. -/
def trim (s : Bytes) (compact : Bool) : Bytes := if compact then s.dropWhile (· = 0) else s

/-- What `append` does before it notes the item. -/
def pushBytes (d : Bytes) (r : RLPStream) : Option RLPStream :=
  if isSingle d then some (r.push d) else (r.pushLength d.length 0x80 0xb7).bind (appendRaw d 0)

/-- `append` of bytes, without their leading zeros if `compact` is set. -/
def appendBytes (s : Bytes) (compact : Bool) (r : RLPStream) : Option RLPStream :=
  (r.pushBytes (trim s compact)).bind fun r => noteAppended 1 r.m_out r.m_listStack

/-- The first bytes of a number of `br` bytes. -/
def pushIntLength (br : Nat) (r : RLPStream) : Option RLPStream :=
  if br < 56 then some (r.push [UInt8.ofNat (br + 0x80)])
  else
    let brbr := bytesRequired br
    if 0xb7 + brbr > 0xff then none
    else some (r.push (UInt8.ofNat (0xb7 + brbr) :: bigEndian brbr br))

/-- What `append` of a number does before it notes the item. -/
def pushNumber (i : Nat) (r : RLPStream) : Option RLPStream :=
  if i = 0 then some (r.push [0x80])
  else if i < 0x80 then some (r.push [UInt8.ofNat i])
  else (r.pushIntLength (bytesRequired i)).map (push (bigEndian (bytesRequired i) i))

/-- `append` of a number. -/
def appendInt (i : Nat) (r : RLPStream) : Option RLPStream :=
  (r.pushNumber i).bind fun r => noteAppended 1 r.m_out r.m_listStack

/-- `appendList` of items that are written already. -/
def appendListBytes (rlp : Bytes) (r : RLPStream) : Option RLPStream :=
  (r.pushLength rlp.length 0xc0 0xf7).bind (appendRaw rlp 1)

/-- `appendList` of a number of items that follow. -/
def appendList (items : Nat) (r : RLPStream) : Option RLPStream :=
  if items ≠ 0 then some { r with m_listStack := (items, r.m_out.length) :: r.m_listStack }
  else r.appendListBytes []

/-- `append` of an `RLP`. -/
def appendRlp (data : Bytes) (itemCount : Nat) : RLPStream → Option RLPStream :=
  appendRaw data itemCount

/-- A call. -/
inductive Op where
  | appendList (items : Nat)
  | appendListBytes (rlp : Bytes)
  | appendBytes (s : Bytes) (compact : Bool)
  | appendInt (i : Nat)
  | appendRlp (data : Bytes) (itemCount : Nat)
  | appendRaw (s : Bytes) (itemCount : Nat)
deriving DecidableEq, Repr

/-- What a call does. -/
def Op.apply : Op → RLPStream → Option RLPStream
  | .appendList items => RLPStream.appendList items
  | .appendListBytes rlp => RLPStream.appendListBytes rlp
  | .appendBytes s compact => RLPStream.appendBytes s compact
  | .appendInt i => RLPStream.appendInt i
  | .appendRlp data itemCount => RLPStream.appendRlp data itemCount
  | .appendRaw s itemCount => RLPStream.appendRaw s itemCount

/-- Calls one after the other. -/
def run : List Op → RLPStream → Option RLPStream
  | [], r => some r
  | op :: ops, r => (op.apply r).bind (run ops)

/-- `out`, which throws if a list is open. -/
def out (r : RLPStream) : Option Bytes := if r.m_listStack = [] then some r.m_out else none

theorem run_append (ops ops' : List Op) (r : RLPStream) :
    run (ops ++ ops') r = (run ops r).bind (run ops') := by
  induction ops generalizing r with
  | nil => rfl
  | cons op ops ih =>
      rw [List.cons_append, run, run, Option.bind_assoc]
      congr 1
      exact funext ih

/-! ## What a call writes -/

theorem listHeader_eq {s : Nat} (h : s < 2 ^ 64) : listHeader s = some (lengthPrefix 0xc0 s) := by
  have hbytes : bytesRequired s ≤ 8 := RLP.bytesRequired_le (by omega)
  rw [listHeader, lengthPrefix]
  split
  · rfl
  · rw [if_pos (by omega)]

theorem pushLength_eq {n imm ind start : Nat} (himm : imm = start) (hind : ind = start + 55)
    (hstart : start ≤ 0xc0) (h : n < 2 ^ 64) (r : RLPStream) :
    r.pushLength n imm ind = some (r.push (lengthPrefix start n)) := by
  have hbytes : bytesRequired n ≤ 8 := RLP.bytesRequired_le (by omega)
  have hsum : bytesRequired n + ind = start + 55 + bytesRequired n := by omega
  rw [pushLength, lengthPrefix]
  split
  · rw [himm, Nat.add_comm]
  · rw [pushCount, if_neg (by omega), hsum]

theorem appendRaw_zero (d : Bytes) (r : RLPStream) : r.appendRaw d 0 = some (r.push d) := by
  obtain ⟨m_out, m_listStack⟩ := r
  cases m_listStack with
  | nil => rfl
  | cons x stack => rfl

theorem push_push (a b : Bytes) (r : RLPStream) : (r.push a).push b = r.push (a ++ b) := by
  rw [push, push, push, List.append_assoc]

theorem exists_of_isSingle {d : Bytes} (h : isSingle d = true) : ∃ b, d = [b] ∧ b.toNat < 0x80 := by
  unfold isSingle at h
  split at h
  · exact ⟨_, rfl, of_decide_eq_true h⟩
  · cases h

/-- A string without its length, and one with it. -/
theorem appendData_eq (d : Bytes) :
    appendData d = if isSingle d then d else lengthPrefix 0x80 d.length ++ d := by
  rcases RLP.appendData_cases d with ⟨b, rfl, hb, happend⟩ | ⟨happend, hone⟩
  · have hsingle : isSingle [b] = true := decide_eq_true hb
    rw [if_pos hsingle, happend]
  · rw [if_neg, happend]
    intro hsingle
    obtain ⟨b, rfl, hb⟩ := exists_of_isSingle hsingle
    obtain ⟨c, t, heq, hc⟩ := hone rfl
    cases heq
    omega

theorem pushBytes_eq {d : Bytes} (h : d.length < 2 ^ 64) (r : RLPStream) :
    r.pushBytes d = some (r.push (appendData d)) := by
  have hlong : (r.pushLength d.length 0x80 0xb7).bind (appendRaw d 0) =
      some (r.push (lengthPrefix 0x80 d.length ++ d)) := by
    rw [pushLength_eq rfl rfl (by decide) h, Option.bind_some, appendRaw_zero, push_push]
  rw [pushBytes, hlong, appendData_eq]
  split <;> rfl

theorem appendBytes_eq {s : Bytes} {compact : Bool} (h : (trim s compact).length < 2 ^ 64)
    (r : RLPStream) : r.appendBytes s compact =
      noteAppended 1 (r.m_out ++ appendData (trim s compact)) r.m_listStack := by
  rw [appendBytes, pushBytes_eq h]
  rfl

theorem appendInt_eq {i : Nat} (h : bytesRequired i < 2 ^ 64) (r : RLPStream) :
    r.appendInt i =
      noteAppended 1 (r.m_out ++ appendData (bigEndian (bytesRequired i) i)) r.m_listStack := by
  have hpush : r.pushNumber i = some (r.push (appendData (bigEndian (bytesRequired i) i))) := by
    unfold pushNumber
    split
    · next hzero => subst hzero; rfl
    · next hzero =>
        split
        · next hsmall =>
            have hone : bytesRequired i = 1 := Rlp.bytesRequired_eq (k := 0) (by omega) (by omega)
            have hmod : i % 256 = i := by omega
            have hbyte : (UInt8.ofNat i).toNat < 0x80 := by
              rw [UInt8.toNat_ofNat']
              omega
            rw [hone]
            show _ = some (r.push (appendData [UInt8.ofNat (i % 256)]))
            rw [hmod, appendData, if_pos hbyte]
        · next hbig =>
            have hlength : r.pushIntLength (bytesRequired i) =
                some (r.push (lengthPrefix 0x80 (bytesRequired i))) := by
              have hbytes : bytesRequired (bytesRequired i) ≤ 8 := RLP.bytesRequired_le (by omega)
              rw [pushIntLength, lengthPrefix]
              split
              · rw [Nat.add_comm]
              · rw [if_neg (by omega)]
            have hnot : ¬isSingle (bigEndian (bytesRequired i) i) = true := by
              intro hsingle
              obtain ⟨b, hbs, hb⟩ := exists_of_isSingle hsingle
              have hone : bytesRequired i = 1 := by
                rw [← bigEndian_length (bytesRequired i) i, hbs, List.length_singleton]
              have hlt := Rlp.lt_pow_bytesRequired i
              rw [hone] at hbs hlt
              have hbyte : [UInt8.ofNat (i % 256)] = [b] := hbs
              rw [← (List.cons.inj hbyte).1, UInt8.toNat_ofNat'] at hb
              omega
            rw [hlength, Option.map_some, push_push, appendData_eq, if_neg hnot, bigEndian_length]
  rw [appendInt, hpush]
  rfl

theorem appendListBytes_eq {rlp : Bytes} (h : rlp.length < 2 ^ 64) (r : RLPStream) :
    r.appendListBytes rlp = noteAppended 1 (r.m_out ++ RLP.appendList rlp) r.m_listStack := by
  rw [appendListBytes, pushLength_eq rfl rfl (by decide) h, Option.bind_some, appendRaw, push,
    RLP.appendList, List.append_assoc]

/-! ## Well-nested calls -/

/-- The calls that write some items, at least one.  Items that are encoded already may be
written in pieces, as long as they count when the last piece is there. -/
inductive Writes : List Rlp → List Op → Prop where
  | bytes (s : Bytes) (compact : Bool) : Writes [.data (trim s compact)] [.appendBytes s compact]
  | int (i : Nat) : Writes [.data (bigEndian (bytesRequired i) i)] [.appendInt i]
  | emptyList : Writes [.list []] [.appendList 0]
  | list {ts : List Rlp} {ops : List Op} :
      Writes ts ops → Writes [.list ts] (.appendList ts.length :: ops)
  | listBytes (ts : List Rlp) : Writes [.list ts] [.appendListBytes (Rlp.encodeItems ts)]
  | rlp {ts : List Rlp} : ts ≠ [] → Writes ts [.appendRlp (Rlp.encodeItems ts) ts.length]
  | raw {ts : List Rlp} (pieces : List Bytes) (s : Bytes) : ts ≠ [] →
      pieces.flatten ++ s = Rlp.encodeItems ts →
        Writes ts (pieces.map (.appendRaw · 0) ++ [.appendRaw s ts.length])
  | append {ts us : List Rlp} {ops ops' : List Op} :
      Writes ts ops → Writes us ops' → Writes (ts ++ us) (ops ++ ops')

theorem Writes.ne_nil {ts : List Rlp} {ops : List Op} (h : Writes ts ops) : ts ≠ [] := by
  induction h with
  | bytes s compact => exact List.cons_ne_nil _ _
  | int i => exact List.cons_ne_nil _ _
  | emptyList => exact List.cons_ne_nil _ _
  | list _ _ => exact List.cons_ne_nil _ _
  | listBytes ts => exact List.cons_ne_nil _ _
  | rlp hne => exact hne
  | raw pieces s hne _ => exact hne
  | append _ _ ih _ => exact List.append_ne_nil_of_left_ne_nil ih _

/-- The innermost open list waits for `n` items at least. -/
def Room (n : Nat) : List (Nat × Nat) → Prop
  | [] => True
  | (count, _) :: _ => n ≤ count

/-- Items that do not complete the list can be noted together with those after them. -/
theorem noteAppended_append {m n : Nat} (hm : 0 < m) (hn : 0 < n) {stack : List (Nat × Nat)}
    (hroom : Room (m + n) stack) (a b : Bytes) :
    ∃ r, noteAppended m a stack = some r ∧ Room n r.m_listStack ∧ r.m_out = a ∧
      noteAppended n (a ++ b) r.m_listStack = noteAppended (m + n) (a ++ b) stack := by
  cases stack with
  | nil => exact ⟨⟨a, []⟩, rfl, trivial, rfl, rfl⟩
  | cons x stack =>
      obtain ⟨count, p⟩ := x
      have hcount : m + n ≤ count := hroom
      have hrest : count - m - n = count - (m + n) := by omega
      refine ⟨⟨a, (count - m, p) :: stack⟩, ?_, ?_, rfl, ?_⟩
      · rw [noteAppended, if_neg (by omega), if_neg (by omega), if_pos (by omega)]
      · show n ≤ count - m
        omega
      · show noteAppended n (a ++ b) ((count - m, p) :: stack) = _
        conv_lhs => rw [noteAppended, if_neg (by omega), if_neg (by omega), hrest]
        conv_rhs => rw [noteAppended, if_neg (by omega), if_neg (by omega)]

theorem encodeItems_append (ts us : List Rlp) :
    Rlp.encodeItems (ts ++ us) = Rlp.encodeItems ts ++ Rlp.encodeItems us := by
  rw [Rlp.encodeItems_eq_flatten, Rlp.encodeItems_eq_flatten, Rlp.encodeItems_eq_flatten,
    List.map_append, List.flatten_append]

theorem encodeItems_singleton (t : Rlp) : Rlp.encodeItems [t] = t.encode := by
  rw [Rlp.encodeItems, Rlp.encodeItems, List.append_nil]

theorem run_pieces (pieces : List Bytes) (r : RLPStream) :
    run (pieces.map (.appendRaw · 0)) r = some (r.push pieces.flatten) := by
  induction pieces generalizing r with
  | nil =>
      rw [List.flatten_nil, push, List.append_nil]
      rfl
  | cons s pieces ih =>
      have hfirst : (Op.appendRaw s 0).apply r = some (r.push s) := appendRaw_zero s r
      rw [List.map_cons, run, hfirst, Option.bind_some, ih, push_push, List.flatten_cons]

/-- **The output is the encoding of the items**, and they count for the list that is open. -/
theorem run_of_writes {ts : List Rlp} {ops : List Op} (h : Writes ts ops)
    (hlt : (Rlp.encodeItems ts).length < 2 ^ 64) (r : RLPStream)
    (hroom : Room ts.length r.m_listStack) :
    run ops r = noteAppended ts.length (r.m_out ++ Rlp.encodeItems ts) r.m_listStack := by
  induction h generalizing r with
  | bytes s compact =>
      rw [encodeItems_singleton, Rlp.encode] at hlt ⊢
      have hshort := (Rlp.length_le_appendData _).trans_lt hlt
      rw [run, Op.apply, appendBytes_eq hshort]
      exact Option.bind_fun_some _
  | int i =>
      rw [encodeItems_singleton, Rlp.encode] at hlt ⊢
      have hshort := (Rlp.length_le_appendData _).trans_lt hlt
      rw [bigEndian_length] at hshort
      rw [run, Op.apply, appendInt_eq hshort]
      exact Option.bind_fun_some _
  | emptyList =>
      rw [encodeItems_singleton, Rlp.encode] at hlt ⊢
      have happly : (Op.appendList 0).apply r = r.appendListBytes [] := rfl
      rw [run, happly, appendListBytes_eq (by decide)]
      exact Option.bind_fun_some _
  | listBytes ts =>
      rw [encodeItems_singleton, Rlp.encode] at hlt ⊢
      have hshort := (Rlp.length_le_appendList _).trans_lt hlt
      rw [run, Op.apply, appendListBytes_eq hshort]
      exact Option.bind_fun_some _
  | rlp hne => exact Option.bind_fun_some _
  | @raw ts pieces s hne hpieces =>
      rw [run_append, run_pieces, Option.bind_some, run, Op.apply, appendRaw, push, List.append_assoc,
        hpieces]
      exact Option.bind_fun_some _
  | @list ts ops hwrites ih =>
      rw [encodeItems_singleton, Rlp.encode] at hlt ⊢
      have hshort := (Rlp.length_le_appendList _).trans_lt hlt
      have hlength : ts.length ≠ 0 := fun hzero => hwrites.ne_nil (List.length_eq_zero_iff.mp hzero)
      have hopen : (Op.appendList ts.length).apply r =
          some { r with m_listStack := (ts.length, r.m_out.length) :: r.m_listStack } :=
        if_pos hlength
      have hsize : (r.m_out ++ Rlp.encodeItems ts).length - r.m_out.length =
          (Rlp.encodeItems ts).length := by
        rw [List.length_append]
        omega
      rw [run, hopen, Option.bind_some, ih hshort _ (Nat.le_refl _)]
      -- the last item closes the list, which is one item of the list around it
      rw [noteAppended, if_neg hlength, if_neg (Nat.lt_irrefl _), if_neg (by omega), hsize,
        listHeader_eq hshort, Option.bind_some, List.take_left, List.drop_left, List.append_assoc]
      rfl
  | @append ts us ops ops' hts hus ih ih' =>
      rw [encodeItems_append] at hlt ⊢
      rw [List.length_append] at hlt hroom ⊢
      have hpos : 0 < ts.length := List.length_pos_of_ne_nil hts.ne_nil
      have hpos' : 0 < us.length := List.length_pos_of_ne_nil hus.ne_nil
      obtain ⟨r', hfirst, hroom', hout, hboth⟩ := noteAppended_append hpos hpos' hroom
        (r.m_out ++ Rlp.encodeItems ts) (Rlp.encodeItems us)
      have hroomTs : Room ts.length r.m_listStack := by
        cases hstack : r.m_listStack with
        | nil => trivial
        | cons x stack =>
            rw [hstack] at hroom
            exact (Nat.le_add_right _ _).trans hroom
      rw [run_append, ih (by omega) r hroomTs, hfirst, Option.bind_some, ih' (by omega) r' hroom',
        hout, hboth, List.append_assoc]

/-- The output of well-nested calls for one item is its encoding. -/
theorem out_of_writes {t : Rlp} {ops : List Op} (h : Writes [t] ops)
    (hlt : t.encode.length < 2 ^ 64) : (run ops {}).bind out = some t.encode := by
  have hsize : (Rlp.encodeItems [t]).length < 2 ^ 64 := by rwa [encodeItems_singleton]
  rw [run_of_writes h hsize {} trivial, encodeItems_singleton]
  rfl

end RLPStream

end CppSwc
