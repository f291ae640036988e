import CppSwc.Core.RlpAccess
import CppSwc.Core.RlpStream

/-!
# Trees and their bytes

Reading a tree back from what `RLPStream` wrote gives the tree, and there is only one byte
string that is read as a given tree.
-/

namespace CppSwc

open Lib

/-! ## Trees -/

mutual

/-- A tree of byte strings and lists. -/
def Rlp.IsTree : Rlp → Prop
  | .null => False
  | .data _ => True
  | .list items => Rlp.AreTrees items

/-- Items that are trees. -/
def Rlp.AreTrees : List Rlp → Prop
  | [] => True
  | item :: items => item.IsTree ∧ Rlp.AreTrees items

end

mutual

/-- The calls that write a tree. -/
def Rlp.script : Rlp → List RLPStream.Op
  | .null => []
  | .data s => [.appendBytes s false]
  | .list items => .appendList items.length :: Rlp.scripts items

/-- The calls that write items. -/
def Rlp.scripts : List Rlp → List RLPStream.Op
  | [] => []
  | item :: items => item.script ++ Rlp.scripts items

end

mutual

/-- The calls are those for the tree. -/
theorem Rlp.writes_script : ∀ {t : Rlp}, t.IsTree → RLPStream.Writes [t] t.script
  | .data s, _ => .bytes s false
  | .list [], _ => .emptyList
  | .list (_ :: _), h => .list (writes_scripts (List.cons_ne_nil _ _) h)

theorem Rlp.writes_scripts : ∀ {ts : List Rlp}, ts ≠ [] → Rlp.AreTrees ts →
    RLPStream.Writes ts (Rlp.scripts ts)
  | [t], _, h => by
      rw [Rlp.scripts, Rlp.scripts, List.append_nil]
      exact writes_script h.1
  | t :: u :: ts, _, h => .append (writes_script h.1) (writes_scripts (List.cons_ne_nil _ _) h.2)

end

theorem Rlp.areTrees_iff {ts : List Rlp} : Rlp.AreTrees ts ↔ ∀ t ∈ ts, t.IsTree := by
  induction ts with
  | nil => simp [AreTrees]
  | cons t ts ih => simp [AreTrees, ih]

theorem Rlp.IsTree.ne_null {t : Rlp} (h : t.IsTree) : t ≠ .null := by
  rintro rfl
  exact h

/-! ## Reading a tree -/

mutual

/-- What reading the bytes of a tree gives, down to every position of it.  The flags are
`VeryStrict`, and lists are read both by a loop and by indices in any order. -/
def Rlp.Reads : Rlp → Bytes → Prop
  | .null, _ => False
  | .data s, d =>
      RLP.ofBytes d = some d ∧ RLP.isData d = true ∧ RLP.isList d = false ∧
        RLP.toBytes d = some s ∧ (RLP.items d).map List.length = some 0
  | .list ts, d =>
      RLP.ofBytes d = some d ∧ RLP.isData d = false ∧ RLP.isList d = true ∧
        (RLP.items d).map List.length = some ts.length ∧
          ∃ ds, Rlp.ReadsAll ts ds ∧ RLP.iterate d = some ds ∧
            ∀ is : List Nat, (∀ i ∈ is, i < 2 ^ 64) →
              RLP.Cursor.indices d is {} = some (is.map fun i => ds.getD i [])

/-- Items are read one by one. -/
def Rlp.ReadsAll : List Rlp → List Bytes → Prop
  | [], ds => ds = []
  | t :: ts, ds => ∃ d rest, ds = d :: rest ∧ t.Reads d ∧ Rlp.ReadsAll ts rest

end

namespace RLP

mutual

theorem reads_encode : ∀ {t : Rlp}, t.IsTree → t.encode.length < maxLength → t.Reads t.encode
  | .data s, _, hlt => by
      rw [Rlp.encode] at hlt ⊢
      have hs := (Rlp.length_le_appendData s).trans_lt hlt
      have hread := read_appendData hs []
      rw [List.append_nil] at hread
      have hlist := isList_eq_false_of_isData hread.2.2.1
      refine ⟨ofBytes_of_whole (whole_appendData hs), hread.2.2.1, hlist, toBytes_appendData hs, ?_⟩
      rw [items, hlist]
      rfl
  | .list ts, h, hlt => by
      rw [Rlp.encode] at hlt ⊢
      have hs := (Rlp.length_le_appendList (Rlp.encodeItems ts)).trans_lt hlt
      have hnull : Rlp.null ∉ ts := fun hmem => (Rlp.areTrees_iff.mp h _ hmem).ne_null rfl
      have hsplit := WireHeader.split_encodeItems hnull hs
      have hwhole := isWhole_appendList hs hsplit
      refine ⟨ofBytes_of_whole (whole_appendList hs), isData_appendList hs, isList_appendList hs, ?_,
        ts.map Rlp.encode, readsAll_encode h hs, iterate_eq hwhole,
        fun is his => indices_eq hwhole his .fresh⟩
      rw [items_appendList hs hsplit, Option.map_some, List.length_map]

theorem readsAll_encode : ∀ {ts : List Rlp}, Rlp.AreTrees ts → (Rlp.encodeItems ts).length < maxLength →
    Rlp.ReadsAll ts (ts.map Rlp.encode)
  | [], _, _ => rfl
  | t :: ts, h, hlt => by
      rw [Rlp.encodeItems, List.length_append] at hlt
      exact ⟨t.encode, ts.map Rlp.encode, rfl, reads_encode h.1 (by omega),
        readsAll_encode h.2 (by omega)⟩

end

mutual

/-- A tree is determined by its bytes. -/
theorem encode_injective : ∀ {t u : Rlp}, t.IsTree → u.IsTree → t.encode.length < maxLength →
    t.encode = u.encode → t = u
  | .data _, .data _, _, _, _, h => congrArg Rlp.data (appendData_injective h)
  | .data s, .list us, _, _, hlt, h => by
      have hs := (Rlp.length_le_appendData s).trans_lt hlt
      have hus := (Rlp.length_le_appendList (Rlp.encodeItems us)).trans_lt (h ▸ hlt)
      have hdata := isData_appendData hs
      rw [show appendData s = appendList (Rlp.encodeItems us) from h, isData_appendList hus] at hdata
      cases hdata
  | .list ts, .data s, _, _, hlt, h => by
      have hts := (Rlp.length_le_appendList (Rlp.encodeItems ts)).trans_lt hlt
      have hs := (Rlp.length_le_appendData s).trans_lt (h ▸ hlt)
      have hdata := isData_appendData hs
      rw [show appendData s = appendList (Rlp.encodeItems ts) from h.symm, isData_appendList hts]
        at hdata
      cases hdata
  | .list ts, .list us, ht, hu, hlt, h => by
      have hts := (Rlp.length_le_appendList (Rlp.encodeItems ts)).trans_lt hlt
      have hbytes : Rlp.encodeItems ts = Rlp.encodeItems us := appendList_injective h
      have hnull : ∀ {vs : List Rlp}, Rlp.AreTrees vs → Rlp.null ∉ vs := fun hvs hmem =>
        (Rlp.areTrees_iff.mp hvs _ hmem).ne_null rfl
      have hsplit := WireHeader.split_encodeItems (hnull ht) hts
      have hsplit' := WireHeader.split_encodeItems (hnull hu) (hbytes ▸ hts)
      rw [← hbytes, hsplit] at hsplit'
      exact congrArg Rlp.list (encodeItems_injective ht hu hts (Option.some.inj hsplit'))

theorem encodeItems_injective : ∀ {ts us : List Rlp}, Rlp.AreTrees ts → Rlp.AreTrees us →
    (Rlp.encodeItems ts).length < maxLength → ts.map Rlp.encode = us.map Rlp.encode → ts = us
  | [], [], _, _, _, _ => rfl
  | t :: ts, u :: us, ht, hu, hlt, h => by
      rw [Rlp.encodeItems, List.length_append] at hlt
      obtain ⟨hhead, htail⟩ := List.cons.inj h
      rw [encode_injective ht.1 hu.1 (by omega) hhead,
        encodeItems_injective ht.2 hu.2 (by omega) htail]

end

/-- **Reading inverts writing.**  However the calls for a tree are mixed, the output is its
encoding, and reading that gives the tree at every position. -/
theorem stream_round_trip {t : Rlp} {ops : List RLPStream.Op} (htree : t.IsTree)
    (hwrites : RLPStream.Writes [t] ops) (hlt : t.encode.length < maxLength) :
    (RLPStream.run ops {}).bind RLPStream.out = some t.encode ∧ t.Reads t.encode := by
  have hsize : t.encode.length < 2 ^ 64 := by
    rw [maxLength] at hlt
    omega
  exact ⟨RLPStream.out_of_writes hwrites hsize, reads_encode htree hlt⟩

/-- A list is closed together with the one in it, and the last item comes in pieces. -/
theorem stream_round_trip_mixed :
    (RLPStream.run [.appendList 3, .appendInt 5, .appendList 1, .appendBytes [0, 7] true,
        .appendRaw [0x81] 0, .appendRaw [0x80] 1] {}).bind RLPStream.out =
      some [0xc5, 0x05, 0xc1, 0x07, 0x81, 0x80] ∧
      (Rlp.list [.data [5], .list [.data [7]], .data [0x80]]).Reads
        [0xc5, 0x05, 0xc1, 0x07, 0x81, 0x80] := by
  have hwrites : RLPStream.Writes [.list [.data [5], .list [.data [7]], .data [0x80]]]
      [.appendList 3, .appendInt 5, .appendList 1, .appendBytes [0, 7] true,
        .appendRaw [0x81] 0, .appendRaw [0x80] 1] :=
    .list (.append (.int 5) (.append (.list (.bytes [0, 7] true))
      (.raw [[0x81]] [0x80] (List.cons_ne_nil _ _) (by decide +kernel))))
  have htree : (Rlp.list [.data [5], .list [.data [7]], .data [0x80]]).IsTree :=
    ⟨trivial, ⟨trivial, trivial⟩, trivial, trivial⟩
  exact stream_round_trip htree hwrites (by decide +kernel)

/-! ## Accepted bytes -/

/-- The tree of some bytes, if they and the items of every list in them are read with the
flags `VeryStrict`.  The number bounds the depth. -/
def decodeUpTo : Nat → Bytes → Option Rlp
  | n, d =>
      (ofBytes d).bind fun d =>
        if d = [] then some .null
        else if isData d then (payload d).map .data
        else match n with
          | 0 => none
          | n + 1 => (items d).bind fun ds => (ds.mapM (decodeUpTo n)).map .list

/-- The tree of some bytes.  They are deeper than they are long at most. -/
def decode (d : Bytes) : Option Rlp := decodeUpTo d.length d

/-- Bytes that are accepted are one item, or there are none. -/
theorem whole_of_ofBytes {d d' : Bytes} (h : ofBytes d = some d') (hne : d ≠ []) :
    d' = d ∧ framing.Whole d := by
  obtain ⟨k, hk, hsize⟩ := Option.bind_eq_some_iff.mp h
  split at hsize
  · next hlength =>
      cases hsize
      have hread : framing.size d = some d.length := by
        show (actualSize d).bind _ = _
        rw [hk, Option.bind_some, hlength, if_pos (Nat.le_refl _)]
      have hwhole := Framing.whole_take hne hread
      rw [List.take_length] at hwhole
      exact ⟨rfl, hwhole⟩
  · cases hsize

/-- A list that is accepted, and its items. -/
theorem eq_appendList_of_items {d d' : Bytes} {ds : List Bytes} (h : ofBytes d = some d')
    (hne : d ≠ []) (hdata : isData d = false) (hitems : items d = some ds) :
    d = appendList ds.flatten ∧ ds.flatten.length < maxLength ∧ ∀ x ∈ ds, framing.Whole x := by
  obtain ⟨s, hs, rfl | rfl⟩ := eq_append_of_whole (whole_of_ofBytes h hne).2
  · have hread := (read_appendData hs []).2.2.1
    rw [List.append_nil] at hread
    rw [hdata] at hread
    cases hread
  · rw [items, isList_appendList hs, if_pos rfl, payload_appendList hs, Option.bind_some] at hitems
    rw [Framing.flatten_of_split hitems]
    exact ⟨rfl, hs, Framing.whole_of_split hitems⟩

theorem length_le_flatten_of_mem {x : Bytes} {ds : List Bytes} (hx : x ∈ ds) :
    x.length ≤ ds.flatten.length := by
  exact (List.sublist_flatten_of_mem hx).length_le

/-- An item of a list is shorter than the list. -/
theorem length_lt_of_items {d d' x : Bytes} {ds : List Bytes} (h : ofBytes d = some d')
    (hne : d ≠ []) (hdata : isData d = false) (hitems : items d = some ds) (hx : x ∈ ds) :
    x.length < d.length := by
  obtain ⟨heq, -, -⟩ := eq_appendList_of_items h hne hdata hitems
  have hle := length_le_flatten_of_mem hx
  have hprefix : 0 < (lengthPrefix 0xc0 ds.flatten.length).length := by
    unfold lengthPrefix
    split
    · exact Nat.one_pos
    · exact Nat.succ_pos _
  rw [heq, appendList, List.length_append]
  omega

theorem mapM_congr {α β : Type} {f g : α → Option β} {xs : List α} (h : ∀ x ∈ xs, f x = g x) :
    xs.mapM f = xs.mapM g := by
  induction xs with
  | nil => rfl
  | cons x xs ih =>
      rw [List.mapM_cons, List.mapM_cons, h x (.head _), ih fun y hy => h y (.tail _ hy)]

/-- One level of a tree, with a reader for the items of a list. -/
def decodeWith (read : Bytes → Option Rlp) (d : Bytes) : Option Rlp :=
  (ofBytes d).bind fun d =>
    if d = [] then some .null
    else if isData d then (payload d).map .data
    else (items d).bind fun ds => (ds.mapM read).map .list

theorem decodeUpTo_succ (n : Nat) (d : Bytes) :
    decodeUpTo (n + 1) d = decodeWith (decodeUpTo n) d := by
  rw [decodeUpTo, decodeWith]

theorem decodeWith_congr {f g : Bytes → Option Rlp} {d : Bytes}
    (h : ∀ x, x.length < d.length → f x = g x) : decodeWith f d = decodeWith g d := by
  unfold decodeWith
  cases hd : ofBytes d with
  | none => rfl
  | some d' =>
      rw [Option.bind_some, Option.bind_some]
      split
      · rfl
      · next hne' =>
          have hne : d ≠ [] := by
            rintro rfl
            cases hd
            exact hne' rfl
          obtain ⟨rfl, -⟩ := whole_of_ofBytes hd hne
          split
          · rfl
          · next hdata =>
              rw [Bool.not_eq_true] at hdata
              cases hitems : items d' with
              | none => rfl
              | some ds =>
                  rw [Option.bind_some, Option.bind_some, mapM_congr fun x hx =>
                    h x (length_lt_of_items hd hne hdata hitems hx)]

/-- The bound does not matter where it is large enough. -/
theorem decodeUpTo_eq {m n : Nat} {d : Bytes} (hm : d.length ≤ m) (hn : d.length ≤ n) :
    decodeUpTo m d = decodeUpTo n d := by
  induction m generalizing n d with
  | zero =>
      obtain rfl := List.length_eq_zero_iff.mp (Nat.le_zero.mp hm)
      cases n <;> rfl
  | succ m ih =>
      cases n with
      | zero =>
          obtain rfl := List.length_eq_zero_iff.mp (Nat.le_zero.mp hn)
          rfl
      | succ n =>
          rw [decodeUpTo_succ, decodeUpTo_succ]
          exact decodeWith_congr fun x hx => ih (by omega) (by omega)

/-- **The tree of some bytes**: an item is accepted, and so is every item in it. -/
theorem decode_eq (d : Bytes) : decode d = decodeWith decode d := by
  have hfuel : decode d = decodeUpTo (d.length + 1) d :=
    decodeUpTo_eq (Nat.le_refl _) (Nat.le_succ _)
  rw [hfuel, decodeUpTo_succ]
  exact decodeWith_congr fun x hx => decodeUpTo_eq hx.le (Nat.le_refl _)

/-- A level of a tree is read from its encoding, if the items of a list are. -/
theorem encode_of_decodeWith {read : Bytes → Option Rlp} {d : Bytes} {t : Rlp}
    (hread : ∀ x u, read x = some u → x ≠ [] → x.length < d.length → u.encode = x ∧ u.IsTree)
    (h : decodeWith read d = some t) : t.encode = d ∧ (d ≠ [] → t.IsTree) := by
  obtain ⟨d', hd, hlevel⟩ := Option.bind_eq_some_iff.mp h
  by_cases hne : d = []
  · subst hne
    cases hd
    cases hlevel
    exact ⟨rfl, fun hne => absurd rfl hne⟩
  · obtain ⟨rfl, hwhole⟩ := whole_of_ofBytes hd hne
    rw [if_neg hne] at hlevel
    split at hlevel
    · next hdata =>
        obtain ⟨s, hs, heq | heq⟩ := eq_append_of_whole hwhole
        · have hpayload := (read_appendData hs []).2.2.2
          rw [List.append_nil, ← heq] at hpayload
          rw [hpayload] at hlevel
          cases hlevel
          exact ⟨heq.symm, fun _ => trivial⟩
        · rw [heq, isData_appendList hs] at hdata
          cases hdata
    · next hdata =>
        rw [Bool.not_eq_true] at hdata
        obtain ⟨ds, hitems, hlevel⟩ := Option.bind_eq_some_iff.mp hlevel
        obtain ⟨ts, hts, hlevel⟩ := Option.map_eq_some_iff.mp hlevel
        cases hlevel
        obtain ⟨heq, -, hitem⟩ := eq_appendList_of_items hd hne hdata hitems
        have hall : ∀ {ds : List Bytes} {ts : List Rlp}, ds.mapM read = some ts →
            (∀ x ∈ ds, ∀ u, read x = some u → u.encode = x ∧ u.IsTree) →
              Rlp.encodeItems ts = ds.flatten ∧ Rlp.AreTrees ts := by
          intro ds
          induction ds with
          | nil =>
              intro ts hts _
              cases hts
              exact ⟨rfl, trivial⟩
          | cons x ds ih =>
              intro ts hts hitems
              rw [List.mapM_cons] at hts
              obtain ⟨u, hu, hts⟩ := Option.bind_eq_some_iff.mp hts
              obtain ⟨us, hus, hts⟩ := Option.bind_eq_some_iff.mp hts
              cases hts
              obtain ⟨hencode, htree⟩ := hitems x (.head _) u hu
              obtain ⟨hencode', htrees⟩ := ih hus fun y hy => hitems y (.tail _ hy)
              exact ⟨by rw [Rlp.encodeItems, hencode, hencode', List.flatten_cons], htree, htrees⟩
        obtain ⟨hencode, htrees⟩ := hall hts fun x hx u hu =>
          hread x u hu (hitem x hx).ne_nil (length_lt_of_items hd hne hdata hitems hx)
        exact ⟨by rw [Rlp.encode, hencode, ← heq], fun _ => htrees⟩

/-- What is accepted is the encoding of its tree. -/
theorem encode_of_decode {d : Bytes} {t : Rlp} (h : decode d = some t) :
    t.encode = d ∧ (d ≠ [] → t.IsTree) := by
  induction hn : d.length using Nat.strong_induction_on generalizing d t with
  | h n ih =>
      rw [decode_eq] at h
      refine encode_of_decodeWith (fun x u hu hne hlt => ?_) h
      obtain ⟨hencode, htree⟩ := ih x.length (by omega) hu rfl
      exact ⟨hencode, htree hne⟩

theorem lengthPrefix_length_le {n : Nat} (start : Nat) (hstart : start ≤ 0xc0) (hn : n < maxLength) :
    (lengthPrefix start n).length ≤ 9 := by
  obtain ⟨b, t, hcons, hlo, hhi, ht, -⟩ := lengthPrefix_cons hstart hn
  rw [hcons, List.length_cons, ht]
  omega

/-- The length of a string has room in a `size_t`. -/
theorem length_appendData_lt {s : Bytes} (hs : s.length < maxLength) :
    (appendData s).length < 2 ^ 64 := by
  have hlength := lengthPrefix_length_le 0x80 (by decide) hs
  rw [maxLength] at hs
  rcases appendData_cases s with ⟨b, -, -, happend⟩ | ⟨happend, -⟩
  · rw [happend]
    exact Nat.one_lt_two_pow (by decide)
  · rw [happend, List.length_append]
    omega

/-- So has that of a list. -/
theorem length_appendList_lt {s : Bytes} (hs : s.length < maxLength) :
    (appendList s).length < 2 ^ 64 := by
  have hlength := lengthPrefix_length_le 0xc0 (by decide) hs
  rw [maxLength] at hs
  rw [appendList, List.length_append]
  omega

theorem length_lt_of_decode {d : Bytes} {t : Rlp} (h : decode d = some t) (hne : d ≠ []) :
    d.length < 2 ^ 64 := by
  rw [decode_eq] at h
  obtain ⟨d', hd, -⟩ := Option.bind_eq_some_iff.mp h
  obtain ⟨s, hs, heq | heq⟩ := eq_append_of_whole (whole_of_ofBytes hd hne).2
  · rw [heq]
    exact length_appendData_lt hs
  · rw [heq]
    exact length_appendList_lt hs

/-- **There is one encoding of a value.**  Writing the tree of bytes that are accepted gives
the bytes, and no others are read as this tree. -/
theorem one_encoding {d : Bytes} {t : Rlp} (h : decode d = some t) :
    (RLPStream.run t.script {}).bind RLPStream.out = some d ∧
      ∀ d', decode d' = some t → d' = d := by
  obtain ⟨hencode, htree⟩ := encode_of_decode h
  refine ⟨?_, fun d' h' => ?_⟩
  · by_cases hne : d = []
    · subst hne
      cases h
      rfl
    · have hlt : t.encode.length < 2 ^ 64 := by
        rw [hencode]
        exact length_lt_of_decode h hne
      rw [RLPStream.out_of_writes (Rlp.writes_script (htree hne)) hlt, hencode]
  · rw [← (encode_of_decode h').1, hencode]

/-- A list with a list in it. -/
theorem one_encoding_nested :
    (RLPStream.run (Rlp.list [.data [5], .list [.data [7]], .data [0x80]]).script {}).bind
        RLPStream.out = some [0xc5, 0x05, 0xc1, 0x07, 0x81, 0x80] ∧
      ∀ d', decode d' = some (Rlp.list [.data [5], .list [.data [7]], .data [0x80]]) →
        d' = [0xc5, 0x05, 0xc1, 0x07, 0x81, 0x80] :=
  one_encoding (by decide +kernel)

end RLP

end CppSwc
