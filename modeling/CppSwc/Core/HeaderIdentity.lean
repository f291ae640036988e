import CppSwc.Core.RlpTree

/-!
# The bytes of a header and its fields

`BlockHeader(data, HeaderData)` reads the fields of a header, and `streamRLP` writes them.
What is written is what was read, if the bytes are a list whose thirteenth item is a string
(`rlpWithSeal_eq_iff`).  Two things are read that are never written:

* `operator[]` does not ask for a list, so that a string is read as well.  It has no seal
  fields, because `itemCount` does ask;
* `toBytes` makes the empty string of a list and of a missing item.

So a header has a twin with the same fields if its extra data are empty or it has no seal.
-/

namespace CppSwc

open Lib

namespace WireHeader

variable {C : Crypto} {data data' : Bytes} {items : List Bytes} {h h' : WireHeader}

/-- The bytes are a list, and the item of the extra data is a string. -/
def isCanonical (data : Bytes) : Bool := RLP.isList data && (RLP.item data 12).any RLP.isData

/-! ## Reading -/

/-- A list that is read as a header consists of the items that were read. -/
theorem received_of_ofHeader (hread : ofHeader C data = some h) (hlist : RLP.isList data = true) :
    ∃ items, Received C data items h ∧ items.flatten.length < RLP.maxLength := by
  have hne : data ≠ [] := by
    rintro rfl
    cases hlist
  obtain ⟨root, hroot, hpopulate⟩ := Option.bind_eq_some_iff.mp hread
  obtain ⟨rfl, hwhole⟩ := RLP.whole_of_ofBytes hroot hne
  obtain ⟨s, hs, rfl⟩ := RLP.eq_appendList_of_isList hwhole hlist
  obtain ⟨items, hitems, -⟩ := items_of_populate hpopulate
  have hsplit : RLP.framing.split s = some items := by
    rw [RLP.items, if_pos hlist, RLP.payload_appendList hs, Option.bind_some] at hitems
    exact hitems
  obtain rfl := Framing.flatten_of_split hsplit
  exact ⟨items, received_of_populate hs (Framing.whole_of_split hsplit) hpopulate, hs⟩

theorem Received.isCanonical_eq (hr : Received C data items h)
    (hlt : items.flatten.length < RLP.maxLength) :
    isCanonical data = RLP.isData (items.getD 12 []) := by
  have hsplit : RLP.framing.split items.flatten = some items := Framing.split_flatten hr.whole
  rw [isCanonical, hr.header_eq, RLP.isList_appendList hlt, RLP.item_appendList hlt hsplit]
  rfl

/-- The items before the extra data, the extra data, and the seal. -/
theorem Received.items_eq (hr : Received C data items h) (hextra : items.getD 12 [] ≠ []) :
    items = h.strictItems ++ items.getD 12 [] :: h.sealFields := by
  have hlt : 12 < items.length := by
    by_contra hshort
    rw [List.getD_eq_getElem?_getD, List.getElem?_eq_none (by omega)] at hextra
    exact hextra rfl
  conv_lhs => rw [← List.take_append_drop 12 items, List.drop_eq_getElem_cons hlt]
  rw [hr.strict, hr.sealFields, List.getD_eq_getElem?_getD, List.getElem?_eq_getElem hlt]
  rfl

/-- Extra data that are a string are read as this string. -/
theorem Received.extraData_eq (hr : Received C data items h)
    (hdata : RLP.isData (items.getD 12 []) = true) :
    items.getD 12 [] = RLP.appendData h.extraData := by
  have hread := hr.extraData
  rcases nil_or_whole hr.whole 12 with hnil | hwhole
  · rw [hnil] at hdata
    cases hdata
  · obtain ⟨s, hs, heq | heq⟩ := RLP.eq_append_of_whole hwhole
    · rw [heq, RLP.toBytes_appendData hs] at hread
      rw [heq, Option.some.inj hread]
    · rw [heq, RLP.isData_appendList hs] at hdata
      cases hdata

/-- **What is written is what was read, if the extra data were a string.** -/
theorem Received.rlpWithSeal_eq_iff (hr : Received C data items h) :
    h.rlpWithSeal = data ↔ RLP.isData (items.getD 12 []) = true := by
  constructor
  · intro heq
    rw [rlpWithSeal, hr.header_eq] at heq
    have hwhole : ∀ x ∈ h.streamRLPFields ++ h.sealFields, RLP.framing.Whole x := by
      intro x hx
      rcases List.mem_append.mp hx with hx | hx
      · exact hr.whole_streamRLPFields x hx
      · rw [hr.sealFields] at hx
        exact hr.whole x (List.mem_of_mem_drop hx)
    have hitems := Framing.flatten_injective hwhole hr.whole (RLP.appendList_injective heq)
    rw [← hitems]
    have hget : (h.streamRLPFields ++ h.sealFields).getD 12 [] = RLP.appendData h.extraData := rfl
    rw [hget]
    exact RLP.isData_appendData hr.extraData_lt
  · intro hdata
    have hextra := hr.extraData_eq hdata
    have hne : items.getD 12 [] ≠ [] := by
      rw [hextra]
      exact RLP.appendData_ne_nil _
    rw [rlpWithSeal, hr.header_eq, hr.items_eq hne, hextra, BasicFields.streamRLPFields,
      List.append_assoc]
    rfl

/-- Bytes that are no list have no seal. -/
theorem sealFields_of_ofHeader (hread : ofHeader C data = some h)
    (hlist : RLP.isList data = false) : h.sealFields = [] := by
  obtain ⟨root, hroot, hpopulate⟩ := Option.bind_eq_some_iff.mp hread
  have hroot : root = data := by
    obtain ⟨k, -, hk⟩ := Option.bind_eq_some_iff.mp hroot
    split at hk
    · exact (Option.some.inj hk).symm
    · cases hk
  subst hroot
  obtain ⟨items, hitems, hseal⟩ := items_of_populate hpopulate
  rw [RLP.items, hlist, if_neg (by decide)] at hitems
  rw [hseal, ← Option.some.inj hitems, List.drop_nil]

/-! ## Twins -/

/-- What is read depends on twelve items, the string of the thirteenth, and the rest. -/
theorem populate_congr (hitem : ∀ i < 12, RLP.item data' i = RLP.item data i)
    (hextra : (RLP.item data' 12).bind RLP.toBytes = (RLP.item data 12).bind RLP.toBytes)
    (hseal : (RLP.items data').map (List.drop 13) = (RLP.items data).map (List.drop 13)) :
    populate C data' = (populate C data).map fun h => { h with hash := C.sha3 data' } := by
  simp only [populate, hitem, hextra, Nat.reduceLT]
  refine bind_eq_map_bind fun _ => ?_
  refine bind_eq_map_bind fun _ => ?_
  refine bind_eq_map_bind fun _ => ?_
  refine bind_eq_map_bind fun _ => ?_
  refine bind_eq_map_bind fun _ => ?_
  refine bind_eq_map_bind fun _ => ?_
  refine bind_eq_map_bind fun _ => ?_
  refine bind_eq_map_bind fun _ => ?_
  refine bind_eq_map_bind fun _ => ?_
  refine bind_eq_map_bind fun _ => ?_
  refine bind_eq_map_bind fun _ => ?_
  refine bind_eq_map_bind fun _ => ?_
  refine bind_eq_map_bind fun _ => ?_
  cases hitems : RLP.items data with
  | none =>
      rw [hitems] at hseal
      rw [Option.map_eq_none_iff.mp hseal]
      rfl
  | some items =>
      rw [hitems] at hseal
      obtain ⟨items', hitems', hdrop⟩ := Option.map_eq_some_iff.mp hseal
      simp only [hitems', Option.bind_eq_bind, Option.bind_some, hdrop]
      rfl

/-- Bytes that are one item are read as the item. -/
theorem ofHeader_of_whole (hwhole : RLP.framing.Whole data) :
    ofHeader C data = populate C data := by
  rw [ofHeader, RLP.ofBytes_of_whole hwhole, Option.bind_some]

/-- A list that is read as a header is one item. -/
theorem Received.populate_eq (hr : Received C data items h) (hread : ofHeader C data = some h)
    (hlt : items.flatten.length < RLP.maxLength) : populate C data = some h := by
  have hwhole : RLP.framing.Whole data := by
    rw [hr.header_eq]
    exact RLP.whole_appendList hlt
  rw [← ofHeader_of_whole hwhole, hread]

/-- The same items but for the extra data, which are another way to give the same string. -/
theorem Received.ofHeader_extraData (hr : Received C data items h)
    (hread : ofHeader C data = some h) (hlt : items.flatten.length < RLP.maxLength) {x : Bytes}
    (hx : RLP.framing.Whole x) (hlength : x.length ≤ (items.getD 12 []).length)
    (hbytes : RLP.toBytes x = some h.extraData) :
    ∃ h', ofHeader C (RLP.appendList (h.strictItems ++ x :: h.sealFields).flatten) = some h' ∧
      h'.toBasicFields = h.toBasicFields ∧ h'.sealFields = h.sealFields := by
  have hne : items.getD 12 [] ≠ [] := by
    intro hnil
    rw [hnil, List.length_nil] at hlength
    exact hx.ne_nil (List.length_eq_zero_iff.mp (by omega))
  have hitems := hr.items_eq hne
  have hwhole : ∀ y ∈ h.strictItems ++ x :: h.sealFields, RLP.framing.Whole y := by
    intro y hy
    rcases List.mem_append.mp hy with hy | hy
    · exact hr.whole y (by rw [hitems]; exact List.mem_append_left _ hy)
    · rcases List.mem_cons.mp hy with rfl | hy
      · exact hx
      · exact hr.whole y (by rw [hitems]; exact List.mem_append_right _ (.tail _ hy))
  have hlt' : (h.strictItems ++ x :: h.sealFields).flatten.length < RLP.maxLength := by
    rw [hitems] at hlt
    simp only [List.flatten_append, List.flatten_cons, List.length_append] at hlt ⊢
    omega
  have hsplit : RLP.framing.split items.flatten = some items := Framing.split_flatten hr.whole
  have hsplit' := Framing.split_flatten hwhole
  have hitem : ∀ i, RLP.item data i = some (items.getD i []) := fun i => by
    rw [hr.header_eq, RLP.item_appendList hlt hsplit]
  have hitem' := RLP.item_appendList hlt' hsplit'
  have hlist : RLP.items data = some items := by
    rw [hr.header_eq, RLP.items_appendList hlt hsplit]
  have hstrict : ∀ i < 12, RLP.item (RLP.appendList (h.strictItems ++ x :: h.sealFields).flatten) i =
      RLP.item data i := by
    intro i hi
    have htake : items.getD i [] = (items.take 12).getD i [] := by
      rw [List.getD_eq_getElem?_getD, List.getD_eq_getElem?_getD, List.getElem?_take_of_lt hi]
    rw [hitem', hitem, htake, hr.strict, List.getD_append _ _ _ _ hi]
  have hextra : (RLP.item (RLP.appendList (h.strictItems ++ x :: h.sealFields).flatten) 12).bind
      RLP.toBytes = (RLP.item data 12).bind RLP.toBytes := by
    rw [hitem', hitem, Option.bind_some, Option.bind_some, hr.extraData]
    exact hbytes
  have hseal : (RLP.items (RLP.appendList (h.strictItems ++ x :: h.sealFields).flatten)).map
      (List.drop 13) = (RLP.items data).map (List.drop 13) := by
    rw [RLP.items_appendList hlt' hsplit', hlist, Option.map_some, Option.map_some, ← hr.sealFields]
    simp only [BasicFields.strictItems, List.cons_append, List.nil_append, List.drop_succ_cons,
      List.drop_zero]
  rw [ofHeader_of_whole (RLP.whole_appendList hlt'), populate_congr hstrict hextra hseal,
    hr.populate_eq hread hlt]
  exact ⟨_, rfl, rfl, rfl⟩

/-- The items in a string. -/
theorem Received.ofHeader_appendData (hr : Received C data items h)
    (hread : ofHeader C data = some h) (hlt : items.flatten.length < RLP.maxLength)
    (hseal : h.sealFields = []) :
    ofHeader C (RLP.appendData items.flatten) =
      some { h with hash := C.sha3 (RLP.appendData items.flatten) } := by
  have hsplit : RLP.framing.split items.flatten = some items := Framing.split_flatten hr.whole
  have hpayload : RLP.payload (RLP.appendData items.flatten) = RLP.payload data := by
    rw [hr.header_eq, RLP.payload_appendList hlt]
    simpa using (RLP.read_appendData hlt []).2.2.2
  have hitem : ∀ i, RLP.item (RLP.appendData items.flatten) i = RLP.item data i := fun i => by
    rw [RLP.item, RLP.item, hpayload]
  rw [ofHeader_of_whole (RLP.whole_appendData hlt),
    populate_congr (fun i _ => hitem i) (by rw [hitem]) ?_, hr.populate_eq hread hlt]
  · rfl
  · rw [RLP.items, RLP.isList_eq_false_of_isData (RLP.isData_appendData hlt), if_neg (by decide),
      hr.header_eq, RLP.items_appendList hlt hsplit, Option.map_some, Option.map_some, ← hr.sealFields,
      hseal, List.drop_nil]

/-! ## Headers and their bytes -/

/-- The fields of a header determine its bytes: they are what is written, their hash is the
one that is kept, and no other bytes have the same `hash(WithoutSeal)` and the same seal,
unless they are a collision. -/
structure NamesBytes (C : Crypto) (data : Bytes) (h : WireHeader) : Prop where
  written : h.rlpWithSeal = data
  hash : C.sha3 h.rlpWithSeal = h.hash
  unique : ∀ data' h', ofHeader C data' = some h' →
    (C.sha3 h.rlpWithoutSeal = C.sha3 h'.rlpWithoutSeal → h.rlpWithoutSeal = h'.rlpWithoutSeal) →
    h.hashWithoutSeal C = h'.hashWithoutSeal C → h.sealFields = h'.sealFields → data' = data

theorem isList_appendList_of_lt {t : Bytes} (h : t.length < 2 ^ 64) :
    RLP.isList (RLP.appendList t) = true := by
  rw [RLP.appendList, RLP.lengthPrefix]
  split
  · simp only [List.cons_append, RLP.isList, decide_eq_true_eq, UInt8.toNat_ofNat']
    omega
  · have hbytes : Rlp.bytesRequired t.length ≤ 8 := RLP.bytesRequired_le h
    simp only [List.cons_append, RLP.isList, decide_eq_true_eq, UInt8.toNat_ofNat']
    omega

/-- What is written is a list, if it is accepted. -/
theorem isList_of_written (hread : ofHeader C data = some h) (hwritten : h.rlpWithSeal = data) :
    RLP.isList data = true := by
  have hne : data ≠ [] := by
    rw [← hwritten]
    exact RLP.appendList_ne_nil _
  obtain ⟨root, hroot, -⟩ := Option.bind_eq_some_iff.mp hread
  have hlt : data.length < 2 ^ 64 := by
    obtain ⟨s, hs, heq | heq⟩ := RLP.eq_append_of_whole (RLP.whole_of_ofBytes hroot hne).2
    · rw [heq]
      exact RLP.length_appendData_lt hs
    · rw [heq]
      exact RLP.length_appendList_lt hs
  rw [← hwritten, rlpWithSeal] at hlt ⊢
  refine isList_appendList_of_lt (lt_of_le_of_lt ?_ hlt)
  rw [RLP.appendList, List.length_append]
  exact Nat.le_add_left _ _

/-- **The fields of a header determine its bytes exactly if it is a list whose extra data are a
string, they are not empty, and there is a seal.** -/
theorem namesBytes_iff_canonical (hread : ofHeader C data = some h) :
    NamesBytes C data h ↔ isCanonical data = true ∧ h.extraData ≠ [] ∧ h.sealFields ≠ [] := by
  constructor
  · intro hnames
    have hlist := isList_of_written hread hnames.written
    obtain ⟨items, hr, hlt⟩ := received_of_ofHeader hread hlist
    have hdata := hr.rlpWithSeal_eq_iff.mp hnames.written
    refine ⟨(hr.isCanonical_eq hlt).trans hdata, fun hextra => ?_, fun hseal => ?_⟩
    · -- an empty list in the place of the empty string
      have hstring := hr.extraData_eq hdata
      rw [hextra] at hstring
      have hwhole : RLP.framing.Whole (RLP.appendList []) := RLP.whole_appendList (by decide)
      obtain ⟨h', hread', hbasic, hseal⟩ := hr.ofHeader_extraData hread hlt hwhole
        (by rw [hstring]; decide) (by rw [hextra]; decide)
      have hsame := hnames.unique _ h' hread' (fun _ => by rw [rlpWithoutSeal, rlpWithoutSeal, hbasic])
        (by rw [hashWithoutSeal, hashWithoutSeal, rlpWithoutSeal, rlpWithoutSeal, hbasic]) hseal.symm
      rw [hr.header_eq] at hsame
      have hflatten := RLP.appendList_injective hsame
      have hne : items.getD 12 [] ≠ [] := by
        rw [hstring]
        exact RLP.appendData_ne_nil _
      rw [hr.items_eq hne, hstring, List.flatten_append, List.flatten_append, List.append_cancel_left_eq,
        List.flatten_cons, List.flatten_cons, List.append_cancel_right_eq] at hflatten
      exact absurd hflatten (by decide)
    · -- a string in the place of the list
      have hread' := hr.ofHeader_appendData hread hlt hseal
      have hsame := hnames.unique _ _ hread' (fun _ => rfl) rfl rfl
      rw [← hsame, RLP.isList_eq_false_of_isData (RLP.isData_appendData hlt)] at hlist
      cases hlist
  · rintro ⟨hcanonical, hextra, hseal⟩
    have hlist : RLP.isList data = true := (Bool.and_eq_true_iff.mp hcanonical).1
    obtain ⟨items, hr, hlt⟩ := received_of_ofHeader hread hlist
    have hdata : RLP.isData (items.getD 12 []) = true := (hr.isCanonical_eq hlt).symm.trans hcanonical
    have hwritten := hr.rlpWithSeal_eq_iff.mpr hdata
    refine ⟨hwritten, by rw [hwritten, hr.hash], fun data' h' hread' hcollision hhash hsame => ?_⟩
    have hlist' : RLP.isList data' = true := by
      by_contra hstring
      exact hseal (hsame.trans (sealFields_of_ofHeader hread' (by simpa using hstring)))
    obtain ⟨items', hr', -⟩ := received_of_ofHeader hread' hlist'
    have hbasic := hr.basic_eq_of_rlpWithoutSeal hr' (hcollision hhash)
    have hdata' : RLP.isData (items'.getD 12 []) = true := by
      by_contra hno
      have hbytes := hr'.extraData
      rw [RLP.toBytes, if_neg hno, ← hbasic] at hbytes
      exact hextra (Option.some.inj hbytes).symm
    rw [← hr'.rlpWithSeal_eq_iff.mpr hdata', ← hwritten, rlpWithSeal, rlpWithSeal, hbasic, hsame]

/-! ## A header with a list for its extra data -/

/-- Primitives that evaluate. -/
def numberCrypto : Crypto where
  sha3 d := BitVec.ofNat 256 (fromBigEndian d)
  trieRootOver _ := 0
  sign _ _ := 0
  verify _ _ _ := false

/-- Basic fields with the given extra data. -/
def sampleFields (extraData : Bytes) : BasicFields where
  parentHash := 1
  sha3Uncles := 2
  author := 3
  stateRoot := 4
  transactionsRoot := 5
  receiptsRoot := 6
  logBloom := 0
  difficulty := 1
  number := 7
  gasLimit := 0x100000
  gasUsed := 0
  timestamp := 41
  extraData := extraData

/-- Their bytes, with one seal field. -/
def sampleBytes (extraData : Bytes) : Bytes :=
  RLP.appendList ((sampleFields extraData).streamRLPFields ++ [RLP.appendData [9]]).flatten

/-- The header that these bytes are read as. -/
def sampleHeader (extraData : Bytes) : WireHeader :=
  { sampleFields extraData with
    sealFields := [RLP.appendData [9]]
    hash := numberCrypto.sha3 (sampleBytes extraData) }

/-- Extra data that are not empty, and a seal. -/
theorem namesBytes_sampleBytes :
    ofHeader numberCrypto (sampleBytes [0x73]) = some (sampleHeader [0x73]) ∧
      NamesBytes numberCrypto (sampleBytes [0x73]) (sampleHeader [0x73]) := by
  have hread : ofHeader numberCrypto (sampleBytes [0x73]) = some (sampleHeader [0x73]) := by
    decide +kernel
  exact ⟨hread, (namesBytes_iff_canonical hread).mpr (by decide +kernel)⟩

/-- The fields of a header of 14 items, the thirteenth of which is the empty list. -/
def listBytes : Bytes :=
  RLP.appendList ((sampleFields []).strictItems ++ [RLP.appendList [], RLP.appendData [9]]).flatten

/-- It is read as the header with the empty string, and this is what is written. -/
theorem list_for_extraData :
    let h := { sampleHeader [] with hash := numberCrypto.sha3 listBytes }
    ofHeader numberCrypto listBytes = some h ∧ ofHeader numberCrypto (sampleBytes []) = some (sampleHeader []) ∧
      h.rlpWithSeal = sampleBytes [] ∧ sampleBytes [] ≠ listBytes ∧
      ¬NamesBytes numberCrypto listBytes h := by
  have hwritten : { sampleHeader [] with hash := numberCrypto.sha3 listBytes }.rlpWithSeal =
      sampleBytes [] := rfl
  have hne : sampleBytes [] ≠ listBytes := by decide +kernel
  exact ⟨by decide +kernel, by decide +kernel, hwritten, hne,
    fun hnames => hne (hwritten.symm.trans hnames.written)⟩

end WireHeader

end CppSwc
