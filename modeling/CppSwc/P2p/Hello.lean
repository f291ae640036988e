import CppSwc.P2p.Handshake

/-!
# The `Hello`

A host reads in the `Hello` of another one what that one has written, and so both make the
same capabilities of the two lists that they have sent
(`HandshakeHost.startPeerSession_helloList`).
-/

namespace CppSwc

open Lib

/-! ## Strings -/

/-- The characters are bytes. -/
def IsBytes (s : String) : Prop := ∀ c ∈ s.toList, c.toNat < 256

theorem stringOfBytes_stringBytes {s : String} (h : IsBytes s) :
    stringOfBytes (stringBytes s) = s := by
  have hback : ((stringBytes s).map fun x => Char.ofNat x.toNat) = s.toList := by
    rw [stringBytes, List.map_map]
    refine (List.map_congr_left fun c hc => ?_).trans s.toList.map_id
    have hbyte := h c hc
    simp only [Function.comp_apply, UInt8.toNat_ofNat', id_eq]
    rw [Nat.mod_eq_of_lt hbyte, Char.ofNat_toNat]
  rw [stringOfBytes, hback, String.ofList_toList]

/-! ## Lists -/

namespace RLP

section Lists

variable {xs : List Bytes} (hxs : ∀ x ∈ xs, framing.Whole x) (hlength : xs.flatten.length < maxLength)
  (rest : Bytes) (i : ℕ)
include hxs hlength

theorem items_appendList_append : items (appendList xs.flatten ++ rest) = some xs := by
  obtain ⟨-, hlist, hpayload⟩ := read_appendList hlength rest
  rw [items, if_pos hlist, hpayload, Option.bind_some, Framing.split_flatten hxs]

theorem item_appendList_append : item (appendList xs.flatten ++ rest) i = some (xs.getD i []) := by
  obtain ⟨-, -, hpayload⟩ := read_appendList hlength rest
  rw [item, hpayload, Option.bind_some, Framing.nth_flatten hxs]

end Lists

theorem toHashStrict_appendHash (size : ℕ) (h : BitVec (8 * size)) (hsize : size < maxLength) :
    toHashStrict size (appendHash size h) = some h := by
  have hlength : (bigEndian size h.toNat).length = size := bigEndian_length _ _
  have hlt : h.toNat < 256 ^ size := by
    have := h.isLt
    rwa [Nat.pow_mul] at this
  obtain ⟨-, hgood, hdata, hpayload⟩ :=
    read_appendData (s := bigEndian size h.toNat) (by rwa [hlength]) []
  rw [List.append_nil] at hgood hdata hpayload
  rw [toHashStrict, appendHash, hgood, hpayload, Option.bind_some, hdata, hlength,
    fromBigEndian_bigEndian _ _ hlt]
  simp

theorem toIntLax_appendInt {n k : ℕ} (h : n < 256 ^ k) (hk : k < 56) :
    toIntLax k (appendInt n) = some n := by
  have hbytes := bytesRequired_le h
  have hlength : (bigEndian (Rlp.bytesRequired n) n).length = Rlp.bytesRequired n := bigEndian_length _ _
  have hmax : (bigEndian (Rlp.bytesRequired n) n).length < maxLength := by
    rw [hlength, maxLength]
    omega
  obtain ⟨-, hgood, hdata, hpayload⟩ := read_appendData hmax []
  rw [List.append_nil] at hgood hdata hpayload
  rw [toIntLax, appendInt, hgood, isList_eq_false_of_isData hdata, hpayload, Option.map_some,
    fromBigEndian_bigEndian _ _ (Rlp.lt_pow_bytesRequired n), Nat.mod_eq_of_lt h]
  rfl

theorem length_le_appendList (s : Bytes) : s.length ≤ (appendList s).length := by
  rw [appendList, List.length_append]
  omega

theorem length_le_appendData (s : Bytes) : s.length ≤ (appendData s).length := by
  rcases appendData_cases s with ⟨b, rfl, -, happend⟩ | ⟨happend, -⟩
  · rw [happend]
  · rw [happend, List.length_append]
    omega

/-- What is written of a capability is read again. -/
theorem toCapDesc_appendCapDesc {cap : CapDesc} (hbytes : IsBytes (ofLex cap).1)
    (hversion : (ofLex cap).2 < 256 ^ 32) (hlength : (appendCapDesc cap).length < maxLength) :
    toCapDesc (appendCapDesc cap) = some cap := by
  have happend : appendCapDesc cap =
      appendList [appendData (stringBytes (ofLex cap).1), appendInt (ofLex cap).2].flatten := by
    simp [appendCapDesc]
  have hshort : [appendData (stringBytes (ofLex cap).1), appendInt (ofLex cap).2].flatten.length <
      maxLength := lt_of_le_of_lt (length_le_appendList _) (by rwa [← happend])
  have hstring : (stringBytes (ofLex cap).1).length < maxLength := by
    refine lt_of_le_of_lt ((length_le_appendData _).trans ?_) hshort
    simp
  have hwhole : ∀ x ∈ [appendData (stringBytes (ofLex cap).1), appendInt (ofLex cap).2],
      framing.Whole x := by
    simp only [List.mem_cons, List.not_mem_nil, or_false, forall_eq_or_imp, forall_eq]
    exact ⟨whole_appendData hstring, whole_appendInt hversion (by decide)⟩
  have hitems := items_appendList_append hwhole hshort []
  have hitem := item_appendList_append hwhole hshort []
  have hlist := isList_appendList hshort
  rw [← happend, List.append_nil] at hitems hitem
  rw [← happend] at hlist
  have hname : (item (appendCapDesc cap) 0).bind toBytes = some (stringBytes (ofLex cap).1) :=
    (congrArg (Option.bind · toBytes) (hitem 0)).trans (toBytes_appendData hstring)
  have hversion : (item (appendCapDesc cap) 1).bind (toIntLax 32) = some (ofLex cap).2 :=
    (congrArg (Option.bind · (toIntLax 32)) (hitem 1)).trans (toIntLax_appendInt hversion (by decide))
  rw [toCapDesc, hlist, hitems, hname, hversion]
  simp [stringOfBytes_stringBytes hbytes]

/-- What is written of a list of capabilities is read again. -/
theorem toCapDescs_appendList {caps : List CapDesc}
    (hcaps : ∀ d ∈ caps, IsBytes (ofLex d).1 ∧ (ofLex d).2 < 256 ^ 32)
    (hlength : (caps.map appendCapDesc).flatten.length < maxLength) :
    toCapDescs (appendList (caps.map appendCapDesc).flatten) = some caps := by
  have hshort : ∀ d ∈ caps, (appendCapDesc d).length < maxLength := by
    intro d hd
    exact lt_of_le_of_lt (List.sublist_flatten_of_mem (List.mem_map_of_mem hd)).length_le hlength
  have hwhole : ∀ x ∈ caps.map appendCapDesc, framing.Whole x := by
    intro x hx
    obtain ⟨d, hd, rfl⟩ := List.mem_map.mp hx
    exact whole_appendList (lt_of_le_of_lt (length_le_appendList _) (hshort d hd))
  have hitems := items_appendList_append hwhole hlength []
  rw [List.append_nil] at hitems
  rw [toCapDescs, hitems, Option.bind_some, List.mapM_map]
  clear hwhole hitems hlength
  induction caps with
  | nil => rfl
  | cons d caps ih =>
      have hd := toCapDesc_appendCapDesc (hcaps d List.mem_cons_self).1
        (hcaps d List.mem_cons_self).2 (hshort d List.mem_cons_self)
      have hrest := ih (fun d hd => hcaps d (List.mem_cons_of_mem _ hd))
        fun d hd => hshort d (List.mem_cons_of_mem _ hd)
      rw [List.mapM_cons, Function.comp_apply, hd, hrest]
      rfl

end RLP

/-! ## Hosts -/

namespace HandshakeHost

variable {P : HandshakeCiphers} (host peer : HandshakeHost)

/-- What `startPeerSession` does with the `Hello` of a host. -/
def meet (P : HandshakeCiphers) (peering : Peering) (_io : RLPXFrameCoder) : PeerSession × Bytes :=
  let m_capabilities := host.m_capabilities.negotiate peer.m_capabilities.caps
  let ps : Session := { m_io := _io, m_capabilities := [] }
  let disconnect (reason : DisconnectReason) : PeerSession × Bytes :=
    let r := ps.disconnect P.toCiphers reason
    (.disconnected reason r.1, r.2)
  if m_capabilities = [] then disconnect .uselessPeer
  else if peering.isUnexpected then disconnect .unexpectedIdentity
  else if peering.isDuplicate then disconnect .duplicatePeer
  else if !peering.peerSlotsAvailable then disconnect .tooManyPeers
  else
    let r := { ps with m_capabilities }.startAfter P.toCiphers (peering.greetings m_capabilities)
    (.started r.1, r.2)

/-- The items of a `Hello`. -/
def helloItems (P : HandshakeCiphers) : List Bytes :=
  [RLP.appendInt c_protocolVersion, RLP.appendData peer.m_clientVersion,
    RLP.appendList (peer.m_capabilities.caps.map RLP.appendCapDesc).flatten,
    RLP.appendInt peer.listenPort.toNat, RLP.appendHash 64 (peer.id P)]

section Read

variable (hlength : (peer.hello P).length < RLP.maxLength)
include hlength

theorem helloItems_length : (peer.helloItems P).flatten.length < RLP.maxLength := by
  have hle := RLP.length_le_appendList (peer.helloItems P).flatten
  change (RLP.appendInt 0 ++ RLP.appendList (peer.helloItems P).flatten).length < _ at hlength
  rw [List.length_append] at hlength
  omega

theorem length_lt_of_mem_helloItems {x : Bytes} (hx : x ∈ peer.helloItems P) :
    x.length < RLP.maxLength :=
  lt_of_le_of_lt (List.sublist_flatten_of_mem hx).length_le (peer.helloItems_length hlength)

theorem whole_helloItems : ∀ x ∈ peer.helloItems P, RLP.framing.Whole x := by
  have hversion : peer.m_clientVersion.length < RLP.maxLength :=
    lt_of_le_of_lt (RLP.length_le_appendData _)
      (peer.length_lt_of_mem_helloItems hlength (by simp [helloItems]))
  have hcaps : (peer.m_capabilities.caps.map RLP.appendCapDesc).flatten.length < RLP.maxLength :=
    lt_of_le_of_lt (RLP.length_le_appendList _)
      (peer.length_lt_of_mem_helloItems hlength (by simp [helloItems]))
  simp only [helloItems, List.mem_cons, List.not_mem_nil, or_false, forall_eq_or_imp, forall_eq]
  refine ⟨RLP.whole_appendInt (k := 1) (by decide) (by decide), RLP.whole_appendData hversion,
    RLP.whole_appendList hcaps, RLP.whole_appendInt (k := 2) peer.listenPort.toNat_lt (by decide),
    RLP.whole_appendData ?_⟩
  rw [bigEndian_length]
  decide

/-- A host finds in the `Hello` of another one what that one has written. -/
theorem startPeerSession_helloList (peering : Peering) (_io : RLPXFrameCoder) (rest : Bytes) :
    host.startPeerSession P.toCiphers peering (peer.id P) (peer.helloList P ++ rest) _io =
      some (host.meet peer P peering _io) := by
  have hwhole := peer.whole_helloItems hlength
  have hitem (i : ℕ) : RLP.item (peer.helloList P ++ rest) i = some ((peer.helloItems P).getD i []) :=
    RLP.item_appendList_append hwhole (peer.helloItems_length hlength) rest i
  have hversion : peer.m_clientVersion.length < RLP.maxLength :=
    lt_of_le_of_lt (RLP.length_le_appendData _)
      (peer.length_lt_of_mem_helloItems hlength (by simp [helloItems]))
  have hcaps : (peer.m_capabilities.caps.map RLP.appendCapDesc).flatten.length < RLP.maxLength :=
    lt_of_le_of_lt (RLP.length_le_appendList _)
      (peer.length_lt_of_mem_helloItems hlength (by simp [helloItems]))
  have hzero : (RLP.item (peer.helloList P ++ rest) 0).bind (RLP.toInt 4) = some 4 :=
    (congrArg (Option.bind · (RLP.toInt 4)) (hitem 0)).trans
      (RLP.toInt_appendInt (n := 4) (k := 4) (by decide) (by decide))
  have hone : (RLP.item (peer.helloList P ++ rest) 1).bind RLP.toBytes =
      some peer.m_clientVersion :=
    (congrArg (Option.bind · RLP.toBytes) (hitem 1)).trans (RLP.toBytes_appendData hversion)
  have htwo : (RLP.item (peer.helloList P ++ rest) 2).bind RLP.toCapDescs =
      some peer.m_capabilities.caps :=
    (congrArg (Option.bind · RLP.toCapDescs) (hitem 2)).trans (RLP.toCapDescs_appendList peer.caps_fit hcaps)
  have hthree : (RLP.item (peer.helloList P ++ rest) 3).bind (RLP.toInt 2) =
      some peer.listenPort.toNat :=
    (congrArg (Option.bind · (RLP.toInt 2)) (hitem 3)).trans
      (RLP.toInt_appendInt peer.listenPort.toNat_lt (by decide))
  have hfour : (RLP.item (peer.helloList P ++ rest) 4).bind (RLP.toHashStrict 64) =
      some (peer.id P) :=
    (congrArg (Option.bind · (RLP.toHashStrict 64)) (hitem 4)).trans (RLP.toHashStrict_appendHash 64 (peer.id P) (by decide))
  rw [startPeerSession, hzero, hone, htwo, hthree, hfour]
  simp only [Option.bind_eq_bind, Option.bind_some, meet, apply_ite some]
  rw [if_neg (not_not_intro rfl), if_neg (by decide)]
  rfl

end Read

end HandshakeHost

end CppSwc
