import FastParse.Routes.Network

namespace FastParse

open Framework State Attr

theorem clear_clear (flags : UInt8) : flags &&& ~~~0x10 &&& ~~~0x10 = flags &&& ~~~0x10 := by
  rw [UInt8.and_assoc, UInt8.and_self]

theorem set_set (flags : UInt8) : flags ||| 0x10 ||| 0x10 = flags ||| 0x10 := by
  rw [UInt8.or_assoc, UInt8.or_self]

theorem Attribute.canonical_canonical (a : Attribute) : a.canonical.canonical = a.canonical := by
  have hflags : a.canonical.canonicalFlags = a.canonicalFlags := by
    change (if a.value.length < 256 then a.canonicalFlags &&& ~~~0x10
      else a.canonicalFlags ||| 0x10) = a.canonicalFlags
    rw [Attribute.canonicalFlags]
    split_ifs
    · exact clear_clear a.flags
    · exact set_set a.flags
  simp only [Attribute.canonical, Attribute.mk.injEq]
  exact ⟨hflags, trivial, trivial⟩

section
variable {msg : Message} {route : Route} {l : List Attribute}

theorem Message.block_eq (h : msg.attributeBytes = encodeAll l) : msg.block = l := by
  have hlength := congrArg List.length h
  have hslice : slice msg.mem msg.pathAttributes msg.pathattributesLength.toNat = encodeAll l := h
  rw [Message.attributeBytes, List.length_map, List.length_range] at hlength
  rw [hlength] at hslice
  rw [Message.block, hlength]
  exact (tiled_of_slice hslice).2

theorem Message.Made.imported (h : msg.Made route) : route.Imported (peers msg.peer) := by
  refine ⟨msg.mem, msg.pathAttributes, ?_, ?_⟩
  · rw [h.attributes, h.length]
    rfl
  · rw [h.length]
    exact h.tiebreak

theorem Message.Made.block (h : msg.Made route) : route.block = msg.block := by
  have htiebreak := h.tiebreak
  rw [Message.tiebreak, ← h.length] at htiebreak
  have hslice : slice route.attributes 0 route.updateLength.toNat =
      slice msg.mem msg.pathAttributes route.updateLength.toNat := by
    rw [h.attributes, h.length]
    rfl
  rw [Message.block, ← h.length]
  exact (Route.block_eq_of_slice hslice (parseAttributes_iff.mp htiebreak).2.1).2

end

/-- The value that the first router sends: the bytes of the LOCAL_PREF it was sent the wrong way
round, or the default of the peer. -/
def firstPref (msg : Message) : List UInt8 :=
  ((msg.block.find? fun a => a.typeCode = localPref).map fun a => a.value.reverse).getD
    (bytes32 (peers msg.peer).staticLocalPref)

def prefAfter (msg : Message) (n : Nat) : List UInt8 := List.reverse^[n] (firstPref msg)

theorem prefAfter_succ (msg : Message) (n : Nat) :
    prefAfter msg (n + 1) = (prefAfter msg n).reverse := Function.iterate_succ_apply' _ _ _

/-- The attributes behind `n` routers: after the first of them ORIGIN, AS_PATH and NEXT_HOP in
canonical form, and LOCAL_PREF. -/
def bytesAfter (msg : Message) (o path hop : Attribute) : Nat → List UInt8
  | 0 => msg.attributeBytes
  | n + 1 => [0x40, origin, 1] ++ o.value ++ path.canonical.encode ++ hop.canonical.encode ++
      ([0x40, localPref, 4] ++ prefAfter msg n)

/-- `msg` is what `msg0` has become behind `n` routers. -/
def Along (msg0 : Message) (o path hop : Attribute) (msg : Message) : Nat → Prop
  | 0 => msg = msg0
  | n + 1 => ∃ x pref, o.value = [x] ∧ bytes32 pref = prefAfter msg0 n ∧
      msg.attributeBytes = encodeAll (ibgpAttributes x path hop pref)

section
variable {msg0 msg sent : Message} {o path hop : Attribute} {route : Route} {n : Nat}

theorem Along.bytes (h : Along msg0 o path hop msg n) :
    msg.attributeBytes = bytesAfter msg0 o path hop n := by
  cases n with
  | zero =>
    have h : msg = msg0 := h
    rw [h, bytesAfter]
  | succ n =>
    obtain ⟨x, pref, hx, hpref, hbytes⟩ := h
    rw [hbytes, encodeAll_ibgpAttributes, bytesAfter, hx, hpref]
    simp [encodeAll, origin, localPref]

theorem sent_ibgp (hmade : msg.Made route) (ho : Ordered msg.block o path hop)
    (hone : o.value.length = 1) (hsent : sent.attributeBytes = exportBytes serializeIbgp route) :
    ∃ x, o.value = [x] ∧
      sent.attributeBytes = encodeAll (ibgpAttributes x path hop route.tiebreak.localPref) := by
  rw [← hmade.block] at ho
  obtain ⟨x, hx, hexports⟩ := ibgp_sends ho
  obtain ⟨v, hv⟩ := List.length_eq_one_iff.mp hone
  refine ⟨x, ?_, ?_⟩
  · rw [hv, hx v [] hv]
  · rw [hsent]
    exact @exportBytes_eq .ibgp route _ hexports

theorem ibgpAttributes_ordered (x : UInt8) (pref : UInt32) (hpath : path.typeCode = asPath)
    (hhop : hop.typeCode = nextHop) :
    Ordered (ibgpAttributes x path hop pref) (wellKnown origin [x] (by decide : 1 < 256))
      path.canonical hop.canonical where
  sorted := by
    have htypes : types (ibgpAttributes x path hop pref) =
        [origin, path.typeCode, hop.typeCode, localPref] := rfl
    rw [htypes, hpath, hhop]
    decide
  origin := by simp [ibgpAttributes, wellKnown]
  path := by
    refine ⟨?_, hpath⟩
    simp [ibgpAttributes]
  hop := by
    refine ⟨?_, hhop⟩
    simp [ibgpAttributes]

/-- The preference of the route in the first router. -/
theorem bytes32_first (hmade : msg.Made route) (ho : Ordered msg.block o path hop) :
    bytes32 route.tiebreak.localPref = firstPref msg := by
  have hi := hmade.imported
  have hall := hi.accepted.tiled.2.2
  rw [← hmade.block] at ho
  rw [hi.localPref_eq ho.nodup, firstPref, ← hmade.block]
  cases hfind : route.block.find? fun a => a.typeCode = localPref with
  | none => rfl
  | some a =>
    have ha := List.mem_of_find?_eq_some hfind
    have htype : a.typeCode = localPref := by simpa using List.find?_some hfind
    exact bytes32_hostWord (length_localPref (hall a ha) htype)

/-- The preference of the route in any other router. -/
theorem bytes32_next {x : UInt8} {pref : UInt32} (hmade : msg.Made route)
    (hpath : path.typeCode = asPath) (hhop : hop.typeCode = nextHop)
    (hblock : msg.block = ibgpAttributes x path hop pref) :
    bytes32 route.tiebreak.localPref = (bytes32 pref).reverse := by
  have ho := ibgpAttributes_ordered x pref hpath hhop
  rw [← hblock] at ho
  have hfind : (ibgpAttributes x path hop pref).find? (fun a => a.typeCode = localPref) =
      some (wellKnown localPref (bytes32 pref) (by rw [length_bytes32]; decide)) := by
    have hp : path.canonical.typeCode = asPath := hpath
    have hh : hop.canonical.typeCode = nextHop := hhop
    simp [ibgpAttributes, hp, hh, wellKnown, origin, asPath, nextHop, localPref]
  rw [bytes32_first hmade ho, firstPref, hblock, hfind]
  rfl

theorem Along.next (h : Along msg0 o path hop msg n) (hmade : msg.Made route)
    (ho : Ordered msg0.block o path hop) (hone : o.value.length = 1)
    (hsent : sent.attributeBytes = exportBytes serializeIbgp route) :
    Along msg0 o path hop sent (n + 1) := by
  cases n with
  | zero =>
    have h : msg = msg0 := h
    subst h
    obtain ⟨x, hx, hbytes⟩ := sent_ibgp hmade ho hone hsent
    exact ⟨x, _, hx, bytes32_first hmade ho, hbytes⟩
  | succ n =>
    obtain ⟨x, pref, hx, hpref, hbytes⟩ := h
    have hblock := Message.block_eq hbytes
    have hnext := ibgpAttributes_ordered x pref ho.path.2 ho.hop.2
    rw [← hblock] at hnext
    obtain ⟨y, hy, hbytes'⟩ := sent_ibgp hmade hnext rfl hsent
    obtain rfl : x = y := (List.cons.inj hy).1
    refine ⟨x, route.tiebreak.localPref, hx, ?_, ?_⟩
    · rw [bytes32_next hmade ho.path.2 ho.hop.2 hblock, hpref, prefAfter_succ]
    · rw [hbytes', ibgpAttributes, ibgpAttributes, path.canonical_canonical,
        hop.canonical_canonical]

end

/-- In every tree of routers that send with `serialize_ibgp`, each of which gets through its
messages with no message of its own too long and with room in its tables, and which starts from
routes whose attributes are ordered, with one byte of ORIGIN: each route at the end is one from the
start with ORIGIN, AS_PATH and NEXT_HOP as they were, nothing else but a LOCAL_PREF, and that with
its bytes turned round by every router that was sent one. -/
theorem attributes_relayed {src : List (Message × Nat)} {msgs : List Message}
    (h : Feed [.ibgp] src msgs) (hsections : ∀ x ∈ src, x.1.SectionsAddUp)
    (hordered : ∀ x ∈ src, x.1.HasRoute →
      ∃ o path hop, Ordered x.1.block o path hop ∧ o.value.length = 1) :
    ∀ msg ∈ msgs, msg.HasRoute → ∃ x ∈ src, x.1.HasRoute ∧
      ∃ o path hop, Ordered x.1.block o path hop ∧
        msg.attributeBytes = bytesAfter x.1 o path hop x.2 := by
  have hall := h.traced (R := fun msg0 n msg => ∃ o path hop, Ordered msg0.block o path hop ∧
    o.value.length = 1 ∧ Along msg0 o path hop msg n) hsections ?_ ?_
  · intro msg hmsg hroute
    obtain ⟨x, hx, hroute, o, path, hop, ho, _, halong⟩ := hall msg hmsg hroute
    exact ⟨x, hx, hroute, o, path, hop, ho, halong.bytes⟩
  · intro x hx hroute
    obtain ⟨o, path, hop, ho, hone⟩ := hordered x hx hroute
    exact ⟨o, path, hop, ho, hone, rfl⟩
  · rintro msg0 n msg sent route kind hkind ⟨o, path, hop, ho, hone, halong⟩ hmade _ hsent
    obtain rfl : kind = .ibgp := List.mem_singleton.mp hkind
    exact ⟨o, path, hop, ho, hone, halong.next hmade ho hone hsent⟩

/-- One peer announces with a LOCAL_PREF of 100, the other one without. -/
def preferTwo : List Message :=
  [updateMessage 0 [] (encodeAll (preferred [0, 0, 0, 100] (by decide))) [8, 10, 8, 11],
    updateMessage 1 [] (encodeAll [plainOrigin, plainPath, plainHop]) [8, 12]]

theorem preferTwo_ordered :
    ∀ msg ∈ preferTwo, Ordered msg.block plainOrigin plainPath plainHop := by
  have hblocks : preferTwo.map Message.block =
      [preferred [0, 0, 0, 100] (by decide), [plainOrigin, plainPath, plainHop]] := by
    decide +kernel
  intro msg hmsg
  have hblock : msg.block ∈ preferTwo.map Message.block := List.mem_map_of_mem hmsg
  rw [hblocks, List.mem_cons, List.mem_singleton] at hblock
  cases hblock with
  | inl hblock =>
    rw [hblock]
    exact preferred_ordered _ _
  | inr hblock =>
    rw [hblock]
    exact ⟨by decide, by decide, by decide, by decide⟩

/-- Two routers further on the LOCAL_PREF of 100 is right again, and the default is not. -/
theorem attributes_relayed_two :
    ∃ sent msgs, Nonempty (Relay .ibgp preferTwo sent) ∧ Nonempty (Relay .ibgp sent msgs) ∧
      (∀ msg ∈ msgs, msg.HasRoute → ∃ x ∈ preferTwo.map fun msg => (msg, 2), x.1.HasRoute ∧
        ∃ o path hop, Ordered x.1.block o path hop ∧
          msg.attributeBytes = bytesAfter x.1 o path hop x.2) ∧
      preferTwo.map (fun msg => prefAfter msg 1) = [[0, 0, 0, 100], [43, 0, 0, 0]] := by
  obtain ⟨sent, msgs, ⟨first⟩, ⟨second⟩⟩ := @groupHops_relays .ibgp preferTwo (by decide +kernel)
  have hfeed := ((Feed.own preferTwo).relay (List.mem_singleton_self Kind.ibgp) first).relay
    (List.mem_singleton_self _) second
  rw [List.map_map, List.map_map] at hfeed
  have hsections : ∀ x ∈ preferTwo.map fun msg => (msg, 2), x.1.SectionsAddUp :=
    List.forall_mem_map.mpr (by decide +kernel)
  refine ⟨sent, msgs, ⟨first⟩, ⟨second⟩, attributes_relayed hfeed hsections ?_, by decide +kernel⟩
  intro x hx _
  obtain ⟨msg, hmsg, rfl⟩ := List.mem_map.mp hx
  exact ⟨plainOrigin, plainPath, plainHop, preferTwo_ordered msg hmsg, rfl⟩

end FastParse
