import FastParse.Phase3.PathShift
import FastParse.Routes.Copies

namespace FastParse

open Framework State Attr

section
variable {l : List Attribute} {o path hop : Attribute} {n : UInt8} {asns : List UInt8} {x : UInt8}

theorem communities_types (l : List Attribute) :
    communities l = [] ∨ ∃ a, communities l = [a] ∧ a.typeCode = community := by
  rw [communities]
  cases hfind : l.find? fun a => a.typeCode = community with
  | none => exact .inl rfl
  | some a => exact .inr ⟨a, rfl, by simpa using List.find?_some hfind⟩

/-- What is sent has the COMMUNITY that it was sent with. -/
theorem communities_sent (hpath : path.typeCode = asPath) (hhop : hop.typeCode = nextHop) :
    communities (ebgpAttributes x path hop l) = (communities l).map Attribute.canonical := by
  have hhop' : hop.canonical.typeCode = nextHop := hhop
  cases communities_types l with
  | inl h =>
    rw [communities, ebgpAttributes, h]
    simp [wellKnown, hpath, hhop', origin, asPath, nextHop, community]
  | inr h =>
    obtain ⟨a, h, ha⟩ := h
    have ha' : a.canonical.typeCode = community := ha
    rw [communities, ebgpAttributes, h]
    simp [wellKnown, hpath, hhop', ha', origin, asPath, nextHop, community]

theorem ebgpAttributes_ordered (hpath : path.typeCode = asPath) (hhop : hop.typeCode = nextHop) :
    Ordered (ebgpAttributes x path hop l) (wellKnown origin [x] (length_singleton_lt x)) path
      hop.canonical where
  sorted := by
    have htypes : types (ebgpAttributes x path hop l) =
        [origin, path.typeCode, hop.typeCode] ++ types ((communities l).map Attribute.canonical) :=
      rfl
    rw [htypes, hpath, hhop, types_canonical]
    cases communities_types l with
    | inl h =>
      rw [h]
      decide
    | inr h =>
      obtain ⟨a, h, ha⟩ := h
      rw [h, types, List.map_singleton, ha]
      decide
  origin := by simp [ebgpAttributes, wellKnown]
  path := by simp [ebgpAttributes, hpath]
  hop := by
    refine ⟨?_, hhop⟩
    simp [ebgpAttributes]

theorem ebgpAttributes_again {y : UInt8} {a b : Attribute} (hpath : a.typeCode = asPath)
    (hhop : hop.typeCode = nextHop) :
    ebgpAttributes y b hop.canonical (ebgpAttributes x a hop l) = ebgpAttributes y b hop l := by
  have hsent : ((communities (ebgpAttributes x a hop l)).map Attribute.canonical) =
      (communities l).map Attribute.canonical := by
    rw [communities_sent hpath hhop, map_canonical_canonical]
  rw [ebgpAttributes, hsent, hop.canonical_canonical]
  rfl

end

theorem four_le_encode {a : Attribute} (h : a.value.length = 4) : 4 ≤ a.encode.length := by
  rw [a.length_encode, h]
  exact Nat.le_add_left 4 _

/-- The ASes behind `k + 1` routers: 42, the path without its first AS, and for each router the
first four bytes of the NEXT_HOP that it was sent. -/
def wornAsns (asns : List UInt8) (hop : Attribute) (k : Nat) : List UInt8 :=
  bytes32 42 ++ (asns.drop 4 ++ (hop.encode.take 4 ++
    (List.replicate k (hop.canonical.encode.take 4)).flatten))

theorem wornAsns_zero (asns : List UInt8) (hop : Attribute) :
    wornAsns asns hop 0 = shiftedAsns asns hop := by simp [wornAsns, shiftedAsns]

theorem wornAsns_succ (asns : List UInt8) (hop : Attribute) (k : Nat) :
    wornAsns asns hop (k + 1) = shiftedAsns (wornAsns asns hop k) hop.canonical := by
  rw [shiftedAsns, wornAsns, wornAsns, List.drop_left' (length_bytes32 42), List.replicate_succ',
    List.flatten_append]
  simp only [List.flatten_cons, List.flatten_nil, List.append_nil, List.append_assoc]

/-- `msg` is what `msg0` has become behind some routers, with a path of one AS more for each. -/
def Worn (msg0 : Message) (o hop : Attribute) (n : UInt8) (asns : List UInt8) (msg : Message) :
    Nat → Prop
  | 0 => msg = msg0
  | k + 1 => n.toNat + (k + 1) ≤ 255 ∧ ∃ x path, o.value = [x] ∧ path.typeCode = asPath ∧
      path.value = 2 :: UInt8.ofNat (n.toNat + (k + 1)) :: wornAsns asns hop k ∧
      msg.attributeBytes = encodeAll (ebgpAttributes x path hop msg0.block)

section
variable {msg0 msg sent : Message} {o path hop : Attribute} {n : UInt8} {asns : List UInt8}
  {route : Route} {k : Nat}

theorem length_wornAsns (hp : Plain msg0.block o path hop n asns) (hhop : hop.value.length = 4)
    (k : Nat) : (wornAsns asns hop k).length = 4 * (n.toNat + (k + 1)) := by
  have hone : 1 ≤ n.toNat := UInt8.le_iff_toNat_le.mp hp.pos
  have hasns := hp.asns
  have hfour := four_le_encode hhop
  have hfour' := four_le_encode (a := hop.canonical) hhop
  have htail : (List.replicate k (hop.canonical.encode.take 4)).flatten.length = 4 * k := by
    rw [List.length_flatten, List.map_replicate, List.sum_replicate_nat, List.length_take,
      Nat.min_eq_left hfour', Nat.mul_comm]
  rw [wornAsns]
  simp only [List.length_append, htail, length_bytes32, List.length_drop, List.length_take, hasns]
  omega

/-- The block behind a router is of the same form. -/
theorem Worn.plain (h : Worn msg0 o hop n asns msg (k + 1))
    (hp : Plain msg0.block o path hop n asns) (hhop : hop.value.length = 4) :
    ∃ x a, o.value = [x] ∧ a.typeCode = asPath ∧ msg.block = ebgpAttributes x a hop msg0.block ∧
      Plain msg.block (wellKnown origin [x] (length_singleton_lt x)) a hop.canonical
        (UInt8.ofNat (n.toNat + (k + 1))) (wornAsns asns hop k) := by
  obtain ⟨hle, x, a, hx, htype, hvalue, hbytes⟩ := h
  have hblock := Message.block_eq hbytes
  have hcount : (UInt8.ofNat (n.toNat + (k + 1))).toNat = n.toNat + (k + 1) := by
    rw [UInt8.toNat_ofNat']
    omega
  refine ⟨x, a, hx, htype, hblock, ?_⟩
  rw [hblock]
  refine ⟨ebgpAttributes_ordered htype hp.ordered.hop.2, rfl, hvalue, ?_, ?_⟩
  · rw [length_wornAsns hp hhop, hcount]
  · rw [UInt8.le_iff_toNat_le, hcount]
    exact Nat.le_add_left 1 (n.toNat + k)

theorem Worn.next (h : Worn msg0 o hop n asns msg k) (hp : Plain msg0.block o path hop n asns)
    (hmade : msg.Made route) (hexports : ∃ bs, Kind.ebgp.Exports route bs)
    (hsent : sent.attributeBytes = exportBytes serializeEbgp route) :
    Worn msg0 o hop n asns sent (k + 1) := by
  cases k with
  | zero =>
    have h : msg = msg0 := h
    subst h
    rw [← hmade.block] at hp
    obtain ⟨hroom, x, a, hx, htype, hvalue, hbytes⟩ := hp.sends hmade.accepted hexports
    have hless : n.toNat < 255 := UInt8.lt_iff_toNat_lt.mp hroom
    refine ⟨hless, x, a, hx, htype, ?_, ?_⟩
    · rw [hvalue, wornAsns_zero, UInt8.ofNat_add, UInt8.ofNat_toNat]
      rfl
    · rw [hsent, ← hmade.block]
      exact @exportBytes_eq .ebgp route _ hbytes
  | succ k =>
    obtain ⟨hle, x, a, hx, htype, _, hbytes⟩ := id h
    have hhop : hop.value.length = 4 := by
      have hmem : hop.canonical ∈ route.block := by
        rw [hmade.block, Message.block_eq hbytes]
        simp [ebgpAttributes]
      exact @length_nextHop hop.canonical (hmade.accepted.tiled.2.2 _ hmem) hp.ordered.hop.2
    obtain ⟨y, b, hy, hb, hblock, hplain⟩ := h.plain hp hhop
    rw [← hmade.block] at hplain
    obtain ⟨hroom, z, c, hz, hc, hvalue, hexported⟩ := hplain.sends hmade.accepted hexports
    obtain rfl : y = z := (List.cons.inj hz).1
    have hless := UInt8.lt_iff_toNat_lt.mp hroom
    rw [UInt8.toNat_ofNat', Nat.mod_eq_of_lt (Nat.lt_succ_of_le hle)] at hless
    rw [hmade.block, hblock, ebgpAttributes_again hb hp.ordered.hop.2] at hexported
    refine ⟨hless, y, c, hy, hc, ?_, ?_⟩
    · have hcount : UInt8.ofNat (n.toNat + (k + 1 + 1)) = UInt8.ofNat (n.toNat + (k + 1)) + 1 :=
        UInt8.ofNat_add (n.toNat + (k + 1)) 1
      rw [hvalue, wornAsns_succ, hcount]
    · rw [hsent]
      exact @exportBytes_eq .ebgp route _ hexported

end

/-- In every tree of routers that send with `serialize_ebgp`, from routes with ordered attributes,
one byte of ORIGIN and a path that is one sequence of ASes: each route at the end is one from the
start with ORIGIN, NEXT_HOP and COMMUNITY as they were and a path of one AS more for each router. In
it 42 stands once, in front, the first AS is gone, and for each router there is a piece of the
NEXT_HOP at the end. -/
theorem paths_worn {src : List (Message × Nat)} {msgs : List Message} (h : Feed [.ebgp] src msgs)
    (hsections : ∀ x ∈ src, x.1.SectionsAddUp)
    (hplain : ∀ x ∈ src, x.1.HasRoute →
      ∃ o path hop n asns, Plain x.1.block o path hop n asns) :
    ∀ msg ∈ msgs, msg.HasRoute → ∃ x ∈ src, x.1.HasRoute ∧
      ∃ o path hop n asns, Plain x.1.block o path hop n asns ∧ Worn x.1 o hop n asns msg x.2 := by
  refine h.traced (R := fun msg0 n msg => ∃ o path hop n' asns,
    Plain msg0.block o path hop n' asns ∧ Worn msg0 o hop n' asns msg n) hsections ?_ ?_
  · intro x hx hroute
    obtain ⟨o, path, hop, n, asns, hp⟩ := hplain x hx hroute
    exact ⟨o, path, hop, n, asns, hp, rfl⟩
  · intro msg0 n msg sent route kind hkind hplainRoute hmade hexported hsent
    obtain ⟨o, path, hop, n', asns, hp, hworn⟩ := hplainRoute
    obtain rfl : kind = .ebgp := List.mem_singleton.mp hkind
    exact ⟨o, path, hop, n', asns, hp, hworn.next hp hmade hexported.exports hsent⟩

/-- Behind two routers a path of one AS has three, none of which is that one. -/
theorem paths_worn_two :
    ∃ sent msgs, Nonempty (Relay .ebgp preferTwo sent) ∧ Nonempty (Relay .ebgp sent msgs) ∧
      (∀ msg ∈ msgs, msg.HasRoute → ∃ x ∈ preferTwo.map fun msg => (msg, 2), x.1.HasRoute ∧
        ∃ o path hop n asns, Plain x.1.block o path hop n asns ∧
          Worn x.1 o hop n asns msg x.2) ∧
      wornAsns [0, 0, 0, 7] plainHop 1 =
        [0, 0, 0, 42] ++ [0x40, nextHop, 4, 10] ++ [0x40, nextHop, 4, 10] := by
  obtain ⟨sent, msgs, ⟨first⟩, ⟨second⟩⟩ := @groupHops_relays .ebgp preferTwo (by decide +kernel)
  have hfeed := ((Feed.own preferTwo).relay (List.mem_singleton_self Kind.ebgp) first).relay
    (List.mem_singleton_self _) second
  rw [List.map_map, List.map_map] at hfeed
  have hsections : ∀ x ∈ preferTwo.map fun msg => (msg, 2), x.1.SectionsAddUp :=
    List.forall_mem_map.mpr (by decide +kernel)
  refine ⟨sent, msgs, ⟨first⟩, ⟨second⟩, paths_worn hfeed hsections ?_, by decide +kernel⟩
  intro x hx _
  obtain ⟨msg, hmsg, rfl⟩ := List.mem_map.mp hx
  exact ⟨plainOrigin, plainPath, plainHop, 1, [0, 0, 0, 7], preferTwo_ordered msg hmsg, rfl, rfl,
    rfl, by decide⟩

end FastParse
