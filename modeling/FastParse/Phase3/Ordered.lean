import FastParse.Phase3.CopyExport

namespace FastParse

open Framework Attr

theorem seek_sorted {l : List Attribute} {a : Attribute} (hs : (types l).Pairwise (· < ·))
    (ha : a ∈ l) :
    seek a.typeCode l = (some a, l.filter fun b => a.typeCode < b.typeCode) := by
  induction l with
  | nil => cases ha
  | cons b l ih =>
    obtain ⟨hb, hs⟩ := List.pairwise_cons.mp hs
    rw [seek, List.filter_cons]
    cases List.mem_cons.mp ha with
    | inl e =>
      subst e
      have hall : l.filter (fun b => a.typeCode < b.typeCode) = l := by
        rw [List.filter_eq_self]
        intro c hc
        exact decide_eq_true (hb _ (List.mem_map_of_mem hc))
      simp [UInt8.lt_irrefl, hall]
    | inr ha =>
      have hless : b.typeCode < a.typeCode := hb _ (List.mem_map_of_mem ha)
      have hmore : ¬ a.typeCode < b.typeCode := UInt8.lt_asymm hless
      rw [if_pos hless, ih hs ha]
      simp [hmore]

/-- The order the serializers rely on, with the three attributes an UPDATE must have. -/
structure Ordered (l : List Attribute) (o path hop : Attribute) : Prop where
  sorted : (types l).Pairwise (· < ·)
  origin : o ∈ l ∧ o.typeCode = origin
  path : path ∈ l ∧ path.typeCode = asPath
  hop : hop ∈ l ∧ hop.typeCode = nextHop

namespace Ordered

variable {l : List Attribute} {o path hop : Attribute}

theorem behind {a b : Attribute} (hs : (types l).Pairwise (· < ·)) (hb : b ∈ l)
    (hlt : a.typeCode < b.typeCode) :
    (types (l.filter fun c => a.typeCode < c.typeCode)).Pairwise (· < ·) ∧
      b ∈ l.filter fun c => a.typeCode < c.typeCode :=
  ⟨hs.sublist (List.filter_sublist.map _), List.mem_filter.mpr ⟨hb, decide_eq_true hlt⟩⟩

/-- Each of the first three searches finds its attribute. -/
theorem searches (h : Ordered l o path hop) :
    (seek Attr.origin l).1 = some o ∧
      (seek asPath (seek Attr.origin l).2).1 = some path ∧
      (seek nextHop (seek asPath (seek Attr.origin l).2).2).1 = some hop := by
  obtain ⟨hs, ⟨ho, hot⟩, ⟨hp, hpt⟩, hh, hht⟩ := h
  have hlt : o.typeCode < path.typeCode := by
    rw [hot, hpt]
    decide
  have hlt' : o.typeCode < hop.typeCode := by
    rw [hot, hht]
    decide
  have hlt1 : path.typeCode < hop.typeCode := by
    rw [hpt, hht]
    decide
  obtain ⟨hs1, hp1⟩ := behind hs hp hlt
  obtain ⟨hs2, hh2⟩ := behind hs1 (behind hs hh hlt').2 hlt1
  have horigin := seek_sorted hs ho
  have hpath := seek_sorted hs1 hp1
  have hhop := seek_sorted hs2 hh2
  rw [← hot, horigin]
  simp only
  rw [← hpt, hpath]
  simp only
  rw [← hht, hhop]
  exact ⟨trivial, trivial, rfl⟩

theorem picked_eq (h : Ordered l o path hop) :
    picked [asPath, nextHop] (seek Attr.origin l).2 = [path, hop] := by
  obtain ⟨_, hpath, hhop⟩ := h.searches
  rw [picked, picked, picked, hpath, hhop]
  rfl

end Ordered

theorem lengthLimit_wellKnown : lengthLimit 0x40 = 256 := if_neg (by decide)

def wellKnown (typeCode : UInt8) (value : List UInt8) (h : value.length < 256) : Attribute where
  flags := 0x40
  typeCode := typeCode
  value := value
  fits := lengthLimit_wellKnown ▸ h

theorem encode_wellKnown (typeCode : UInt8) (value : List UInt8) (h : value.length < 256) :
    (wellKnown typeCode value h).encode =
      [0x40, typeCode, UInt8.ofNat value.length] ++ value := by
  have hfield : lengthField 0x40 value.length = [UInt8.ofNat value.length] := if_neg (by decide)
  change [0x40, typeCode] ++ lengthField 0x40 value.length ++ value = _
  rw [hfield]
  rfl

theorem length_bytes32 (v : UInt32) : (bytes32 v).length = 4 := rfl

/-- What `serialize_ibgp` sends of an ordered route: the first byte of ORIGIN, AS_PATH and
NEXT_HOP in canonical form, LOCAL_PREF. -/
def ibgpAttributes (x : UInt8) (path hop : Attribute) (pref : UInt32) : List Attribute :=
  [wellKnown origin [x] (by decide : 1 < 256), path.canonical, hop.canonical,
    wellKnown localPref (bytes32 pref) (by rw [length_bytes32]; decide)]

theorem encodeAll_ibgpAttributes (x : UInt8) (path hop : Attribute) (pref : UInt32) :
    encodeAll (ibgpAttributes x path hop pref) =
      [0x40, 1, 1, x] ++ encodeAll [path.canonical, hop.canonical] ++
        ([0x40, 5, 4] ++ bytes32 pref) := by
  simp only [ibgpAttributes, encodeAll_cons, encode_wellKnown, List.append_assoc]
  rfl

theorem ibgp_sends {route : Route} {o path hop : Attribute}
    (h : Ordered route.block o path hop) :
    ∃ x, (∀ v rest, o.value = v :: rest → x = v) ∧
      Kind.ibgp.Exports route
        (encodeAll (ibgpAttributes x path hop route.tiebreak.localPref)) := by
  obtain ⟨x, hx, hexports⟩ := ibgp_exports h.searches.1
  rw [h.picked_eq] at hexports
  refine ⟨x, hx, ?_⟩
  rw [encodeAll_ibgpAttributes]
  exact hexports

/-- A list of accepted attributes, written anywhere, is walked to its exact end. -/
theorem parseLoop_encodeAll {l : List Attribute} (hne : l ≠ []) (hall : ∀ a ∈ l, a.Accepted)
    (out : Mem) (q : Nat) (tb : Tiebreak) :
    ∃ tb', parseLoop (overlay out q (encodeAll l)) (q + (encodeAll l).length)
      ((encodeAll l).length + 1) q tb = .ok (q + (encodeAll l).length, tb') := by
  obtain ⟨htiled, hblock⟩ := tiled_of_slice (slice_overlay out q (encodeAll l))
  have hpos : 0 < (encodeAll l).length := by
    cases l with
    | nil => exact absurd rfl hne
    | cons a l =>
      have hlong := a.slack_encode
      rw [encodeAll_cons, List.length_append]
      omega
  have hstep : ∀ p ∈ blockStations (overlay out q (encodeAll l)) (q + (encodeAll l).length) q,
      ∀ tb, ∃ tb', parseAt (overlay out q (encodeAll l)) tb p = .ok tb' := by
    intro p hp
    have hmem : attributeAt (overlay out q (encodeAll l)) p ∈
        block (overlay out q (encodeAll l)) (q + (encodeAll l).length) q :=
      List.mem_map_of_mem hp
    rw [hblock] at hmem
    rw [← accepted_attributeAt]
    exact hall _ hmem
  obtain ⟨tb', htb⟩ := run_returns hstep tb
  exact ⟨tb', parseLoop_of_tiled htiled (by omega) (by omega) htb⟩

theorem parseAttributes_encodeAll {l : List Attribute} (hne : l ≠ [])
    (hall : ∀ a ∈ l, a.Accepted) (hlen : (encodeAll l).length < 2 ^ 16) (out : Mem) (q : Nat)
    (tb : Tiebreak) :
    ∃ tb', parseAttributes (overlay out q (encodeAll l)) q
      (UInt16.ofNat (encodeAll l).length) tb = .ok tb' := by
  obtain ⟨tb', htb⟩ := parseLoop_encodeAll hne hall out q tb
  have hword : (UInt16.ofNat (encodeAll l).length).toNat = (encodeAll l).length := by
    rw [UInt16.toNat_ofNat', Nat.mod_eq_of_lt hlen]
  refine ⟨tb', ?_⟩
  simp only [parseAttributes, hword]
  rw [bind_eq_ok]
  exact ⟨_, htb, assert_bind_ok.mpr ⟨rfl, rfl⟩⟩

theorem accepted_localPref (v : UInt32) (h : (bytes32 v).length < 256) :
    (wellKnown localPref (bytes32 v) h).Accepted := fun _ => ⟨_, rfl⟩

/-- For every accepted block that is the encoding of an ordered list whose ORIGIN has one byte:
the message attributes are the three mandatory ones and LOCAL_PREF, and they are a block again. -/
theorem ibgp_ordered (route : Route) (h : route.Accepted) (l : List Attribute)
    (hl : slice route.attributes 0 route.updateLength.toNat = encodeAll l)
    (o path hop : Attribute) (ho : Ordered l o path hop) (hone : o.value.length = 1) :
    ∃ sent : List Attribute,
      encodeAll sent = [0x40, origin, 1] ++ o.value ++ path.canonical.encode ++
        hop.canonical.encode ++
        ([0x40, localPref, 4] ++ bytes32 route.tiebreak.localPref) ∧
      (∀ out q limit, serializeIbgp route out q limit =
        .ok (overlay out q (encodeAll sent), q + (encodeAll sent).length)) ∧
      (∀ out q tb, ∃ tb', parseLoop (overlay out q (encodeAll sent))
        (q + (encodeAll sent).length) ((encodeAll sent).length + 1) q tb =
          .ok (q + (encodeAll sent).length, tb')) ∧
      ((encodeAll sent).length < 2 ^ 16 → ∀ out q tb, ∃ tb',
        parseAttributes (overlay out q (encodeAll sent)) q
          (UInt16.ofNat (encodeAll sent).length) tb = .ok tb') := by
  have hblock : route.block = l := encodeAll_inj (h.slice_eq.symm.trans hl)
  have hall := h.tiled.2.2
  rw [hblock] at hall
  obtain ⟨x, hx, hexports⟩ := @ibgp_sends route o path hop (hblock.symm ▸ ho)
  have hvalue : o.value = [x] := by
    obtain ⟨v, hv⟩ := List.length_eq_one_iff.mp hone
    rw [hv, hx v [] hv]
  have hsent : ∀ a ∈ ibgpAttributes x path hop route.tiebreak.localPref, a.Accepted := by
    intro a ha
    simp only [ibgpAttributes, List.mem_cons, List.not_mem_nil, or_false] at ha
    obtain rfl | rfl | rfl | rfl := ha
    · exact (hall o ho.origin.1).congr ho.origin.2 hvalue
    · exact (hall path ho.path.1).congr rfl rfl
    · exact (hall hop ho.hop.1).congr rfl rfl
    · exact accepted_localPref _ _
  have hne : ibgpAttributes x path hop route.tiebreak.localPref ≠ [] := List.cons_ne_nil _ _
  refine ⟨_, ?_, hexports, parseLoop_encodeAll hne hsent, parseAttributes_encodeAll hne hsent⟩
  rw [encodeAll_ibgpAttributes, hvalue]
  simp [encodeAll, origin, localPref]

def plainOrigin : Attribute := wellKnown origin [0] (by decide)
def plainPath : Attribute := wellKnown asPath [2, 1, 0, 0, 0, 7] (by decide)
def plainHop : Attribute := wellKnown nextHop [10, 0, 0, 1] (by decide)

/-- An attribute of type zero in front, an AS_PATH with a two-byte length, and another attribute
behind the mandatory ones. -/
def orderedBlock : List Attribute :=
  [wellKnown 0 [9] (by decide), plainOrigin, ⟨0x50, asPath, [2, 1, 0, 0, 0, 7], by decide⟩,
    plainHop, wellKnown 4 [0, 0, 0, 1] (by decide)]

theorem ibgp_ordered_five :
    ∃ sent : List Attribute,
      encodeAll sent = [0x40, 1, 1, 0] ++ [0x40, 2, 6, 2, 1, 0, 0, 0, 7] ++
        [0x40, 3, 4, 10, 0, 0, 1] ++ [0x40, 5, 4, 0, 0, 0, 0] ∧
      ∀ out q limit, serializeIbgp (blockRoute (encodeAll orderedBlock)) out q limit =
        .ok (overlay out q (encodeAll sent), q + (encodeAll sent).length) := by
  obtain ⟨sent, hsent, hok, _⟩ := ibgp_ordered (blockRoute (encodeAll orderedBlock))
    (blockRoute_accepted (by decide +kernel)) orderedBlock (by decide +kernel)
    plainOrigin ⟨0x50, asPath, [2, 1, 0, 0, 0, 7], by decide⟩ plainHop
    ⟨by decide +kernel, by decide +kernel, by decide +kernel, by decide +kernel⟩ rfl
  refine ⟨sent, hsent.trans ?_, hok⟩
  decide +kernel

end FastParse
