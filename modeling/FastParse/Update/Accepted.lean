import FastParse.Update.Block

namespace FastParse

open Framework

/-- `parse_attribute` on the attribute that begins at `p`. -/
def parseAt (m : Mem) (tb : Tiebreak) (p : Nat) : Exec Tiebreak :=
  parseAttribute m (attrHeader m p).1 (attrHeader m p).2.2 (attrHeader m p).2.1 tb

def blockStations (m : Mem) (limit p : Nat) : List Nat :=
  stations Attribute.encode (attributeAt m) 2 limit p

theorem blockStations_eq (m : Mem) (limit p : Nat) :
    blockStations m limit p =
      if p + 2 < limit then p :: blockStations m limit (attributeEnd m p) else [] :=
  stations_eq Attribute.slack_encode p

theorem lt_attributeEnd (m : Mem) (p : Nat) : p + 2 < attributeEnd m p := by
  rw [attributeEnd, after]
  exact Nat.add_lt_add_left (attributeAt m p).slack_encode p

/-- One round of the loop of `parse_attributes`. -/
theorem parseLoop_eq (m : Mem) (limit fuel p : Nat) (tb : Tiebreak) :
    parseLoop m limit (fuel + 1) p tb = do
      let tb ← parseAt m tb p
      if attributeEnd m p < limit then parseLoop m limit fuel (attributeEnd m p) tb
      else return (attributeEnd m p, tb) := by
  rw [parseLoop, parseAt, attributeEnd_eq]

/-- A walk that stops at `limit` has parsed the attributes of the block in turn. -/
theorem parseLoop_tiled {m : Mem} {limit fuel p : Nat} {tb tb' : Tiebreak}
    (h : parseLoop m limit fuel p tb = .ok (limit, tb')) :
    p < limit ∧ Tiled m limit p ∧
      (blockStations m limit p).foldlM (parseAt m) tb = .ok tb' := by
  induction fuel generalizing p tb with
  | zero => cases h
  | succ fuel ih =>
    rw [parseLoop_eq, bind_eq_ok] at h
    obtain ⟨tb1, h1, h⟩ := h
    have hlt := lt_attributeEnd m p
    split_ifs at h with hmore
    · obtain ⟨_, htiled, hrest⟩ := ih h
      have hp : p < limit := by omega
      have htiled : Tiled m limit p := .step hp htiled
      refine ⟨hp, htiled, ?_⟩
      rw [blockStations_eq, if_pos ((htiled.slack_lt Attribute.slack_encode).mpr hp),
        List.foldlM_cons, bind_eq_ok]
      exact ⟨tb1, h1, hrest⟩
    · obtain ⟨hend, htb⟩ := Prod.mk.inj (Except.ok.inj h)
      have hp : p < limit := by omega
      have htiled : Tiled m limit p := by
        apply Lands.step hp
        change Tiled m limit (attributeEnd m p)
        rw [hend]
        exact .done
      refine ⟨hp, htiled, ?_⟩
      have hstop : ¬ limit + 2 < limit := by omega
      rw [blockStations_eq, if_pos ((htiled.slack_lt Attribute.slack_encode).mpr hp), hend,
        blockStations_eq, if_neg hstop, ← htb, List.foldlM_cons, bind_eq_ok]
      exact ⟨tb1, h1, rfl⟩

theorem parseLoop_of_tiled {m : Mem} {limit fuel p : Nat} {tb tb' : Tiebreak}
    (htiled : Tiled m limit p) (hp : p < limit) (hfuel : limit - p < fuel)
    (h : (blockStations m limit p).foldlM (parseAt m) tb = .ok tb') :
    parseLoop m limit fuel p tb = .ok (limit, tb') := by
  induction fuel generalizing p tb with
  | zero => exact absurd hfuel (Nat.not_lt_zero _)
  | succ fuel ih =>
    have hmore := (htiled.slack_lt Attribute.slack_encode).mpr hp
    rw [blockStations_eq, if_pos hmore, List.foldlM_cons, bind_eq_ok] at h
    obtain ⟨tb1, h1, hrest⟩ := h
    rw [parseLoop_eq, bind_eq_ok]
    refine ⟨tb1, h1, ?_⟩
    have hlt := lt_attributeEnd m p
    cases htiled with
    | done => exact absurd hp (Nat.lt_irrefl _)
    | step _ htiled =>
      change Tiled m limit (attributeEnd m p) at htiled
      have hle : attributeEnd m p ≤ limit := htiled.le
      split_ifs with hnext
      · exact ih htiled hnext (by omega) hrest
      · have hend : attributeEnd m p = limit := by omega
        have hstop : ¬ limit + 2 < limit := by omega
        rw [hend, blockStations_eq, if_neg hstop] at hrest
        cases hrest
        rw [hend]
        rfl

theorem parseAttributes_iff {m : Mem} {p : Nat} {length : UInt16} {tb tb' : Tiebreak} :
    parseAttributes m p length tb = .ok tb' ↔
      p < p + length.toNat ∧ Tiled m (p + length.toNat) p ∧
        (blockStations m (p + length.toNat) p).foldlM (parseAt m) tb = .ok tb' := by
  rw [parseAttributes]
  constructor
  · intro h
    obtain ⟨⟨e, tb1⟩, hloop, h⟩ := bind_eq_ok.mp h
    obtain ⟨hend, h⟩ := assert_bind_ok.mp h
    cases h
    rw [hend] at hloop
    exact parseLoop_tiled hloop
  · rintro ⟨hp, htiled, h⟩
    rw [bind_eq_ok]
    refine ⟨(p + length.toNat, tb'), parseLoop_of_tiled htiled hp ?_ h, ?_⟩
    · omega
    · exact assert_bind_ok.mpr ⟨rfl, rfl⟩

/-- If `x` returns, then so does `y`. -/
def Follows {α : Type} (x y : Exec α) : Prop := ∀ a, x = .ok a → ∃ b, y = .ok b

section
variable {α : Type}

theorem follows_pure (x : Exec α) (b : α) : Follows x (pure b) := fun _ _ => ⟨b, rfl⟩

theorem follows_ite {p : Prop} [Decidable p] {x x' y y' : Exec α} (h : Follows x y)
    (h' : Follows x' y') : Follows (if p then x else x') (if p then y else y') := by
  split_ifs
  · exact h
  · exact h'

theorem follows_assert {p : Prop} [Decidable p] {f g : Unit → Exec α}
    (h : Follows (f ()) (g ())) : Follows (assert p >>= f) (assert p >>= g) := by
  intro a ha
  obtain ⟨hp, ha⟩ := assert_bind_ok.mp ha
  obtain ⟨b, hb⟩ := h a ha
  exact ⟨b, assert_bind_ok.mpr ⟨hp, hb⟩⟩

end

/-- What the segment at `p` makes of the path count. -/
def segmentCount (m : Mem) (p : Nat) (pathCount : UInt16) : Exec UInt16 :=
  if m p = 1 then pure (pathCount + 1)
  else if m p = 2 then pure (pathCount + (m (p + 1)).toUInt16)
  else do
    assert (m p < 3)
    pure pathCount

/-- One round of the loop of `as_path_count`. -/
theorem asPathLoop_eq (m : Mem) (p fuel : Nat) (length offset count : UInt16) :
    asPathLoop m p length (fuel + 1) offset count =
      if offset < length then do
        let count ← segmentCount m (p + offset.toNat) count
        asPathLoop m p length fuel
          (offset + (2 + 4 * (m (p + offset.toNat + 1)).toUInt16)) count
      else .ok (offset, count) := by
  simp only [asPathLoop, segmentCount]
  split_ifs
  · rfl
  · rfl
  · rw [bind_assoc]
  · rfl

theorem even_add_segment {offset : UInt16} (count : UInt16) (h : offset.toNat % 2 = 0) :
    (offset + (2 + 4 * count)).toNat % 2 = 0 := by
  have htwo : (2 : UInt16).toNat = 2 := rfl
  have hfour : (4 : UInt16).toNat = 4 := rfl
  rw [UInt16.toNat_add, UInt16.toNat_add, UInt16.toNat_mul, htwo, hfour]
  omega

theorem asPathLoop_even {m : Mem} {p fuel : Nat} {length offset count offset' count' : UInt16}
    (heven : offset.toNat % 2 = 0)
    (h : asPathLoop m p length fuel offset count = .ok (offset', count')) :
    offset'.toNat % 2 = 0 := by
  induction fuel generalizing offset count with
  | zero => cases h
  | succ fuel ih =>
    rw [asPathLoop_eq] at h
    split_ifs at h
    · obtain ⟨count1, _, h⟩ := bind_eq_ok.mp h
      exact ih (even_add_segment _ heven) h
    · cases h
      exact heven

theorem asPathCount_even {m : Mem} {p : Nat} {length : UInt16} {count : UInt8}
    (h : asPathCount m p length = .ok count) : length.toNat % 2 = 0 := by
  obtain ⟨⟨offset, n⟩, hloop, h⟩ := bind_eq_ok.mp h
  obtain ⟨rfl, _⟩ := assert_bind_ok.mp h
  exact asPathLoop_even rfl hloop

/-- Nothing outside a path of even length is read. -/
theorem asPathLoop_congr {m m' : Mem} {p p' fuel : Nat} {length offset count : UInt16}
    (hslice : slice m p length.toNat = slice m' p' length.toNat) (hlen : length.toNat % 2 = 0)
    (heven : offset.toNat % 2 = 0) :
    asPathLoop m p length fuel offset count = asPathLoop m' p' length fuel offset count := by
  induction fuel generalizing offset count with
  | zero => rfl
  | succ fuel ih =>
    rw [asPathLoop_eq, asPathLoop_eq]
    by_cases hlt : offset < length
    · have hlt' : offset.toNat < length.toNat := UInt16.lt_iff_toNat_lt.mp hlt
      have htype := slice_inj hslice offset.toNat hlt'
      have hcount := slice_inj hslice (offset.toNat + 1) (by omega)
      rw [← Nat.add_assoc, ← Nat.add_assoc] at hcount
      rw [if_pos hlt, if_pos hlt, segmentCount, segmentCount, htype, hcount]
      congr 1
      funext count1
      exact ih (even_add_segment _ heven)
    · rw [if_neg hlt, if_neg hlt]

theorem asPathCount_congr {m m' : Mem} {p p' : Nat} {length : UInt16} {count : UInt8}
    (hslice : slice m p length.toNat = slice m' p' length.toNat)
    (h : asPathCount m p length = .ok count) : asPathCount m' p' length = .ok count := by
  have hlen := asPathCount_even h
  rw [asPathCount] at h ⊢
  rwa [← asPathLoop_congr hslice hlen rfl]

/-- Whether an attribute passes its assertions depends on its type and its value. -/
theorem parseAttribute_follows {m m' : Mem} {typeCode : UInt8} {p p' : Nat} {length : UInt16}
    (hslice : slice m p length.toNat = slice m' p' length.toNat) (tb tb' : Tiebreak) :
    Follows (parseAttribute m typeCode p length tb)
      (parseAttribute m' typeCode p' length tb') := by
  rw [parseAttribute, parseAttribute]
  repeat'
    first
      | apply follows_ite
      | exact follows_pure _ _
      | exact follows_assert (follows_pure _ _)
  · intro a ha
    obtain ⟨count, hcount, _⟩ := bind_eq_ok.mp ha
    exact ⟨_, bind_eq_ok.mpr ⟨count, asPathCount_congr hslice hcount, rfl⟩⟩

theorem slice_bytesMem (l : List UInt8) : slice (bytesMem l) 0 l.length = l := by
  apply List.ext_getElem (length_slice _ _ _)
  intro i _ hi
  simp [slice, bytesMem, hi]

namespace Attribute

def length (a : Attribute) : UInt16 := UInt16.ofNat a.value.length

theorem toNat_length (a : Attribute) : a.length.toNat = a.value.length := by
  rw [length, UInt16.toNat_ofNat']
  exact Nat.mod_eq_of_lt (Nat.lt_of_lt_of_le a.fits (lengthLimit_le _))

def Accepted (a : Attribute) : Prop :=
  ∀ tb, ∃ tb', parseAttribute (bytesMem a.value) a.typeCode 0 a.length tb = .ok tb'

theorem Accepted.congr {a b : Attribute} (h : a.Accepted) (htype : a.typeCode = b.typeCode)
    (hvalue : a.value = b.value) : b.Accepted := by
  intro tb
  obtain ⟨tb', htb⟩ := h tb
  rw [htype, length, hvalue] at htb
  exact ⟨tb', htb⟩

end Attribute

theorem length_attributeAt (m : Mem) (p : Nat) :
    (attributeAt m p).length = (attrHeader m p).2.1 := by
  rw [Attribute.length, attributeAt_length, UInt16.ofNat_toNat]

theorem value_attributeAt (m : Mem) (p : Nat) :
    slice m (attrHeader m p).2.2 (attrHeader m p).2.1.toNat =
      slice (bytesMem (attributeAt m p).value) 0 (attrHeader m p).2.1.toNat := by
  rw [← attributeAt_length, slice_bytesMem, attributeAt_length]
  rfl

theorem accepted_attributeAt (m : Mem) (p : Nat) :
    (attributeAt m p).Accepted ↔ ∀ tb, ∃ tb', parseAt m tb p = .ok tb' := by
  constructor
  · intro h tb
    obtain ⟨tb1, h1⟩ := h tb
    rw [length_attributeAt] at h1
    exact parseAttribute_follows (value_attributeAt m p).symm tb tb tb1 h1
  · intro h tb
    obtain ⟨tb1, h1⟩ := h tb
    rw [length_attributeAt]
    exact parseAttribute_follows (value_attributeAt m p) tb tb tb1 h1

/-- `parse_attributes` accepts a non-empty block that its attributes tile, if each of them
passes its assertions. -/
theorem parseAttributes_accepts {m : Mem} {p : Nat} {length : UInt16} :
    (∃ tb tb', parseAttributes m p length tb = .ok tb') ↔
      0 < length.toNat ∧ Tiled m (p + length.toNat) p ∧
        ∀ a ∈ block m (p + length.toNat) p, a.Accepted := by
  constructor
  · rintro ⟨tb, tb', h⟩
    obtain ⟨hp, htiled, hfold⟩ := parseAttributes_iff.mp h
    refine ⟨by omega, htiled, ?_⟩
    intro a ha
    obtain ⟨q, hq, rfl⟩ := List.mem_map.mp ha
    obtain ⟨u, v, hstep⟩ := exists_step hq hfold
    rw [accepted_attributeAt]
    exact fun tb => parseAttribute_follows rfl u tb v hstep
  · rintro ⟨hlen, htiled, hall⟩
    have hstep : ∀ q ∈ blockStations m (p + length.toNat) p, ∀ tb,
        ∃ tb', parseAt m tb q = .ok tb' := by
      intro q hq
      rw [← accepted_attributeAt]
      exact hall _ (List.mem_map_of_mem hq)
    obtain ⟨tb', htb⟩ := run_returns hstep ⟨0, 0, 0, 0, 0, 0, 0, 0⟩
    exact ⟨_, tb', parseAttributes_iff.mpr ⟨by omega, htiled, htb⟩⟩

namespace Route

def block (route : Route) : List Attribute :=
  FastParse.block route.attributes route.updateLength.toNat 0

/-- `parse_attributes` has accepted the bytes stored with the route. -/
def Accepted (route : Route) : Prop :=
  ∃ m p, slice route.attributes 0 route.updateLength.toNat =
      slice m p route.updateLength.toNat ∧
    ∃ tb tb', parseAttributes m p route.updateLength tb = .ok tb'

/-- The attributes of a route tile its block, wherever it has been parsed. -/
theorem block_eq_of_slice {route : Route} {m : Mem} {p : Nat}
    (hslice : slice route.attributes 0 route.updateLength.toNat =
      slice m p route.updateLength.toNat)
    (htiled : Tiled m (p + route.updateLength.toNat) p) :
    Tiled route.attributes route.updateLength.toNat 0 ∧
      route.block = FastParse.block m (p + route.updateLength.toNat) p := by
  have hbytes := htiled.slice_eq
  rw [Nat.add_sub_cancel_left, ← hslice] at hbytes
  have hlen := congrArg List.length hbytes
  rw [length_slice] at hlen
  have hboth := tiled_of_slice (m := route.attributes) (p := 0)
    (l := FastParse.block m (p + route.updateLength.toNat) p) (by rw [← hlen, hbytes])
  rw [Nat.zero_add, ← hlen] at hboth
  exact hboth

theorem Accepted.tiled {route : Route} (h : route.Accepted) :
    0 < route.updateLength.toNat ∧ Tiled route.attributes route.updateLength.toNat 0 ∧
      ∀ a ∈ route.block, a.Accepted := by
  obtain ⟨m, p, hslice, h⟩ := h
  obtain ⟨hlen, htiled, hall⟩ := parseAttributes_accepts.mp h
  obtain ⟨hstored, hblock⟩ := block_eq_of_slice hslice htiled
  refine ⟨hlen, hstored, ?_⟩
  rw [hblock]
  exact hall

/-- The stored bytes are the attributes one behind the other. -/
theorem Accepted.slice_eq {route : Route} (h : route.Accepted) :
    slice route.attributes 0 route.updateLength.toNat = encodeAll route.block :=
  h.tiled.2.1.slice_eq

theorem Accepted.length_eq {route : Route} (h : route.Accepted) :
    (encodeAll route.block).length = route.updateLength.toNat := by
  rw [← h.slice_eq, length_slice]

end Route

end FastParse
