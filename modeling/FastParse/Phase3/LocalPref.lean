import FastParse.Phase3.Ordered
import FastParse.Routes.Exportable

namespace FastParse

open Framework Attr

theorem load32_toNat (m : Mem) (p : Nat) :
    (load32 m p).toNat =
      (m p).toNat + 2 ^ 8 * (m (p + 1)).toNat + 2 ^ 16 * (m (p + 2)).toNat +
        2 ^ 24 * (m (p + 3)).toNat := by
  have h0 := (m p).toNat_lt
  have h1 := (m (p + 1)).toNat_lt
  have h2 := (m (p + 2)).toNat_lt
  have h3 := (m (p + 3)).toNat_lt
  simp only [load32, UInt32.toNat_or, UInt32.toNat_shiftLeft, UInt8.toNat_toUInt32]
  generalize (m p).toNat = b0 at *
  generalize (m (p + 1)).toNat = b1 at *
  generalize (m (p + 2)).toNat = b2 at *
  generalize (m (p + 3)).toNat = b3 at *
  change b0 ||| b1 <<< 8 % 2 ^ 32 ||| b2 <<< 16 % 2 ^ 32 ||| b3 <<< 24 % 2 ^ 32 = _
  have e1 : b1 <<< 8 % 2 ^ 32 = b1 <<< 8 := by
    rw [Nat.shiftLeft_eq]
    omega
  have e2 : b2 <<< 16 % 2 ^ 32 = b2 <<< 16 := by
    rw [Nat.shiftLeft_eq]
    omega
  have e3 : b3 <<< 24 % 2 ^ 32 = b3 <<< 24 := by
    rw [Nat.shiftLeft_eq]
    omega
  -- each byte goes above the ones before it
  have s1 : b1 <<< 8 ||| b0 = b1 <<< 8 + b0 := (Nat.shiftLeft_add_eq_or_of_lt h0 b1).symm
  have l1 : b1 <<< 8 + b0 < 2 ^ 16 := by
    rw [Nat.shiftLeft_eq]
    omega
  have s2 := (Nat.shiftLeft_add_eq_or_of_lt l1 b2).symm
  have l2 : b2 <<< 16 + (b1 <<< 8 + b0) < 2 ^ 24 := by
    rw [Nat.shiftLeft_eq, Nat.shiftLeft_eq]
    omega
  have s3 := (Nat.shiftLeft_add_eq_or_of_lt l2 b3).symm
  rw [e1, e2, e3, Nat.or_comm b0, s1, Nat.or_comm _ (b2 <<< 16), s2, Nat.or_comm _ (b3 <<< 24), s3,
    Nat.shiftLeft_eq, Nat.shiftLeft_eq, Nat.shiftLeft_eq]
  omega

/-- Loaded in one byte order and stored in the other, the bytes come out reversed. -/
theorem bytes32_load32 (m : Mem) (p : Nat) :
    bytes32 (load32 m p) = (slice m p 4).reverse := by
  have h0 := (m p).toNat_lt
  have h1 := (m (p + 1)).toNat_lt
  have h2 := (m (p + 2)).toNat_lt
  have h3 := (m (p + 3)).toNat_lt
  have hload := load32_toNat m p
  have hslice : (slice m p 4).reverse = [m (p + 3), m (p + 2), m (p + 1), m p] := rfl
  have byte (k : UInt32) (b : UInt8) (h : (load32 m p).toNat >>> (k.toNat % 32) % 256 = b.toNat) :
      (load32 m p >>> k).toUInt8 = b := by
    apply UInt8.toNat_inj.mp
    rw [UInt32.toNat_toUInt8, UInt32.toNat_shiftRight]
    exact h
  have e0 : (load32 m p >>> 24).toUInt8 = m (p + 3) := by
    apply byte
    change (load32 m p).toNat >>> 24 % 256 = _
    rw [Nat.shiftRight_eq_div_pow, hload]
    omega
  have e1 : (load32 m p >>> 16).toUInt8 = m (p + 2) := by
    apply byte
    change (load32 m p).toNat >>> 16 % 256 = _
    rw [Nat.shiftRight_eq_div_pow, hload]
    omega
  have e2 : (load32 m p >>> 8).toUInt8 = m (p + 1) := by
    apply byte
    change (load32 m p).toNat >>> 8 % 256 = _
    rw [Nat.shiftRight_eq_div_pow, hload]
    omega
  have e3 : (load32 m p).toUInt8 = m p := by
    apply UInt8.toNat_inj.mp
    rw [UInt32.toNat_toUInt8, hload]
    omega
  rw [bytes32, e0, e1, e2, e3, hslice]

theorem load32_congr {m m' : Mem} {p p' : Nat} (h : slice m p 4 = slice m' p' 4) :
    load32 m p = load32 m' p' := by
  have h0 := slice_inj h 0 (by decide)
  have h1 := slice_inj h 1 (by decide)
  have h2 := slice_inj h 2 (by decide)
  have h3 := slice_inj h 3 (by decide)
  rw [Nat.add_zero, Nat.add_zero] at h0
  rw [load32, load32, h0, h1, h2, h3]

/-- The word that `parse_attribute` loads from a value. -/
def hostWord (value : List UInt8) : UInt32 := load32 (bytesMem value) 0

/-- A LOCAL_PREF replaces the preference that was there before. -/
def prefer (pref : UInt32) (a : Attribute) : UInt32 :=
  if a.typeCode = localPref then hostWord a.value else pref

/-- The record that comes out, if any, has the preference of the one that went in. -/
def KeepsPref (tb : Tiebreak) (x : Exec Tiebreak) : Prop :=
  ∀ tb', x = .ok tb' → tb'.localPref = tb.localPref

section
variable {tb : Tiebreak}

theorem keepsPref_pure {tb' : Tiebreak} (h : tb'.localPref = tb.localPref) :
    KeepsPref tb (pure tb') := by
  intro tb'' e
  cases e
  exact h

theorem keepsPref_bind {α : Type} {x : Exec α} {f : α → Exec Tiebreak}
    (h : ∀ a, KeepsPref tb (f a)) : KeepsPref tb (x >>= f) := by
  intro tb' e
  obtain ⟨a, _, e⟩ := bind_eq_ok.mp e
  exact h a tb' e

theorem keepsPref_ite {p : Prop} [Decidable p] {x y : Exec Tiebreak} (hx : p → KeepsPref tb x)
    (hy : ¬ p → KeepsPref tb y) : KeepsPref tb (if p then x else y) := by
  split_ifs with h
  · exact hx h
  · exact hy h

theorem parseAttribute_keepsPref {m : Mem} {typeCode : UInt8} {p : Nat} {length : UInt16}
    (h : typeCode ≠ localPref) : KeepsPref tb (parseAttribute m typeCode p length tb) := by
  rw [parseAttribute]
  repeat'
    first
      | refine keepsPref_ite (fun e => absurd e h) fun _ => ?_
      | refine keepsPref_ite (fun _ => ?_) fun _ => ?_
      | exact keepsPref_pure rfl
      | exact keepsPref_bind fun _ => keepsPref_pure rfl

end

theorem parseAttribute_localPref {m : Mem} {p : Nat} {length : UInt16} {tb tb' : Tiebreak}
    (h : parseAttribute m localPref p length tb = .ok tb') :
    4 = length ∧ tb'.localPref = load32 m p := by
  have hbranch : parseAttribute m localPref p length tb = (do
      assert (4 = length)
      return { tb with localPref := load32 m p }) := rfl
  rw [hbranch, assert_bind_ok] at h
  obtain ⟨hlen, h⟩ := h
  cases h
  exact ⟨hlen, rfl⟩

theorem parseAt_prefer {m : Mem} {p : Nat} {tb tb' : Tiebreak} (h : parseAt m tb p = .ok tb') :
    tb'.localPref = prefer tb.localPref (attributeAt m p) := by
  rw [prefer]
  by_cases htype : (attributeAt m p).typeCode = localPref
  · rw [if_pos htype]
    have hheader : (attrHeader m p).1 = localPref := htype
    rw [parseAt, hheader] at h
    obtain ⟨hlen, hpref⟩ := parseAttribute_localPref h
    have hvalue := value_attributeAt m p
    rw [← hlen] at hvalue
    rw [hpref]
    exact load32_congr hvalue
  · rw [if_neg htype]
    exact parseAttribute_keepsPref htype tb' h

theorem parseAttributes_prefer {m : Mem} {p : Nat} {length : UInt16} {tb tb' : Tiebreak}
    (h : parseAttributes m p length tb = .ok tb') :
    tb'.localPref = (block m (p + length.toNat) p).foldl prefer tb.localPref := by
  obtain ⟨_, _, hfold⟩ := parseAttributes_iff.mp h
  have hstep (tb : Tiebreak) (p : Nat) (tb' : Tiebreak) (_ : True)
      (hst : parseAt m tb p = .ok tb') :
      True ∧ tb'.localPref = prefer tb.localPref (attributeAt m p) :=
    ⟨trivial, parseAt_prefer hst⟩
  have hview := run_view Tiebreak.localPref (attributeAt m) hstep (fun _ _ => True) trivial hfold
  exact hview.2.1

/-- With at most one LOCAL_PREF it is the one that counts. -/
theorem foldl_prefer {l : List Attribute} (hn : (types l).Nodup) (pref : UInt32) :
    l.foldl prefer pref =
      ((l.find? fun a => a.typeCode = localPref).map fun a => hostWord a.value).getD pref := by
  induction l generalizing pref with
  | nil => rfl
  | cons a l ih =>
    obtain ⟨ha, hn⟩ := List.nodup_cons.mp hn
    rw [List.foldl_cons, ih hn, prefer]
    by_cases htype : a.typeCode = localPref
    · have hnone : (l.find? fun b => b.typeCode = localPref) = none := by
        rw [List.find?_eq_none]
        intro b hb hbt
        apply ha
        rw [htype, ← of_decide_eq_true hbt]
        exact List.mem_map_of_mem hb
      simp [htype, hnone]
    · simp [htype]

/-- The value the LOCAL_PREF of a route should be sent with. -/
def expectedPref (peer : Peer) (l : List Attribute) : List UInt8 :=
  ((l.find? fun a => a.typeCode = localPref).map Attribute.value).getD
    (bytes32 peer.staticLocalPref)

/-- The one LOCAL_PREF in what `serialize_ibgp` sends has that value. -/
def PrefSurvives (peer : Peer) (route : Route) : Prop :=
  ∃ sent : List Attribute, Kind.ibgp.Exports route (encodeAll sent) ∧
    (sent.filter fun a => a.typeCode = localPref).map Attribute.value =
      [expectedPref peer route.block]

section
variable {peer : Peer} {route : Route} {o path hop : Attribute}

theorem prefSurvives_iff_bytes (ho : Ordered route.block o path hop) :
    PrefSurvives peer route ↔
      bytes32 route.tiebreak.localPref = expectedPref peer route.block := by
  obtain ⟨x, _, hexports⟩ := ibgp_sends ho
  have hsent : ((ibgpAttributes x path hop route.tiebreak.localPref).filter
      fun a => a.typeCode = localPref).map Attribute.value =
        [bytes32 route.tiebreak.localPref] := by
    have hpath : path.canonical.typeCode = asPath := ho.path.2
    have hhop : hop.canonical.typeCode = nextHop := ho.hop.2
    simp [ibgpAttributes, hpath, hhop, wellKnown, origin, asPath, nextHop, localPref]
  constructor
  · rintro ⟨sent, hs, hvalue⟩
    rw [encodeAll_inj (hs.unique hexports), hsent] at hvalue
    exact (List.cons.inj hvalue).1
  · intro h
    refine ⟨_, hexports, ?_⟩
    rw [hsent, h]

/-- The preference of an imported route: that of its LOCAL_PREF, or the default of the peer. -/
theorem Route.Imported.localPref_eq (hi : route.Imported peer) (hn : (types route.block).Nodup) :
    route.tiebreak.localPref =
      ((route.block.find? fun a => a.typeCode = localPref).map fun a => hostWord a.value).getD
        peer.staticLocalPref := by
  obtain ⟨m, p, hslice, hparse⟩ := hi
  obtain ⟨_, htiled, _⟩ := parseAttributes_iff.mp hparse
  have hpref := parseAttributes_prefer hparse
  rw [← (Route.block_eq_of_slice hslice htiled).2, foldl_prefer hn] at hpref
  exact hpref

theorem length_localPref {a : Attribute} (ha : a.Accepted) (htype : a.typeCode = localPref) :
    a.value.length = 4 := by
  obtain ⟨tb', h⟩ := ha ⟨0, 0, 0, 0, 0, 0, 0, 0⟩
  rw [htype] at h
  rw [← a.toNat_length, ← (parseAttribute_localPref h).1]
  rfl

theorem bytes32_hostWord {value : List UInt8} (h : value.length = 4) :
    bytes32 (hostWord value) = value.reverse := by
  rw [hostWord, bytes32_load32, ← h, slice_bytesMem]

theorem Ordered.nodup {l : List Attribute} (ho : Ordered l o path hop) : (types l).Nodup := by
  apply ho.sorted.imp
  intro a b hlt e
  rw [e] at hlt
  exact UInt8.lt_irrefl _ hlt

end

/-- For every peer and every route imported from it whose attributes are ordered. -/
theorem pref_survives_iff (peer : Peer) (route : Route) (hi : route.Imported peer)
    (o path hop : Attribute) (ho : Ordered route.block o path hop) :
    PrefSurvives peer route ↔
      ∀ a ∈ route.block, a.typeCode = localPref → a.value.reverse = a.value := by
  rw [prefSurvives_iff_bytes ho, hi.localPref_eq ho.nodup, expectedPref]
  cases hfind : route.block.find? fun a => a.typeCode = localPref with
  | none =>
    rw [List.find?_eq_none] at hfind
    constructor
    · intro _ a ha htype
      exact absurd (decide_eq_true htype) (hfind a ha)
    · intro _
      rfl
  | some b =>
    have hb := List.mem_of_find?_eq_some hfind
    have hbt : b.typeCode = localPref := by simpa using List.find?_some hfind
    have hlen := length_localPref (hi.accepted.tiled.2.2 b hb) hbt
    simp only [Option.map_some, Option.getD_some]
    rw [bytes32_hostWord hlen]
    constructor
    · intro h a ha htype
      rw [List.inj_on_of_nodup_map ho.nodup ha hb (htype.trans hbt.symm)]
      exact h
    · intro h
      exact h b hb hbt

/-- The route with these attributes and this outcome of `parse_attributes`. -/
def parsedRoute (bytes : List UInt8) (tb : Tiebreak) : Route :=
  { blockRoute bytes with tiebreak := tb }

theorem exists_imported {peer : Peer} {bytes : List UInt8}
    (h : (parseAttributes (bytesMem bytes) 0 (UInt16.ofNat bytes.length)
      (phase1 peer ⟨0, 0, 0, 0, 0, 0, 0, 0⟩)).map (fun _ => ()) = .ok ()) :
    ∃ tb, (parsedRoute bytes tb).Imported peer := by
  obtain ⟨tb, htb, _⟩ := exists_of_map_eq_ok h
  exact ⟨tb, bytesMem bytes, 0, rfl, htb⟩

def preferred (value : List UInt8) (h : value.length < 256) : List Attribute :=
  [plainOrigin, plainPath, plainHop, wellKnown localPref value h]

theorem preferred_ordered (value : List UInt8) (h : value.length < 256) :
    Ordered (preferred value h) plainOrigin plainPath plainHop where
  sorted := (by decide : List.Pairwise (· < ·) [origin, asPath, nextHop, localPref])
  origin := by simp [preferred, plainOrigin, wellKnown]
  path := by simp [preferred, plainPath, wellKnown]
  hop := by simp [preferred, plainHop, wellKnown]

theorem pref_survives_palindrome :
    ∃ tb, PrefSurvives (peers 0)
      (parsedRoute (encodeAll (preferred [1, 0, 0, 1] (by decide))) tb) := by
  have himported : ∃ tb,
      (parsedRoute (encodeAll (preferred [1, 0, 0, 1] (by decide))) tb).Imported (peers 0) :=
    exists_imported (by decide +kernel)
  obtain ⟨tb, hi⟩ := himported
  have hblock : (parsedRoute (encodeAll (preferred [1, 0, 0, 1] (by decide))) tb).block =
      preferred [1, 0, 0, 1] (by decide) := by
    change (blockRoute _).block = _
    decide +kernel
  refine ⟨tb, (pref_survives_iff (peers 0) _ hi plainOrigin plainPath plainHop ?_).mpr ?_⟩
  · rw [hblock]
    exact preferred_ordered _ _
  · rw [hblock]
    decide +kernel

/-- A preference of 100 is sent as one of 100 * 2 ^ 24. -/
theorem pref_reversed :
    ∃ tb, (parsedRoute (encodeAll (preferred [0, 0, 0, 100] (by decide))) tb).Imported (peers 0) ∧
      Ordered (parsedRoute (encodeAll (preferred [0, 0, 0, 100] (by decide))) tb).block
        plainOrigin plainPath plainHop ∧
      ¬ PrefSurvives (peers 0)
        (parsedRoute (encodeAll (preferred [0, 0, 0, 100] (by decide))) tb) := by
  have himported : ∃ tb,
      (parsedRoute (encodeAll (preferred [0, 0, 0, 100] (by decide))) tb).Imported (peers 0) :=
    exists_imported (by decide +kernel)
  obtain ⟨tb, hi⟩ := himported
  have hblock : (parsedRoute (encodeAll (preferred [0, 0, 0, 100] (by decide))) tb).block =
      preferred [0, 0, 0, 100] (by decide) := by
    change (blockRoute _).block = _
    decide +kernel
  have ho : Ordered (parsedRoute (encodeAll (preferred [0, 0, 0, 100] (by decide))) tb).block
      plainOrigin plainPath plainHop := by
    rw [hblock]
    exact preferred_ordered _ _
  refine ⟨tb, hi, ho, ?_⟩
  rw [prefSurvives_iff_bytes ho, hi.localPref_eq ho.nodup, hblock]
  decide +kernel

end FastParse
