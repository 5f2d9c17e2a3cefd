import FastParse.Phase3.LocalPref

namespace FastParse

open Framework Attr

section
variable {σ : Type}

/-- The loop of `parse_attributes` over any function in the place of `parse_attribute`; `s` is
what that function works on. -/
def parseLoopWith (call : σ → UInt8 → Nat → UInt16 → Exec σ) (m : Mem) (limit : Nat) :
    Nat → Nat → σ → Exec (Nat × σ)
  | 0, _, _ => .error .loop
  | fuel + 1, p, s => do
    let (typeCode, attrLength, value) := attrHeader m p
    let s ← call s typeCode value attrLength
    let p := value + attrLength.toNat
    if p < limit then parseLoopWith call m limit fuel p s
    else return (p, s)

theorem parseLoop_with (m : Mem) (limit fuel p : Nat) (tb : Tiebreak) :
    parseLoop m limit fuel p tb =
      parseLoopWith (fun tb typeCode p length => parseAttribute m typeCode p length tb) m limit
        fuel p tb := by
  induction fuel generalizing p tb with
  | zero => rfl
  | succ fuel ih => simp only [parseLoop, parseLoopWith, ih]

variable (call : σ → UInt8 → Nat → UInt16 → Exec σ)

/-- The call for the attribute that begins at `p`. -/
def callAt (m : Mem) (s : σ) (p : Nat) : Exec σ :=
  call s (attrHeader m p).1 (attrHeader m p).2.2 (attrHeader m p).2.1

theorem parseLoopWith_eq (m : Mem) (limit fuel p : Nat) (s : σ) :
    parseLoopWith call m limit (fuel + 1) p s = do
      let s ← callAt call m s p
      if attributeEnd m p < limit then parseLoopWith call m limit fuel (attributeEnd m p) s
      else return (attributeEnd m p, s) := by
  rw [parseLoopWith, callAt, attributeEnd_eq]

/-- A block that its attributes tile is walked from one to the next, up to its end. -/
theorem parseLoopWith_tiled {m : Mem} {limit fuel p : Nat} (h : Tiled m limit p) (hp : p < limit)
    (hfuel : limit - p < fuel) (s : σ) :
    parseLoopWith call m limit fuel p s = do
      let s ← (blockStations m limit p).foldlM (callAt call m) s
      return (limit, s) := by
  induction fuel generalizing p s with
  | zero => exact absurd hfuel (Nat.not_lt_zero _)
  | succ fuel ih =>
    have hlt := lt_attributeEnd m p
    have htiled : Tiled m limit (attributeEnd m p) := h.next hp
    have hle : attributeEnd m p ≤ limit := htiled.le
    rw [parseLoopWith_eq, blockStations_eq, if_pos ((h.slack_lt Attribute.slack_encode).mpr hp),
      List.foldlM_cons, bind_assoc]
    congr 1
    funext s1
    split_ifs with hmore
    · exact ih htiled hmore (by omega) s1
    · have hend : attributeEnd m p = limit := by omega
      have hstop : ¬ limit + 2 < limit := by omega
      rw [hend, blockStations_eq, if_neg hstop]
      rfl

end

/-- The calls of `parse_attribute`: the type of each attribute and the bytes it is handed. -/
def recordCall (m : Mem) (calls : List (UInt8 × List UInt8)) (typeCode : UInt8) (p : Nat)
    (length : UInt16) : Exec (List (UInt8 × List UInt8)) :=
  return calls ++ [(typeCode, slice m p length.toNat)]

theorem foldlM_recordCall (m : Mem) (stations : List Nat) (calls : List (UInt8 × List UInt8)) :
    stations.foldlM (callAt (recordCall m) m) calls =
      .ok (calls ++ (stations.map (attributeAt m)).map fun a => (a.typeCode, a.value)) := by
  rw [List.map_map]
  exact foldlM_record (fun _ _ => rfl) stations calls

namespace Attribute

/-- What `parse_attribute` asserts of a value; an ORIGIN has a byte to read. -/
structure MeetsRules (a : Attribute) : Prop where
  origin : a.typeCode = Attr.origin → a.value ≠ []
  asPath : a.typeCode = Attr.asPath → ∃ n, asPathCount (bytesMem a.value) 0 a.length = .ok n
  fourBytes : a.typeCode = nextHop ∨ a.typeCode = multiExitDisc ∨ a.typeCode = localPref →
    a.value.length = 4
  community : a.typeCode = Attr.community → a.value.length % 4 = 0
  extendedCommunities : a.typeCode = Attr.extendedCommunities → a.value.length % 8 = 0
  largeCommunity : a.typeCode = Attr.largeCommunity → a.value.length % 12 = 0
  atomicAggregate : a.typeCode = Attr.atomicAggregate → a.value.length = 0
  aggregator : a.typeCode = Attr.aggregator → a.value.length = 8
  asPathlimit : a.typeCode = Attr.asPathlimit → a.value.length = 5

/-- The path length of a value that `as_path_count` accepts. -/
def pathCount (value : List UInt8) : UInt8 :=
  (asPathCount (bytesMem value) 0 (UInt16.ofNat value.length)).toOption.getD 0

def word (value : List UInt8) : UInt32 := load32 (bytesMem value) 0

/-- The field an attribute is kept in, if there is one. -/
def keep (a : Attribute) (tb : Tiebreak) : Tiebreak :=
  if a.typeCode = Attr.origin then { tb with origin := a.value.headD 0 }
  else if a.typeCode = Attr.asPath then { tb with pathLength := pathCount a.value }
  else if a.typeCode = multiExitDisc then { tb with med := word a.value }
  else if a.typeCode = localPref then { tb with localPref := word a.value }
  else tb

end Attribute

def lastValue (typeCode : UInt8) (l : List Attribute) : Option (List UInt8) :=
  (l.filter fun a => a.typeCode = typeCode).getLast?.map Attribute.value

/-- The record that a list of attributes makes of `tb`. -/
def decoded (l : List Attribute) (tb : Tiebreak) : Tiebreak :=
  { tb with
    origin := ((lastValue origin l).map fun value => value.headD 0).getD tb.origin
    pathLength := ((lastValue asPath l).map Attribute.pathCount).getD tb.pathLength
    med := ((lastValue multiExitDisc l).map Attribute.word).getD tb.med
    localPref := ((lastValue localPref l).map Attribute.word).getD tb.localPref }

theorem lastValue_snoc (typeCode : UInt8) (l : List Attribute) (a : Attribute) :
    lastValue typeCode (l ++ [a]) =
      if a.typeCode = typeCode then some a.value else lastValue typeCode l := by
  rw [lastValue, List.filter_append, List.filter_singleton]
  split_ifs with h
  · simp [h]
  · simp [h, lastValue]

/-- Later attributes overwrite earlier ones of their type and no others. -/
theorem foldl_keep (l : List Attribute) (tb : Tiebreak) :
    l.foldl (fun tb a => a.keep tb) tb = decoded l tb := by
  induction l using List.reverseRecOn with
  | nil => rfl
  | append_singleton l a ih =>
    rw [List.foldl_append, List.foldl_cons, List.foldl_nil, ih, Attribute.keep]
    simp only [decoded, lastValue_snoc]
    have hcodes : origin ≠ asPath ∧ origin ≠ multiExitDisc ∧ origin ≠ localPref ∧
        asPath ≠ multiExitDisc ∧ asPath ≠ localPref ∧ multiExitDisc ≠ localPref := by decide
    by_cases ho : a.typeCode = origin
    · simp [ho, hcodes]
    · by_cases hp : a.typeCode = asPath
      · simp [hp, hcodes, hcodes.1.symm]
      · by_cases hm : a.typeCode = multiExitDisc
        · simp [hm, hcodes, hcodes.2.1.symm, hcodes.2.2.2.1.symm]
        · by_cases hl : a.typeCode = localPref
          · simp [hl, hcodes.2.2.1.symm, hcodes.2.2.2.2.1.symm, hcodes.2.2.2.2.2.symm]
          · simp [ho, hp, hm, hl]

namespace Attribute

variable {a : Attribute}

theorem keep_other (tb : Tiebreak) (ho : a.typeCode ≠ Attr.origin) (hp : a.typeCode ≠ Attr.asPath)
    (hm : a.typeCode ≠ multiExitDisc) (hl : a.typeCode ≠ localPref) : a.keep tb = tb := by
  rw [keep, if_neg ho, if_neg hp, if_neg hm, if_neg hl]

theorem length_of (n : UInt16) (h : a.value.length = n.toNat) : n = a.length := by
  rw [length, h, UInt16.ofNat_toNat]

theorem length_mod {n : UInt16} (h : a.value.length % n.toNat = 0) : 0 = a.length % n := by
  apply UInt16.toNat_inj.mp
  rw [UInt16.toNat_mod, toNat_length, h]
  rfl

/-- An attribute that meets its rules passes its assertion and is kept. -/
theorem parseAttribute_keep (h : a.MeetsRules) {m : Mem} {v : Nat}
    (hm : slice m v a.value.length = a.value) (tb : Tiebreak) :
    parseAttribute m a.typeCode v a.length tb = .ok (a.keep tb) := by
  have hbytes : slice (bytesMem a.value) 0 a.value.length = slice m v a.value.length := by
    rw [slice_bytesMem, hm]
  have passes {p : Prop} [Decidable p] (hp : p) {tb' : Tiebreak} (e : tb' = tb) :
      (do
        assert p
        return tb) = Except.ok (ε := Halt) tb' := assert_bind_ok.mpr ⟨hp, by rw [e]; rfl⟩
  rw [parseAttribute]
  by_cases hbig : a.typeCode > 64 ∧ attrSet ≠ a.typeCode
  · have small (c : UInt8) (hc : ¬ c > 64) : a.typeCode ≠ c := fun e => hc (e ▸ hbig.1)
    rw [if_pos hbig, keep_other tb (small _ (by decide)) (small _ (by decide))
      (small _ (by decide)) (small _ (by decide))]
    rfl
  rw [if_neg hbig]
  by_cases ho : a.typeCode = Attr.origin
  · cases hv : a.value with
    | nil => exact absurd hv (h.origin ho)
    | cons b rest =>
      rw [hv, List.length_cons, slice_succ] at hm
      have hb : m v = b := (List.cons.inj hm).1
      rw [if_pos ho, keep, if_pos ho, hv, hb]
      rfl
  rw [if_neg ho]
  by_cases hp : a.typeCode = Attr.asPath
  · obtain ⟨n, hn⟩ := h.asPath hp
    have hcount := @asPathCount_congr (bytesMem a.value) m 0 v a.length n
      (by rw [toNat_length, hbytes]) hn
    rw [if_pos hp, hcount, keep, if_neg ho, if_pos hp, pathCount]
    change Except.ok _ = Except.ok { tb with pathLength :=
      (asPathCount (bytesMem a.value) 0 a.length).toOption.getD 0 }
    rw [hn]
    rfl
  rw [if_neg hp]
  by_cases hnext : a.typeCode = nextHop
  · have hother := keep_other tb ho hp (by rw [hnext]; decide) (by rw [hnext]; decide)
    rw [if_pos hnext]
    exact passes (length_of 4 (h.fourBytes (.inl hnext))) hother
  rw [if_neg hnext]
  by_cases hmed : a.typeCode = multiExitDisc
  · have hfour := h.fourBytes (.inr (.inl hmed))
    rw [if_pos hmed, keep, if_neg ho, if_neg hp, if_pos hmed, word]
    rw [hfour] at hbytes
    rw [load32_congr hbytes]
    exact assert_bind_ok.mpr ⟨length_of 4 hfour, rfl⟩
  rw [if_neg hmed]
  by_cases hpref : a.typeCode = localPref
  · have hfour := h.fourBytes (.inr (.inr hpref))
    rw [if_pos hpref, keep, if_neg ho, if_neg hp, if_neg hmed, if_pos hpref, word]
    rw [hfour] at hbytes
    rw [load32_congr hbytes]
    exact assert_bind_ok.mpr ⟨length_of 4 hfour, rfl⟩
  rw [if_neg hpref, keep_other tb ho hp hmed hpref]
  split_ifs with hc he hlarge hatomic haggregator hlimit
  · exact passes (length_mod (h.community hc)) rfl
  · exact passes (length_mod (h.extendedCommunities he)) rfl
  · exact passes (length_mod (h.largeCommunity hlarge)) rfl
  · exact passes (length_of 0 (h.atomicAggregate hatomic)) rfl
  · exact passes (length_of 8 (h.aggregator haggregator)) rfl
  · exact passes (length_of 5 (h.asPathlimit hlimit)) rfl
  · rfl

end Attribute

theorem foldlM_parseAt {m : Mem} (stations : List Nat)
    (h : ∀ q ∈ stations, (attributeAt m q).MeetsRules) (tb : Tiebreak) :
    stations.foldlM (parseAt m) tb =
      .ok ((stations.map (attributeAt m)).foldl (fun tb a => a.keep tb) tb) := by
  rw [List.foldl_map]
  apply foldlM_eq_foldl
  intro q hq tb
  have hkeep := @Attribute.parseAttribute_keep _ (h q hq) m (attrHeader m q).2.2
    (by rw [attributeAt_length]; rfl) tb
  rwa [length_attributeAt] at hkeep

/-- Every non-empty list of attributes that meet their rules, wherever its encoding lies in
memory: the loop ends at the end of the block, has called `parse_attribute` once for each
attribute in turn, and what it has filled in comes from the last attribute of each type. -/
theorem parse_attributes_decodes (m : Mem) (p : Nat) (l : List Attribute) (hne : l ≠ [])
    (hsize : (encodeAll l).length ≤ 65535) (hrules : ∀ a ∈ l, a.MeetsRules)
    (hm : slice m p (encodeAll l).length = encodeAll l) (tb : Tiebreak) :
    parseAttributes m p (UInt16.ofNat (encodeAll l).length) tb = .ok (decoded l tb) ∧
    ∀ fuel, (encodeAll l).length < fuel →
      parseLoop m (p + (encodeAll l).length) fuel p tb =
        .ok (p + (encodeAll l).length, decoded l tb) ∧
      parseLoopWith (recordCall m) m (p + (encodeAll l).length) fuel p [] =
        .ok (p + (encodeAll l).length, l.map fun a => (a.typeCode, a.value)) := by
  obtain ⟨htiled, hblock⟩ := tiled_of_slice hm
  have hpos : p < p + (encodeAll l).length := by
    cases l with
    | nil => exact absurd rfl hne
    | cons a l =>
      have hslack := a.slack_encode
      rw [encodeAll_cons, List.length_append]
      omega
  have hstations : (blockStations m (p + (encodeAll l).length) p).map (attributeAt m) = l := hblock
  have hfold := foldlM_parseAt (blockStations m (p + (encodeAll l).length) p)
    (fun q hq => hrules _ (hstations ▸ List.mem_map_of_mem hq)) tb
  rw [hstations, foldl_keep] at hfold
  have hlen : (UInt16.ofNat (encodeAll l).length).toNat = (encodeAll l).length := by
    rw [UInt16.toNat_ofNat']
    omega
  refine ⟨?_, ?_⟩
  · rw [parseAttributes_iff, hlen]
    exact ⟨hpos, htiled, hfold⟩
  · intro fuel hfuel
    have hrounds : p + (encodeAll l).length - p < fuel := by omega
    refine ⟨parseLoop_of_tiled htiled hpos hrounds hfold, ?_⟩
    rw [parseLoopWith_tiled (recordCall m) htiled hpos hrounds, foldlM_recordCall, hstations]
    rfl

/-- Two ORIGINs, the later one of which counts. -/
def originTwice : List Attribute :=
  [plainOrigin, plainPath, plainHop, wellKnown multiExitDisc [0, 0, 0, 5] (by decide),
    wellKnown origin [2] (by decide)]

theorem originTwice_rules : ∀ a ∈ originTwice, a.MeetsRules := by
  have path : ∀ a ∈ originTwice, a.typeCode = asPath →
      (asPathCount (bytesMem a.value) 0 a.length).toOption = some 1 := by decide
  intro a ha
  constructor
  · exact (by decide : ∀ a ∈ originTwice, a.typeCode = origin → a.value ≠ []) a ha
  · intro hp
    have hcount := path a ha hp
    cases hc : asPathCount (bytesMem a.value) 0 a.length with
    | error halt =>
      rw [hc] at hcount
      cases hcount
    | ok n => exact ⟨n, rfl⟩
  · exact (by decide : ∀ a ∈ originTwice, a.typeCode = nextHop ∨ a.typeCode = multiExitDisc ∨
      a.typeCode = localPref → a.value.length = 4) a ha
  all_goals
    intro hcode
    revert a
    decide

theorem parse_attributes_decodes_five :
    parseAttributes (bytesMem (encodeAll originTwice)) 0 31 ⟨7, 7, 7, 7, 7, 7, 7, 7⟩ =
      .ok { (⟨7, 7, 7, 7, 7, 7, 7, 7⟩ : Tiebreak) with
        origin := 2, pathLength := 1, med := 0x05000000 } :=
  (parse_attributes_decodes (bytesMem (encodeAll originTwice)) 0 originTwice (by decide)
    (by decide) originTwice_rules (slice_bytesMem _) ⟨7, 7, 7, 7, 7, 7, 7, 7⟩).1

end FastParse
