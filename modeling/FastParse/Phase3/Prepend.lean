import FastParse.Phase3.LocalPref

namespace FastParse

open Framework Attr

/-- What `prepend` reads of a path that passes its assertions. -/
def Locals.prependReads (c : Locals) : List Nat :=
  match c.attrPtr with
  | none => []
  | some p => [p, p + 1] ++ (List.range (c.attrLength.toNat - 2)).map (p + 6 + ·)

/-- Nothing else is read. -/
theorem Locals.prepend_congr {c : Locals} {attrs attrs' : Mem}
    (h : ∀ i ∈ c.prependReads, attrs i = attrs' i) (as : UInt32) :
    c.prepend attrs as = c.prepend attrs' as := by
  rw [Locals.prependReads] at h
  cases hp : c.attrPtr with
  | none => simp only [Locals.prepend, hp]
  | some p =>
    rw [hp] at h
    have h0 : attrs p = attrs' p := h p (by simp)
    have h1 : attrs (p + 1) = attrs' (p + 1) := h (p + 1) (by simp)
    have hvalue : slice attrs (p + 6) (c.attrLength.toNat - 2) =
        slice attrs' (p + 6) (c.attrLength.toNat - 2) := by
      apply slice_congr
      intro i hi
      exact h _ (List.mem_append_right _ (List.mem_map_of_mem (List.mem_range.mpr hi)))
    simp only [Locals.prepend, hp, h0, h1, putValue_eq, hvalue]

/-- `serialize_ebgp` up to `prepend`. -/
def beforePrepend (route : Route) (out : Mem) (q : Nat) : Exec Locals := do
  let attrs := route.attributes
  let limit := route.updateLength.toNat
  let c ← (localsInit out q).get attrs limit origin
  let c ← c.set attrs 1 0x40 origin c.attrPtr
  c.get attrs limit asPath

theorem serializeEbgp_beforePrepend (route : Route) (out : Mem) (q : Nat) (limit : UInt16) :
    serializeEbgp route out q limit = do
      let c ← beforePrepend route out q
      let c ← c.prepend route.attributes 42
      let c ← c.copies route.attributes route.updateLength.toNat [nextHop, community]
      return (c.out, c.q) := by
  rw [serializeEbgp_eq]
  simp only [beforePrepend, bind_assoc]

/-- The value of a path with one more AS in its first segment. -/
def prependedPath (as : UInt32) (n : UInt8) (asns rest : List UInt8) : List UInt8 :=
  [2, n + 1] ++ bytes32 as ++ asns ++ rest

/-- The value that comes out: the path without its first AS, and four bytes behind it. -/
def shiftedPath (as : UInt32) (n : UInt8) (asns rest behind : List UInt8) : List UInt8 :=
  [2, n + 1] ++ bytes32 as ++ ((asns ++ rest).drop 4 ++ behind)

/-- `serialize_ebgp` sends the path with AS 42 in front, and `prepend` stays inside the path that
has been found. -/
structure PathKept (route : Route) (n : UInt8) (asns rest : List UInt8) : Prop where
  sent : ∃ sent : List Attribute, Kind.ebgp.Exports route (encodeAll sent) ∧
    (sent.filter fun a => a.typeCode = asPath).map Attribute.value =
      [prependedPath 42 n asns rest]
  inside : ∀ out q c, beforePrepend route out q = .ok c → ∀ p, c.attrPtr = some p →
    ∀ i ∈ c.prependReads, p ≤ i ∧ i < p + c.attrLength.toNat

section
variable {route : Route} {o path hop : Attribute} {n : UInt8} {asns rest : List UInt8}

theorem beforePrepend_found (ho : Ordered route.block o path hop) (out : Mem) (q : Nat) :
    ∃ c, beforePrepend route out q = .ok c ∧ c.Holds route.attributes (some path) := by
  obtain ⟨horigin, hpath, _⟩ := ho.searches
  obtain ⟨c1, hget, hc1, hfound⟩ := (localsInit_wrote route out q).get origin
  rw [horigin] at hfound
  obtain ⟨c2, _, hset, hc2, _⟩ := hc1.set hfound
  obtain ⟨c3, hgetPath, _, hholds⟩ := hc2.get asPath
  rw [hpath] at hholds
  refine ⟨c3, ?_, hholds⟩
  simp only [beforePrepend, hget, hset, bind, Except.bind]
  exact hgetPath

/-- The copy runs four bytes past a path that has at least one AS. -/
theorem prependReads_outside {c : Locals} {r : Nat} (hc : c.FoundAt route.attributes r)
    (hlen : 6 ≤ (attributeAt route.attributes r).value.length) :
    (attrHeader route.attributes r).2.2 + c.attrLength.toNat + 3 ∈ c.prependReads := by
  rw [attributeAt_length] at hlen
  rw [Locals.prependReads, hc.ptr, hc.length]
  apply List.mem_append_right
  rw [List.mem_map]
  refine ⟨(attrHeader route.attributes r).2.1.toNat - 3, ?_, ?_⟩
  · rw [List.mem_range]
    omega
  · omega

/-- A path and a NEXT_HOP in one block leave room for four more bytes in the length field. -/
theorem path_room (h : route.Accepted) (ho : Ordered route.block o path hop) :
    path.value.length + 4 < 2 ^ 16 := by
  have hsub : [path, hop].Sublist route.block := by
    rw [← ho.picked_eq]
    apply (picked_sublist _ _).trans
    exact (List.sublist_append_right _ _).trans (seek_sublist origin route.block)
  have hlen := (hsub.flatMap Attribute.encode).length_le
  change _ ≤ (encodeAll route.block).length at hlen
  rw [h.length_eq] at hlen
  have hword := route.updateLength.toNat_lt
  have hpath := path.length_encode
  have hhop := hop.slack_encode
  simp only [List.flatMap_cons, List.flatMap_nil, List.append_nil, List.length_append] at hlen
  split_ifs at hpath
  · omega
  · omega

theorem length_path (hvalue : path.value = 2 :: n :: (asns ++ rest))
    (hasns : asns.length = 4 * n.toNat) (hn : 1 ≤ n) : 6 ≤ path.value.length := by
  have hone : 1 ≤ n.toNat := UInt8.le_iff_toNat_le.mp hn
  rw [hvalue]
  simp only [List.length_cons, List.length_append]
  omega

/-- The copy begins behind the first AS and goes on for four bytes behind the path. -/
theorem copied_eq {attrs : Mem} {r : Nat} {seq : UInt8}
    (hvalue : (attributeAt attrs r).value = seq :: n :: (asns ++ rest))
    (hlen : 6 ≤ (attributeAt attrs r).value.length) :
    attrs ((attrHeader attrs r).2.2 + 1) = n ∧
      slice attrs ((attrHeader attrs r).2.2 + 6) ((attrHeader attrs r).2.1.toNat - 2) =
        (asns ++ rest).drop 4 ++
          slice attrs ((attrHeader attrs r).2.2 + (attrHeader attrs r).2.1.toNat) 4 := by
  rw [attributeAt_length] at hlen
  obtain ⟨k, hk⟩ : ∃ k, (attrHeader attrs r).2.1.toNat = k + 6 :=
    ⟨(attrHeader attrs r).2.1.toNat - 6, by omega⟩
  change slice attrs _ _ = _ at hvalue
  generalize (attrHeader attrs r).2.2 = p at *
  rw [hk, slice_succ, slice_succ] at hvalue
  obtain ⟨_, hvalue⟩ := List.cons.inj hvalue
  obtain ⟨hn, hvalue⟩ := List.cons.inj hvalue
  have hsix : p + 1 + 1 + 4 = p + 6 := rfl
  have hfour : (slice attrs (p + 1 + 1) 4).length = 4 := length_slice _ _ _
  have hend : p + 6 + k = p + (k + 6) := by omega
  have hdrop : (asns ++ rest).drop 4 = slice attrs (p + 6) k := by
    rw [← hvalue, Nat.add_comm k 4, slice_add, hsix, List.drop_append_of_le_length hfour.ge,
      List.drop_of_length_le hfour.le, List.nil_append]
  have hcount : k + 6 - 2 = k + 4 := by omega
  refine ⟨hn, ?_⟩
  rw [hk, hdrop, hcount, slice_add, hend]

/-- What `prepend` writes is an attribute again, with the four bytes behind the path in it. -/
theorem prependedAt_behind {attrs : Mem} {r : Nat} {seq : UInt8}
    (htype : (attributeAt attrs r).typeCode = asPath)
    (hvalue : (attributeAt attrs r).value = seq :: n :: (asns ++ rest))
    (hlen : 6 ≤ (attributeAt attrs r).value.length)
    (hroom : (attributeAt attrs r).value.length + 4 < 2 ^ 16) (as : UInt32) :
    ∃ a : Attribute, a.typeCode = asPath ∧
      a.value = shiftedPath as n asns rest
        (slice attrs ((attrHeader attrs r).2.2 + (attrHeader attrs r).2.1.toNat) 4) ∧
      prependedAt attrs r as = a.encode := by
  obtain ⟨hcount, hcopied⟩ := copied_eq hvalue hlen
  have hbehind := length_slice attrs ((attrHeader attrs r).2.2 + (attrHeader attrs r).2.1.toNat) 4
  generalize slice attrs ((attrHeader attrs r).2.2 + (attrHeader attrs r).2.1.toNat) 4 =
    behind at *
  have hsize : (shiftedPath as n asns rest behind).length =
      (attributeAt attrs r).value.length + 4 := by
    rw [hvalue] at hlen ⊢
    simp only [shiftedPath, List.length_cons, List.length_append, List.length_nil,
      List.length_drop, length_bytes32, hbehind] at hlen ⊢
    omega
  have hword : 4 + (attrHeader attrs r).2.1 =
      UInt16.ofNat (shiftedPath as n asns rest behind).length := by
    rw [hsize, ← length_attributeAt, UInt16.add_comm]
    exact (UInt16.ofNat_add _ 4).symm
  have hheader : (attrHeader attrs r).1 = asPath := htype
  refine ⟨Attribute.written (attrs r) asPath (shiftedPath as n asns rest behind)
    (hsize ▸ hroom), rfl, rfl, ?_⟩
  rw [Attribute.encode_written, ← hword, prependedAt]
  simp only [hheader, hcount, hcopied, shiftedPath, List.append_assoc]

theorem prependedAt_eq {attrs : Mem} {r : Nat} {seq : UInt8}
    (htype : (attributeAt attrs r).typeCode = asPath)
    (hvalue : (attributeAt attrs r).value = seq :: n :: (asns ++ rest))
    (hlen : 6 ≤ (attributeAt attrs r).value.length)
    (hroom : (attributeAt attrs r).value.length + 4 < 2 ^ 16) (as : UInt32) :
    ∃ behind, behind.length = 4 ∧ ∃ a : Attribute, a.typeCode = asPath ∧
      a.value = shiftedPath as n asns rest behind ∧ prependedAt attrs r as = a.encode :=
  ⟨_, length_slice _ _ _, prependedAt_behind htype hvalue hlen hroom as⟩

/-- The copies behind the path are of other types. -/
theorem picked_other {wanted : List UInt8} {t : UInt8} (h : t ∉ wanted) (l : List Attribute) :
    ((picked wanted l).map Attribute.canonical).filter (fun a => a.typeCode = t) = [] := by
  rw [List.filter_eq_nil_iff]
  intro a ha
  obtain ⟨b, hb, rfl⟩ := List.mem_map.mp ha
  have htype := (picked_types wanted l).subset (List.mem_map_of_mem hb)
  rw [decide_eq_true_eq]
  intro e
  apply h
  rw [← e]
  exact htype

theorem ebgp_sends (h : route.Accepted) (ho : Ordered route.block o path hop)
    (hvalue : path.value = 2 :: n :: (asns ++ rest)) (hlen : 6 ≤ path.value.length)
    (hroom : n < 255) :
    ∃ sent : List Attribute, ∃ behind : List UInt8, behind.length = 4 ∧
      Kind.ebgp.Exports route (encodeAll sent) ∧
      (sent.filter fun a => a.typeCode = asPath).map Attribute.value =
        [shiftedPath 42 n asns rest behind] := by
  obtain ⟨horigin, hpath, _⟩ := ho.searches
  have hopen : ∀ a, (seek asPath (seek origin route.block).2).1 = some a → a.Prependable := by
    intro a ha
    obtain rfl := Option.some.inj (hpath.symm.trans ha)
    exact ⟨n, _, hvalue, hroom⟩
  obtain ⟨x, bs, _, hbs, hexports⟩ := ebgp_exports horigin hopen
  obtain ⟨r, rfl, rfl⟩ := hbs path hpath
  obtain ⟨behind, hbehind, a, htype, hshifted, hencode⟩ :=
    prependedAt_eq ho.path.2 hvalue hlen (path_room h ho) 42
  have horiginType : (wellKnown origin [x] (by decide : 1 < 256)).typeCode ≠ asPath :=
    (by decide : origin ≠ asPath)
  refine ⟨wellKnown origin [x] (by decide : 1 < 256) :: a :: (picked [nextHop, community]
    (seek asPath (seek origin route.block).2).2).map Attribute.canonical, behind, hbehind, ?_, ?_⟩
  · rw [encodeAll_cons, encodeAll_cons, encode_wellKnown, ← List.append_assoc, ← hencode]
    exact hexports
  · rw [List.filter_cons_of_neg (by simpa using horiginType),
      List.filter_cons_of_pos (by simpa using htype), picked_other (by decide)]
    exact congrArg (fun v => [v]) hshifted

end

/-- For every ordered route whose path begins with a sequence that is neither empty nor full. -/
theorem path_never_kept (route : Route) (h : route.Accepted) (o path hop : Attribute)
    (ho : Ordered route.block o path hop) (n : UInt8) (asns rest : List UInt8)
    (hvalue : path.value = 2 :: n :: (asns ++ rest)) (hasns : asns.length = 4 * n.toNat)
    (hn : 1 ≤ n) (hroom : n < 255) :
    ¬ PathKept route n asns rest ∧
      ∃ sent : List Attribute, ∃ behind : List UInt8, behind.length = 4 ∧
        Kind.ebgp.Exports route (encodeAll sent) ∧
        (sent.filter fun a => a.typeCode = asPath).map Attribute.value =
          [shiftedPath 42 n asns rest behind] := by
  have hlen := length_path hvalue hasns hn
  refine ⟨?_, ebgp_sends h ho hvalue hlen hroom⟩
  intro hkept
  obtain ⟨c, hc, r, rfl, hfound⟩ := beforePrepend_found ho (fun _ => 0) 0
  have hinside := hkept.inside _ _ c hc _ hfound.ptr _ (prependReads_outside hfound hlen)
  omega

/-- ORIGIN, a path of two ASes and a set of one, NEXT_HOP. -/
def twoSegments : List Attribute :=
  [plainOrigin, wellKnown asPath [2, 2, 0, 0, 0, 7, 0, 0, 0, 8, 1, 1, 0, 0, 0, 9] (by decide),
    plainHop]

theorem path_never_kept_set :
    ¬ PathKept (blockRoute (encodeAll twoSegments)) 2 [0, 0, 0, 7, 0, 0, 0, 8]
        [1, 1, 0, 0, 0, 9] ∧
      ∃ sent : List Attribute, ∃ behind : List UInt8, behind.length = 4 ∧
        Kind.ebgp.Exports (blockRoute (encodeAll twoSegments)) (encodeAll sent) ∧
        (sent.filter fun a => a.typeCode = asPath).map Attribute.value =
          [shiftedPath 42 2 [0, 0, 0, 7, 0, 0, 0, 8] [1, 1, 0, 0, 0, 9] behind] :=
  path_never_kept (blockRoute (encodeAll twoSegments)) (blockRoute_accepted (by decide +kernel))
    plainOrigin (wellKnown asPath [2, 2, 0, 0, 0, 7, 0, 0, 0, 8, 1, 1, 0, 0, 0, 9] (by decide))
    plainHop ⟨by decide +kernel, by decide +kernel, by decide +kernel, by decide +kernel⟩
    2 [0, 0, 0, 7, 0, 0, 0, 8] [1, 1, 0, 0, 0, 9] rfl rfl (by decide) (by decide)

/-- The ORIGIN, the path and the NEXT_HOP that are sent for a path of one AS: in the place of that
AS stands the beginning of the NEXT_HOP. -/
def shiftedAttributes : List Attribute :=
  [plainOrigin, wellKnown asPath [2, 2, 0, 0, 0, 42, 0x40, 3, 4, 10] (by decide), plainHop]

theorem as_lost :
    (blockRoute (encodeAll [plainOrigin, plainPath, plainHop])).Accepted ∧
      Ordered (blockRoute (encodeAll [plainOrigin, plainPath, plainHop])).block plainOrigin
        plainPath plainHop ∧
      Kind.ebgp.Exports (blockRoute (encodeAll [plainOrigin, plainPath, plainHop]))
        (encodeAll shiftedAttributes) ∧
      ¬ PathKept (blockRoute (encodeAll [plainOrigin, plainPath, plainHop])) 1 [0, 0, 0, 7] [] := by
  have h : (blockRoute (encodeAll [plainOrigin, plainPath, plainHop])).Accepted :=
    blockRoute_accepted (by decide +kernel)
  have ho : Ordered (blockRoute (encodeAll [plainOrigin, plainPath, plainHop])).block plainOrigin
      plainPath plainHop :=
    ⟨by decide +kernel, by decide +kernel, by decide +kernel, by decide +kernel⟩
  obtain ⟨sent, _, _, hexports, _⟩ :=
    @ebgp_sends _ _ _ _ 1 [0, 0, 0, 7] [] h ho rfl (by decide) (by decide)
  have hrun : (serializeEbgp (blockRoute (encodeAll [plainOrigin, plainPath, plainHop]))
      (fun _ => 0) 0 0).map (fun o => slice o.1 0 o.2) = .ok (encodeAll shiftedAttributes) := by
    decide +kernel
  have hbytes : encodeAll sent = encodeAll shiftedAttributes := by
    have hsent : serializeEbgp _ (fun _ => 0) 0 0 = _ := hexports (fun _ => 0) 0 0
    rw [hsent] at hrun
    have hslice : slice (overlay _ 0 (encodeAll sent)) 0 (0 + (encodeAll sent).length) = _ :=
      Except.ok.inj hrun
    rwa [Nat.zero_add, slice_overlay] at hslice
  rw [hbytes] at hexports
  refine ⟨h, ho, hexports, ?_⟩
  intro hkept
  obtain ⟨sent', hexports', hvalue⟩ := hkept.sent
  rw [encodeAll_inj (hexports'.unique hexports)] at hvalue
  revert hvalue
  decide +kernel

end FastParse
