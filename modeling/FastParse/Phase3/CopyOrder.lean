import FastParse.Phase3.CopyExport

namespace FastParse

open Framework Attr

theorem seek_filter {wanted : UInt8} {p : Attribute → Bool}
    (hp : ∀ a, wanted ≤ a.typeCode → p a = true) (l : List Attribute) :
    seek wanted (l.filter p) = ((seek wanted l).1, (seek wanted l).2.filter p) := by
  induction l with
  | nil => rfl
  | cons a l ih =>
    rw [List.filter_cons, seek]
    by_cases hless : a.typeCode < wanted
    · rw [if_pos hless]
      split_ifs
      · rw [seek, if_pos hless, ih]
      · exact ih
    · have hle : wanted ≤ a.typeCode := UInt8.not_lt.mp hless
      rw [if_neg hless, if_pos (hp a hle), seek, if_neg hless]

/-- Attributes that no search stops at may as well not be there. -/
theorem picked_filter {wanted : List UInt8} {p : Attribute → Bool}
    (hp : ∀ w ∈ wanted, ∀ a, w ≤ a.typeCode → p a = true) (l : List Attribute) :
    picked wanted (l.filter p) = picked wanted l := by
  induction wanted generalizing l with
  | nil => rfl
  | cons w wanted ih =>
    rw [picked, picked, seek_filter (hp w List.mem_cons_self)]
    simp only
    rw [ih fun v hv => hp v (List.mem_cons_of_mem w hv)]

/-- A search that cannot skip anything looks at one attribute. -/
theorem seek_of_le {wanted : UInt8} {l : List Attribute} (h : ∀ a ∈ l, wanted ≤ a.typeCode) :
    seek wanted l = (l.head?.filter fun a => a.typeCode = wanted, l.tail) := by
  cases l with
  | nil => rfl
  | cons a l =>
    have hless : ¬ a.typeCode < wanted := UInt8.not_lt.mpr (h a List.mem_cons_self)
    rw [seek, if_neg hless]
    by_cases hwanted : a.typeCode = wanted
    · simp [Option.filter, hwanted]
    · simp [Option.filter, hwanted]

section
variable {w : UInt8} {ws : List UInt8} {l : List Attribute}

theorem not_mem_picked (h : w ∉ ws) : w ∉ types (picked ws l) :=
  fun hw => h ((picked_types ws l).subset hw)

/-- The types found by the first search and by the others. -/
theorem mem_types_picked (v : UInt8) :
    v ∈ types (picked (w :: ws) l) ↔
      v ∈ types (seek w l).1.toList ∨ v ∈ types (picked ws (seek w l).2) := by
  rw [picked, types, List.map_append, List.mem_append]
  rfl

theorem mem_picked_first (h : ∀ a ∈ l, w ≤ a.typeCode) (hws : w ∉ ws) :
    w ∈ types (picked (w :: ws) l) ↔ (types l).head? = some w := by
  rw [mem_types_picked, seek_of_le h]
  have hrest := not_mem_picked (l := l.tail) hws
  cases l with
  | nil => simpa [types] using hrest
  | cons a l =>
    by_cases ha : a.typeCode = w
    · simp [types, Option.filter, ha]
    · simpa [types, Option.filter, ha] using hrest

theorem mem_picked_rest (h : ∀ a ∈ l, w ≤ a.typeCode) {v : UInt8} (hv : v ≠ w) :
    v ∈ types (picked (w :: ws) l) ↔ v ∈ types (picked ws l.tail) := by
  rw [mem_types_picked, seek_of_le h]
  have hfound : v ∉ types (l.head?.filter fun a => a.typeCode = w).toList := by
    cases l with
    | nil => simp [types]
    | cons a l =>
      by_cases ha : a.typeCode = w
      · simp [types, Option.filter, ha, hv]
      · simp [types, Option.filter, ha]
  simp only [hfound, false_or]

/-- Once the wanted type is out of the way the next ones are all above it. -/
theorem lt_of_mem_tail (h : ∀ a ∈ l, w ≤ a.typeCode) (hn : (types l).Nodup)
    (hw : w ∈ types l → (types l).head? = some w) : ∀ a ∈ l.tail, w < a.typeCode := by
  intro a ha
  have hmem := List.mem_of_mem_tail ha
  apply UInt8.lt_of_le_of_ne (h a hmem)
  rintro rfl
  have hhead := hw (List.mem_map_of_mem hmem)
  cases l with
  | nil => cases ha
  | cons b l =>
    have hb : b.typeCode = a.typeCode := by simpa [types] using hhead
    rw [types, List.map_cons, List.nodup_cons] at hn
    apply hn.1
    rw [hb]
    exact List.mem_map_of_mem ha

end

/-- Attributes of type zero left out, ORIGIN is the first attribute, AS_PATH the second and
NEXT_HOP the third, as far as they are there, and COMMUNITY comes later, with no attribute of
a higher type between the third one and it. -/
structure InPlace (ts : List UInt8) : Prop where
  origin : origin ∈ ts → ts[0]? = some origin
  asPath : asPath ∈ ts → ts[1]? = some asPath
  nextHop : nextHop ∈ ts → ts[2]? = some nextHop
  community : community ∈ ts → (ts.drop 3).find? (community ≤ ·) = some community

/-- A last search finds the first attribute it does not skip, or nothing. -/
theorem mem_picked_last {w : UInt8} {l : List Attribute} :
    w ∈ types (picked [w] l) ↔ (types l).find? (w ≤ ·) = some w := by
  have hfind : (types l).find? (w ≤ ·) =
      (l.find? fun a => w ≤ a.typeCode).map Attribute.typeCode := List.find?_map
  rw [hfind, mem_types_picked, seek_eq]
  cases l.find? fun a => w ≤ a.typeCode with
  | none => simp [types, picked]
  | some a =>
    by_cases ha : a.typeCode = w
    · simp [types, picked, Option.filter, ha]
    · simp [types, picked, Option.filter, ha]

theorem head_types_drop (l : List Attribute) (k : Nat) :
    (types (l.drop k)).head? = (types l)[k]? := by
  rw [types, List.map_drop, List.head?_drop]
  rfl

theorem mem_types_of_drop {w : UInt8} {l : List Attribute} {k : Nat}
    (h : w ∈ types (l.drop k)) : w ∈ types l := by
  rw [types, List.map_drop] at h
  exact List.mem_of_mem_drop h

theorem nodup_types_drop {l : List Attribute} (h : (types l).Nodup) (k : Nat) :
    (types (l.drop k)).Nodup := by
  rw [types, List.map_drop]
  exact h.sublist (List.drop_sublist k _)

/-- Without attributes of type zero: one search after the other. -/
theorem all_picked_iff {l : List Attribute} (hpos : ∀ a ∈ l, origin ≤ a.typeCode)
    (hn : (types l).Nodup) :
    (∀ w ∈ [origin, asPath, nextHop, community], w ∈ types l →
        w ∈ types (picked [origin, asPath, nextHop, community] l)) ↔ InPlace (types l) := by
  have hfirst : origin ∈ types (picked [origin, asPath, nextHop, community] l) ↔
      (types l)[0]? = some origin := by
    rw [mem_picked_first hpos (by decide), ← head_types_drop, List.drop_zero]
  have hrest {v : UInt8} (hv : v ≠ origin) :
      v ∈ types (picked [origin, asPath, nextHop, community] l) ↔
        v ∈ types (picked [asPath, nextHop, community] l.tail) := mem_picked_rest hpos hv
  -- behind an ORIGIN that is first, or absent
  have stage2 (h1 : origin ∈ types l → (types l)[0]? = some origin) :
      ∀ a ∈ l.drop 1, asPath ≤ a.typeCode := by
    rw [List.drop_one]
    apply lt_of_mem_tail hpos hn
    rwa [← head_types_drop, List.drop_zero] at h1
  have hsecond (h2 : ∀ a ∈ l.drop 1, asPath ≤ a.typeCode) :
      asPath ∈ types (picked [origin, asPath, nextHop, community] l) ↔
        (types l)[1]? = some asPath := by
    rw [hrest (by decide), ← List.drop_one, mem_picked_first h2 (by decide), head_types_drop]
  have stage3 (h2 : ∀ a ∈ l.drop 1, asPath ≤ a.typeCode)
      (h : asPath ∈ types l → (types l)[1]? = some asPath) :
      ∀ a ∈ l.drop 2, nextHop ≤ a.typeCode := by
    have htail : l.drop 2 = (l.drop 1).tail := by rw [List.tail_drop]
    rw [htail]
    apply lt_of_mem_tail h2 (nodup_types_drop hn 1)
    intro hmem
    rw [head_types_drop]
    exact h (mem_types_of_drop hmem)
  have hthird (h2 : ∀ a ∈ l.drop 1, asPath ≤ a.typeCode)
      (h3 : ∀ a ∈ l.drop 2, nextHop ≤ a.typeCode) :
      (nextHop ∈ types (picked [origin, asPath, nextHop, community] l) ↔
        (types l)[2]? = some nextHop) ∧
      (community ∈ types (picked [origin, asPath, nextHop, community] l) ↔
        ((types l).drop 3).find? (community ≤ ·) = some community) := by
    constructor
    · rw [hrest (by decide), ← List.drop_one, mem_picked_rest h2 (by decide), List.tail_drop,
        mem_picked_first h3 (by decide), head_types_drop]
    · rw [hrest (by decide), ← List.drop_one, mem_picked_rest h2 (by decide), List.tail_drop,
        mem_picked_rest h3 (by decide), List.tail_drop, mem_picked_last, types, List.map_drop]
      rfl
  constructor
  · intro hall
    have h1 := fun hw => hfirst.mp (hall origin (by decide) hw)
    have h2 := stage2 h1
    have hpath := fun hw => (hsecond h2).mp (hall asPath (by decide) hw)
    have h3 := stage3 h2 hpath
    exact ⟨h1, hpath, fun hw => (hthird h2 h3).1.mp (hall nextHop (by decide) hw),
      fun hw => (hthird h2 h3).2.mp (hall community (by decide) hw)⟩
  · intro h
    have h2 := stage2 h.origin
    have h3 := stage3 h2 h.asPath
    intro w hw hmem
    simp only [List.mem_cons, List.not_mem_nil, or_false] at hw
    obtain rfl | rfl | rfl | rfl := hw
    · exact hfirst.mpr (h.origin hmem)
    · exact (hsecond h2).mpr (h.asPath hmem)
    · exact (hthird h2 h3).1.mpr (h.nextHop hmem)
    · exact (hthird h2 h3).2.mpr (h.community hmem)

/-- What `serialize_copy` is meant to copy. -/
def copyable (l : List Attribute) : List Attribute :=
  l.filter fun a => a.typeCode ∈ [origin, asPath, nextHop, community]

/-- Each of those attributes is in the output, once, and nothing else is. -/
def CopiesAll (route : Route) : Prop :=
  ∃ sent : List Attribute, Kind.copy.Exports route (encodeAll sent) ∧
    sent.Perm ((copyable route.block).map Attribute.canonical)

theorem types_canonical (l : List Attribute) : types (l.map Attribute.canonical) = types l := by
  rw [types, List.map_map]
  rfl

section
variable {l : List Attribute}

theorem inPlace_iff (hn : (types l).Nodup) :
    (∀ w ∈ [origin, asPath, nextHop, community], w ∈ types l →
        w ∈ types (picked [origin, asPath, nextHop, community] l)) ↔
      InPlace ((types l).filter (0 < ·)) := by
  have htypes : (types l).filter (0 < ·) = types (l.filter fun a => 0 < a.typeCode) := by
    rw [types, List.filter_map]
    rfl
  have hpos : ∀ a ∈ l.filter fun a => 0 < a.typeCode, origin ≤ a.typeCode := by
    intro a ha
    have h0 : 0 < a.typeCode := of_decide_eq_true (List.mem_filter.mp ha).2
    exact UInt8.le_iff_toNat_le.mpr (UInt8.lt_iff_toNat_lt.mp h0)
  rw [htypes, ← all_picked_iff hpos (htypes ▸ hn.filter _),
    picked_filter (p := fun a => 0 < a.typeCode)]
  · apply forall₂_congr
    intro w hw
    apply imp_congr_left
    have hw0 : 0 < w := by
      simp only [List.mem_cons, List.not_mem_nil, or_false] at hw
      obtain rfl | rfl | rfl | rfl := hw <;> decide
    rw [← htypes, List.mem_filter]
    simp [hw0]
  · intro w hw a ha
    have hw0 : 0 < w := by
      simp only [List.mem_cons, List.not_mem_nil, or_false] at hw
      obtain rfl | rfl | rfl | rfl := hw <;> decide
    exact decide_eq_true (UInt8.lt_of_lt_of_le hw0 ha)

theorem picked_perm_iff (hn : (types l).Nodup) :
    (picked [origin, asPath, nextHop, community] l).Perm (copyable l) ↔
      InPlace ((types l).filter (0 < ·)) := by
  rw [← inPlace_iff hn]
  have hsub := picked_sublist [origin, asPath, nextHop, community] l
  have hpicked := picked_types [origin, asPath, nextHop, community] l
  constructor
  · intro h w hw hmem
    obtain ⟨a, ha, rfl⟩ := List.mem_map.mp hmem
    apply List.mem_map_of_mem
    rw [h.mem_iff, copyable, List.mem_filter]
    exact ⟨ha, decide_eq_true hw⟩
  · intro h
    have hnodup : l.Nodup := List.Nodup.of_map Attribute.typeCode hn
    rw [copyable, List.perm_ext_iff_of_nodup (hnodup.sublist hsub) (hnodup.filter _)]
    intro a
    rw [List.mem_filter]
    constructor
    · intro ha
      exact ⟨hsub.subset ha, decide_eq_true (hpicked.subset (List.mem_map_of_mem ha))⟩
    · rintro ⟨ha, hw⟩
      obtain ⟨b, hb, htype⟩ := List.mem_map.mp
        (h a.typeCode (of_decide_eq_true hw) (List.mem_map_of_mem ha))
      rwa [← List.inj_on_of_nodup_map hn (hsub.subset hb) ha htype]

/-- The attributes found are ordered by their types, so nothing depends on where they stood. -/
theorem picked_eq_of_perm {l' : List Attribute} (hp : l'.Perm l) (hn : (types l).Nodup)
    (h : InPlace ((types l).filter (0 < ·))) (h' : InPlace ((types l').filter (0 < ·))) :
    picked [origin, asPath, nextHop, community] l' =
      picked [origin, asPath, nextHop, community] l := by
  have hn' : (types l').Nodup := (hp.map Attribute.typeCode).nodup_iff.mpr hn
  have hsorted (k : List Attribute) : (picked [origin, asPath, nextHop, community] k).Pairwise
      fun a b => a.typeCode < b.typeCode := by
    apply List.pairwise_map.mp
    exact List.Pairwise.sublist (picked_types _ k) (by decide)
  apply List.Perm.eq_of_pairwise _ (hsorted l') (hsorted l)
  · exact ((picked_perm_iff hn').mpr h').trans
      ((hp.filter _).trans ((picked_perm_iff hn).mpr h).symm)
  · intro a b _ _ hab hba
    exact absurd (UInt8.lt_trans hab hba) (UInt8.lt_irrefl _)

end

theorem copiesAll_iff {route : Route} (hn : (types route.block).Nodup) :
    CopiesAll route ↔ InPlace ((types route.block).filter (0 < ·)) := by
  have hexports := copy_exports route
  rw [← picked_perm_iff hn]
  constructor
  · rintro ⟨sent, hsent, hperm⟩
    rw [encodeAll_inj (hsent.unique hexports)] at hperm
    have htypes := hperm.map Attribute.typeCode
    rw [picked_perm_iff hn, ← inPlace_iff hn]
    intro w hw hmem
    obtain ⟨a, ha, rfl⟩ := List.mem_map.mp hmem
    have hcopy : a.typeCode ∈ types ((copyable route.block).map Attribute.canonical) := by
      rw [types_canonical]
      apply List.mem_map_of_mem
      exact List.mem_filter.mpr ⟨ha, decide_eq_true hw⟩
    rw [← types_canonical]
    exact htypes.mem_iff.mpr hcopy
  · intro hperm
    exact ⟨_, hexports, hperm.map _⟩

/-- For every accepted block in which no type occurs twice; permutations of one another are
copied alike. -/
theorem copies_all_iff (route : Route) (h : route.Accepted) (hn : (types route.block).Nodup) :
    slice route.attributes 0 route.updateLength.toNat = encodeAll route.block ∧
      (CopiesAll route ↔ InPlace ((types route.block).filter (0 < ·))) ∧
      ∀ route' : Route, route'.Accepted → route'.block.Perm route.block →
        InPlace ((types route.block).filter (0 < ·)) →
        InPlace ((types route'.block).filter (0 < ·)) →
        ∀ bs, Kind.copy.Exports route' bs ↔ Kind.copy.Exports route bs := by
  refine ⟨h.slice_eq, copiesAll_iff hn, ?_⟩
  intro route' _ hp hplace hplace' bs
  have hexports := copy_exports route
  have hexports' := copy_exports route'
  rw [picked_eq_of_perm hp hn hplace hplace'] at hexports'
  constructor
  · intro hbs
    rw [hbs.unique hexports']
    exact hexports
  · intro hbs
    rw [hbs.unique hexports]
    exact hexports'

/-- MULTI_EXIT_DISC and LOCAL_PREF behind the three mandatory attributes, in either order. -/
def ordered : List UInt8 :=
  plainAttributes 0 7 ++ [0x80, 4, 4, 0, 0, 0, 1] ++ [0x40, 5, 4, 0, 0, 0, 1]

def reordered : List UInt8 :=
  plainAttributes 0 7 ++ [0x40, 5, 4, 0, 0, 0, 1] ++ [0x80, 4, 4, 0, 0, 0, 1]

theorem copies_all_ordered :
    CopiesAll (blockRoute ordered) ∧
      ∀ bs, Kind.copy.Exports (blockRoute reordered) bs ↔
        Kind.copy.Exports (blockRoute ordered) bs := by
  obtain ⟨_, hall, hperm⟩ := copies_all_iff (blockRoute ordered)
    (blockRoute_accepted (by decide +kernel)) (by decide +kernel)
  have hplace : InPlace ((types (blockRoute ordered).block).filter (0 < ·)) :=
    ⟨by decide +kernel, by decide +kernel, by decide +kernel, by decide +kernel⟩
  refine ⟨hall.mpr hplace, hperm (blockRoute reordered) (blockRoute_accepted (by decide +kernel))
    (by decide +kernel) hplace ?_⟩
  exact ⟨by decide +kernel, by decide +kernel, by decide +kernel, by decide +kernel⟩

/-- Without an AS_PATH the search for it uses up the NEXT_HOP. -/
theorem next_hop_dropped :
    (blockRoute ([0x40, 1, 1, 0] ++ [0x40, 3, 4, 10, 0, 0, 1])).Accepted ∧
      (types (blockRoute ([0x40, 1, 1, 0] ++ [0x40, 3, 4, 10, 0, 0, 1])).block).Nodup ∧
      ¬ CopiesAll (blockRoute ([0x40, 1, 1, 0] ++ [0x40, 3, 4, 10, 0, 0, 1])) := by
  have hn : (types (blockRoute
      ([0x40, 1, 1, 0] ++ [0x40, 3, 4, 10, 0, 0, 1])).block).Nodup := by decide +kernel
  refine ⟨blockRoute_accepted (by decide +kernel), hn, ?_⟩
  rw [copiesAll_iff hn]
  intro h
  have hplace := h.nextHop (by decide +kernel)
  revert hplace
  decide +kernel

end FastParse
