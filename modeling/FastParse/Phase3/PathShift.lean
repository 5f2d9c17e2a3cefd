import FastParse.Phase3.Prepend

namespace FastParse

open Framework Attr

namespace Locals

section
variable {attrs : Mem} {limit : Nat} {wanted : UInt8} {c c' : Locals}

/-- The search stops behind an attribute, and that is the one it has found if it has found one. -/
theorem getLoop_end {fuel : Nat} (hptr : c.attrPtr = none) (ht : Tiled attrs limit c.r)
    (h : getLoop attrs limit wanted fuel c = .ok c') :
    Tiled attrs limit c'.r ∧ ∀ p, c'.attrPtr = some p → c'.r = p + c'.attrLength.toNat := by
  induction fuel generalizing c with
  | zero => cases h
  | succ fuel ih =>
    rw [getLoop_eq] at h
    by_cases hr : c.r + 2 < limit
    · have hnext : Tiled attrs limit (c.pass attrs).r := Lands.next ht (by omega)
      rw [if_pos hr] at h
      split_ifs at h
      · exact @ih (c.pass attrs) hptr hnext h
      · cases h
        refine ⟨hnext, ?_⟩
        intro p hp
        cases hp
        exact attributeEnd_eq attrs c.r
      · cases h
        refine ⟨hnext, ?_⟩
        intro p hp
        rw [show (c.pass attrs).attrPtr = none from hptr] at hp
        cases hp
    · rw [if_neg hr] at h
      cases h
      refine ⟨ht, ?_⟩
      intro p hp
      rw [hptr] at hp
      cases hp

theorem get_end (ht : Tiled attrs limit c.r) (h : c.get attrs limit wanted = .ok c') :
    Tiled attrs limit c'.r ∧ ∀ p, c'.attrPtr = some p → c'.r = p + c'.attrLength.toNat :=
  @getLoop_end attrs limit wanted { c with attrPtr := none } c' _ rfl ht h

theorem set_end {attrLength : UInt16} {flags typeCode : UInt8} {ptr : Option Nat}
    (h : c.set attrs attrLength flags typeCode ptr = .ok c') : c'.r = c.r := by
  cases ptr with
  | none => cases h
  | some p =>
    cases h
    rw [putHeader_eq, putValue_eq, put_put, put_eq]
    rfl

end

end Locals

theorem slice_take (m : Mem) (p : Nat) {k n : Nat} (h : k ≤ n) :
    (slice m p n).take k = slice m p k := by
  obtain ⟨j, rfl⟩ := Nat.exists_eq_add_of_le h
  rw [slice_add, List.take_left' (length_slice m p k)]

section
variable {route : Route} {o path hop : Attribute} {n : UInt8} {asns : List UInt8}

/-- The attributes behind the path that `serialize_ebgp` finds. -/
def behindPath (l : List Attribute) : List Attribute := (seek asPath (seek origin l).2).2

/-- The path is sent with the bytes that follow it. -/
theorem ebgp_sends_behind (h : route.Accepted) (ho : (seek origin route.block).1 = some o)
    (hp : (seek asPath (seek origin route.block).2).1 = some path)
    (hvalue : path.value = 2 :: n :: asns) (hlen : 6 ≤ path.value.length) (hroom : n < 255)
    (hfits : path.value.length + 4 < 2 ^ 16)
    (hlong : 4 ≤ (encodeAll (behindPath route.block)).length) :
    ∃ x a, (∀ v rest, o.value = v :: rest → x = v) ∧ a.typeCode = asPath ∧
      a.value = shiftedPath 42 n asns [] ((encodeAll (behindPath route.block)).take 4) ∧
      Kind.ebgp.Exports route (encodeAll (wellKnown origin [x] (by decide : 1 < 256) :: a ::
        (picked [nextHop, community] (behindPath route.block)).map Attribute.canonical)) := by
  obtain ⟨c1, hget, hc1, hfound⟩ := (localsInit_wrote route (fun _ => 0) 0).get origin
  have ht1 := (Locals.get_end (c := localsInit (fun _ => 0) 0) h.tiled.2.1 hget).1
  rw [ho] at hfound
  obtain ⟨c2, x, hset, hc2, hx⟩ := hc1.set hfound
  obtain ⟨c3, hgetPath, hc3, hfoundPath⟩ := hc2.get asPath
  rw [← Locals.set_end hset] at ht1
  obtain ⟨ht3, hend⟩ := Locals.get_end ht1 hgetPath
  rw [hp] at hfoundPath
  obtain ⟨r, rfl, hr⟩ := hfoundPath
  -- the cursor stands behind the path, in front of the bytes that are copied with it
  have hcursor := hend _ hr.ptr
  rw [hr.length] at hcursor
  have hrest := ht3.slice_eq
  have hbehind : slice route.attributes c3.r 4 = (encodeAll (behindPath route.block)).take 4 := by
    have hblock : block route.attributes route.updateLength.toNat c3.r = behindPath route.block :=
      hc3.rest
    rw [hblock] at hrest
    have hlength := congrArg List.length hrest
    rw [length_slice] at hlength
    rw [← hrest, slice_take _ _ (hlength ▸ hlong)]
  rw [hcursor] at hbehind
  obtain ⟨a, htype, hshifted, hencode⟩ := @prependedAt_behind n asns [] route.attributes r 2
    (seek_typeCode hp) (by rw [List.append_nil]; exact hvalue) hlen hfits 42
  rw [hbehind] at hshifted
  refine ⟨x, a, hx, htype, hshifted, ?_⟩
  have hbytes : Locals.prependBytes route.attributes c3 (attrHeader route.attributes r).2.2 42 =
      a.encode := by
    rw [← hencode, Locals.prependBytes, prependedAt, hr.flags, hr.typeCode, hr.length]
  have hprepend : c3.prepend route.attributes 42 = .ok (c3.put a.encode) := by
    rw [Locals.prepend_found hr, hbytes]
    exact ⟨⟨n, asns, hvalue, hroom⟩, rfl⟩
  obtain ⟨c5, l, hcopies, hc5⟩ := (hc3.put a.encode).copies [nextHop, community]
  have hbs : encodeAll (wellKnown origin [x] (by decide : 1 < 256) :: a ::
      (picked [nextHop, community] (behindPath route.block)).map Attribute.canonical) =
        [] ++ [0x40, 1, 1, x] ++ a.encode ++ encodeAll ((picked [nextHop, community]
          (behindPath route.block)).map Attribute.canonical) := by
    rw [encodeAll_cons, encodeAll_cons, encode_wellKnown]
    simp [origin]
  rw [hbs]
  apply @Kind.exports_of_ok .ebgp route (fun _ => 0) 0 0
  change serializeEbgp route (fun _ => 0) 0 0 = _
  rw [serializeEbgp_eq]
  simp only [hget, hset, hgetPath, hprepend, hcopies, bind, Except.bind]
  rw [behindPath, ← hc5.out, ← hc5.cursor]
  rfl

theorem seek_sorted_find {l : List Attribute} (hs : (types l).Pairwise (· < ·)) (wanted : UInt8) :
    (seek wanted l).1 = l.find? fun a => a.typeCode = wanted := by
  cases hfind : l.find? fun a => a.typeCode = wanted with
  | some a =>
    have ha := List.mem_of_find?_eq_some hfind
    obtain rfl : a.typeCode = wanted := by simpa using List.find?_some hfind
    rw [seek_sorted hs ha]
  | none =>
    cases hseek : (seek wanted l).1 with
    | none => rfl
    | some a =>
      have ha : a ∈ l := (seek_sublist wanted l).subset (by simp [hseek])
      have hnone := List.find?_eq_none.mp hfind a ha
      exact absurd (decide_eq_true (seek_typeCode hseek)) hnone

def communities (l : List Attribute) : List Attribute :=
  (l.find? fun a => a.typeCode = community).toList

/-- NEXT_HOP comes right behind the path, and then the search for COMMUNITY goes through. -/
theorem Ordered.behind_path {l : List Attribute} (ho : Ordered l o path hop) :
    ∃ others, behindPath l = hop :: others ∧
      picked [nextHop, community] (behindPath l) = hop :: communities l := by
  obtain ⟨hs, ⟨ho, hot⟩, ⟨hp, hpt⟩, hh, hht⟩ := ho
  have hlt : o.typeCode < path.typeCode := by
    rw [hot, hpt]
    decide
  have hlt' : o.typeCode < hop.typeCode := by
    rw [hot, hht]
    decide
  have hlt1 : path.typeCode < hop.typeCode := by
    rw [hpt, hht]
    decide
  obtain ⟨hs1, hp1⟩ := Ordered.behind hs hp hlt
  obtain ⟨hs2, hh2⟩ := Ordered.behind hs1 (Ordered.behind hs hh hlt').2 hlt1
  have hbehind : behindPath l = (l.filter fun a => o.typeCode < a.typeCode).filter
      fun a => path.typeCode < a.typeCode := by
    rw [behindPath, ← hot, ← hpt, seek_sorted hs ho]
    simp only
    rw [seek_sorted hs1 hp1]
  have hcommunity : (behindPath l).find? (fun a => a.typeCode = community) =
      l.find? fun a => a.typeCode = community := by
    rw [hbehind, List.find?_filter, List.find?_filter]
    congr 1
    funext a
    by_cases e : a.typeCode = community
    · simp [e, hot, hpt, Attr.origin, asPath, community]
    · simp [e]
  rw [← hbehind] at hs2 hh2
  have habove : ∀ a ∈ behindPath l, asPath < a.typeCode := by
    intro a ha
    rw [hbehind, List.mem_filter, hpt] at ha
    exact of_decide_eq_true ha.2
  cases hlist : behindPath l with
  | nil =>
    rw [hlist] at hh2
    cases hh2
  | cons a others =>
    rw [hlist] at hs2 hh2 habove hcommunity
    obtain ⟨hfirst, hs3⟩ := List.pairwise_cons.mp hs2
    have ha : a = hop := by
      refine ((List.mem_cons.mp hh2).resolve_right fun hin => ?_).symm
      have hless : a.typeCode < hop.typeCode := hfirst _ (List.mem_map_of_mem hin)
      have hmore := UInt8.lt_iff_toNat_lt.mp (habove a List.mem_cons_self)
      rw [UInt8.lt_iff_toNat_lt, hht] at hless
      change a.typeCode.toNat < 3 at hless
      change 2 < a.typeCode.toNat at hmore
      omega
    subst ha
    refine ⟨others, rfl, ?_⟩
    have hnot : ¬ a.typeCode < nextHop := by
      rw [hht]
      decide
    have hother : ¬ a.typeCode = community := by
      rw [hht]
      decide
    rw [List.find?_cons_of_neg (by simpa using hother)] at hcommunity
    rw [picked, picked, picked, seek, if_neg hnot, if_pos hht]
    simp only
    rw [seek_sorted_find hs3, hcommunity, List.append_nil]
    rfl

theorem length_nextHop {a : Attribute} (ha : a.Accepted) (htype : a.typeCode = nextHop) :
    a.value.length = 4 := by
  obtain ⟨tb, h⟩ := ha ⟨0, 0, 0, 0, 0, 0, 0, 0⟩
  have hbranch (m : Mem) (length : UInt16) (tb : Tiebreak) :
      parseAttribute m nextHop 0 length tb = (do
        assert (4 = length)
        return tb) := rfl
  rw [htype, hbranch, assert_bind_ok] at h
  rw [← a.toNat_length, ← h.1]
  rfl

/-- Ordered attributes, one byte of ORIGIN, and a path that is one sequence of ASes. -/
structure Plain (l : List Attribute) (o path hop : Attribute) (n : UInt8) (asns : List UInt8) :
    Prop where
  ordered : Ordered l o path hop
  one : o.value.length = 1
  value : path.value = 2 :: n :: asns
  asns : asns.length = 4 * n.toNat
  pos : 1 ≤ n

theorem length_singleton_lt (x : UInt8) : [x].length < 256 := (by decide : 1 < 256)

/-- ORIGIN, a path, NEXT_HOP, and the COMMUNITY of the block if there is one. -/
def ebgpAttributes (x : UInt8) (path hop : Attribute) (l : List Attribute) : List Attribute :=
  wellKnown origin [x] (length_singleton_lt x) :: path :: hop.canonical ::
    (communities l).map Attribute.canonical

/-- The first AS is lost, and the first bytes of NEXT_HOP are the last one. -/
def shiftedAsns (asns : List UInt8) (hop : Attribute) : List UInt8 :=
  bytes32 42 ++ (asns.drop 4 ++ hop.encode.take 4)

theorem Plain.sends (h : route.Accepted) (hp : Plain route.block o path hop n asns)
    (hexports : ∃ bs, Kind.ebgp.Exports route bs) :
    n < 255 ∧ ∃ x a, o.value = [x] ∧ a.typeCode = asPath ∧
      a.value = 2 :: (n + 1) :: shiftedAsns asns hop ∧
      Kind.ebgp.Exports route (encodeAll (ebgpAttributes x a hop route.block)) := by
  obtain ⟨horigin, hpath, _⟩ := hp.ordered.searches
  obtain ⟨_, hopen⟩ := Kind.completes_iff.mp hexports
  obtain ⟨n', rest, hvalue, hroom⟩ := pathOpen_iff.mp hopen path hpath
  rw [hp.value] at hvalue
  obtain ⟨_, hvalue⟩ := List.cons.inj hvalue
  obtain rfl : n = n' := (List.cons.inj hvalue).1
  obtain ⟨others, hbehind, hpicked⟩ := hp.ordered.behind_path
  have hfour : 4 ≤ hop.encode.length := by
    have hlength := hop.length_encode
    have haccepted := h.tiled.2.2 hop hp.ordered.hop.1
    have hvalue : hop.value.length = 4 := length_nextHop haccepted hp.ordered.hop.2
    rw [hlength, hvalue]
    split_ifs
    · omega
    · omega
  have hlen : 6 ≤ path.value.length := by
    have hone : 1 ≤ n.toNat := UInt8.le_iff_toNat_le.mp hp.pos
    have hasns := hp.asns
    rw [hp.value, List.length_cons, List.length_cons]
    omega
  obtain ⟨x, a, hx, htype, hshifted, hsent⟩ := ebgp_sends_behind h horigin hpath hp.value hlen hroom
    (path_room h hp.ordered) (by
      rw [hbehind, encodeAll_cons, List.length_append]
      omega)
  obtain ⟨v, hv⟩ := List.length_eq_one_iff.mp hp.one
  rw [hpicked] at hsent
  refine ⟨hroom, x, a, ?_, htype, ?_, hsent⟩
  · rw [hv, hx v [] hv]
  · rw [hshifted, hbehind, encodeAll_cons, List.take_append_of_le_length hfour, shiftedPath,
      shiftedAsns, List.append_nil]
    rfl

end

end FastParse
