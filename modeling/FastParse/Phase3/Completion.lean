import FastParse.Phase3.Cursor

namespace FastParse

open Framework Attr

def types (l : List Attribute) : List UInt8 := l.map Attribute.typeCode

/-- The attributes found by one search after the other. -/
def picked : List UInt8 → List Attribute → List Attribute
  | [], _ => []
  | wanted :: rest, l => (seek wanted l).1.toList ++ picked rest (seek wanted l).2

namespace Locals

/-- `get` and `copy` for each of the types. -/
def copies (c : Locals) (attrs : Mem) (limit : Nat) (wanted : List UInt8) : Exec Locals :=
  wanted.foldlM (fun c w => do
    let c ← c.get attrs limit w
    return c.copy attrs) c

theorem Wrote.copies {attrs out : Mem} {limit q : Nat} {c : Locals} {bs : List UInt8}
    {l : List Attribute} (hc : c.Wrote attrs limit out q bs l) (wanted : List UInt8) :
    ∃ c' l', c.copies attrs limit wanted = .ok c' ∧
      c'.Wrote attrs limit out q
        (bs ++ encodeAll ((picked wanted l).map Attribute.canonical)) l' := by
  induction wanted generalizing c bs l with
  | nil =>
    refine ⟨c, l, rfl, ?_⟩
    rw [picked, List.map_nil, encodeAll, List.flatMap_nil, List.append_nil]
    exact hc
  | cons w wanted ih =>
    obtain ⟨c1, hget, hc1, hfound⟩ := hc.get w
    obtain ⟨c2, l2, hcopies, hc2⟩ := ih (hc1.copy hfound)
    refine ⟨c2, l2, ?_, ?_⟩
    · rw [Locals.copies, List.foldlM_cons, hget]
      exact hcopies
    · rw [picked, List.map_append, encodeAll_append, ← List.append_assoc]
      exact hc2

end Locals

theorem seek_eq (wanted : UInt8) (l : List Attribute) :
    seek wanted l =
      ((l.find? fun a => wanted ≤ a.typeCode).filter fun a => a.typeCode = wanted,
        (l.dropWhile fun a => a.typeCode < wanted).tail) := by
  induction l with
  | nil => rfl
  | cons a l ih =>
    rw [seek]
    by_cases hless : a.typeCode < wanted
    · have hle : ¬ wanted ≤ a.typeCode := UInt8.not_le.mpr hless
      rw [if_pos hless, ih, List.find?_cons_of_neg (by simpa using hle),
        List.dropWhile_cons_of_pos (by simpa using hless)]
    · have hle : wanted ≤ a.typeCode := UInt8.not_lt.mp hless
      rw [if_neg hless, List.find?_cons_of_pos (by simpa using hle),
        List.dropWhile_cons_of_neg (by simpa using hless)]
      by_cases hwanted : a.typeCode = wanted
      · simp [Option.filter, hwanted]
      · simp [Option.filter, hwanted]

/-- The first attribute of a type other than zero is an ORIGIN. -/
def OriginFirst (l : List Attribute) : Prop :=
  (l.find? fun a => origin ≤ a.typeCode).map Attribute.typeCode = some origin

instance (l : List Attribute) : Decidable (OriginFirst l) := inferInstanceAs (Decidable (_ = _))

def behindOrigin (l : List Attribute) : List Attribute :=
  (l.dropWhile fun a => a.typeCode < origin).tail

/-- If the first attribute of type 2 or above behind the ORIGIN is an AS_PATH, then it begins
with a sequence that is not full. -/
def PathOpen (l : List Attribute) : Prop :=
  ∀ a, (behindOrigin l).find? (fun a => asPath ≤ a.typeCode) = some a → a.typeCode = asPath →
    a.Prependable

instance (l : List Attribute) : Decidable (PathOpen l) :=
  decidable_of_iff (∀ a ∈ ((behindOrigin l).find? fun b : Attribute =>
    asPath ≤ b.typeCode).toList, a.typeCode = asPath → a.Prependable) <| by
    apply forall_congr'
    intro a
    rw [Option.mem_toList]

theorem originFirst_iff {l : List Attribute} :
    OriginFirst l ↔ ∃ o, (seek origin l).1 = some o := by
  rw [OriginFirst, seek_eq]
  simp only
  cases l.find? fun a => origin ≤ a.typeCode with
  | none => simp
  | some o =>
    by_cases ho : o.typeCode = origin
    · simp [Option.filter, ho]
    · simp [Option.filter, ho]

theorem pathOpen_iff {l : List Attribute} :
    PathOpen l ↔ ∀ a, (seek asPath (seek origin l).2).1 = some a → a.Prependable := by
  rw [PathOpen, seek_eq asPath, seek_eq origin]
  apply forall_congr'
  intro a
  simp only [Option.filter_eq_some_iff, decide_eq_true_eq, and_imp]
  rfl

def Kind.Completes : Kind → List Attribute → Prop
  | .ibgp, l => OriginFirst l
  | .ebgp, l => OriginFirst l ∧ PathOpen l
  | .copy, _ => True

namespace Kind

theorem Exports.unique {kind : Kind} {route : Route} {bs bs' : List UInt8}
    (h : kind.Exports route bs) (h' : kind.Exports route bs') : bs = bs' := by
  have e := (h (fun _ => 0) 0 0).symm.trans (h' (fun _ => 0) 0 0)
  obtain ⟨hout, hlen⟩ := Prod.mk.inj (Except.ok.inj e)
  have hslice := slice_overlay (fun _ => (0 : UInt8)) 0 bs
  rw [Nat.add_left_cancel hlen, hout, slice_overlay] at hslice
  exact hslice.symm

/-- One run of a serializer tells what it writes over every buffer. -/
theorem exports_of_ok {kind : Kind} {route : Route} {out : Mem} {q : Nat} {limit : UInt16}
    {bs : List UInt8}
    (h : kind.serializer route out q limit = .ok (overlay out q bs, q + bs.length)) :
    kind.Exports route bs := by
  obtain ⟨bs', hbs'⟩ := exists_exports h
  obtain ⟨hout, hlen⟩ := Prod.mk.inj (Except.ok.inj ((hbs' out q limit).symm.trans h))
  have hslice := slice_overlay out q bs'
  rw [Nat.add_left_cancel hlen, hout, slice_overlay] at hslice
  rwa [← hslice] at hbs'

end Kind

theorem serializeCopy_eq (route : Route) (out : Mem) (q : Nat) (limit : UInt16) :
    serializeCopy route out q limit = do
      let c ← (localsInit out q).copies route.attributes route.updateLength.toNat
        [origin, asPath, nextHop, community]
      return (c.out, c.q) := by
  simp only [Locals.copies, List.foldlM_cons, List.foldlM_nil, bind_assoc, pure_bind]
  rfl

theorem copy_exports (route : Route) :
    Kind.copy.Exports route (encodeAll
      ((picked [origin, asPath, nextHop, community] route.block).map Attribute.canonical)) := by
  intro out q limit
  obtain ⟨c, l, hcopies, hc⟩ :=
    (localsInit_wrote route out q).copies [origin, asPath, nextHop, community]
  change serializeCopy route out q limit = _
  rw [serializeCopy_eq, hcopies, ← List.nil_append (encodeAll _), ← hc.out, ← hc.cursor]
  rfl

theorem serializeIbgp_eq (route : Route) (out : Mem) (q : Nat) (limit : UInt16) :
    serializeIbgp route out q limit = do
      let c ← (localsInit out q).get route.attributes route.updateLength.toNat origin
      let c ← c.set route.attributes 1 0x40 origin c.attrPtr
      let c ← c.copies route.attributes route.updateLength.toNat [asPath, nextHop]
      let c := c.set4 0x40 localPref route.tiebreak.localPref
      return (c.out, c.q) := by
  simp only [Locals.copies, List.foldlM_cons, List.foldlM_nil, bind_assoc, pure_bind]
  rfl

/-- ORIGIN, the two attributes found behind it, and the LOCAL_PREF of the route. -/
theorem ibgp_exports {route : Route} {o : Attribute} (ho : (seek origin route.block).1 = some o) :
    ∃ x, (∀ v rest, o.value = v :: rest → x = v) ∧
      Kind.ibgp.Exports route ([0x40, 1, 1, x] ++
        encodeAll ((picked [asPath, nextHop] (seek origin route.block).2).map
          Attribute.canonical) ++
        ([0x40, 5, 4] ++ bytes32 route.tiebreak.localPref)) := by
  obtain ⟨c1, hget, hc1, hfound⟩ := (localsInit_wrote route (fun _ => 0) 0).get origin
  rw [ho] at hfound
  obtain ⟨c2, x, hset, hc2, hx⟩ := hc1.set hfound
  obtain ⟨c3, l, hcopies, hc3⟩ := hc2.copies [asPath, nextHop]
  have hc4 := hc3.put ([0x40, 5, 4] ++ bytes32 route.tiebreak.localPref)
  refine ⟨x, hx, ?_⟩
  apply @Kind.exports_of_ok .ibgp route (fun _ => 0) 0 0
  change serializeIbgp route (fun _ => 0) 0 0 = _
  rw [serializeIbgp_eq]
  simp only [hget, hset, hcopies, bind, Except.bind]
  rw [List.nil_append] at hc4
  rw [← hc4.out, ← hc4.cursor]
  rfl

theorem serializeEbgp_eq (route : Route) (out : Mem) (q : Nat) (limit : UInt16) :
    serializeEbgp route out q limit = do
      let c ← (localsInit out q).get route.attributes route.updateLength.toNat origin
      let c ← c.set route.attributes 1 0x40 origin c.attrPtr
      let c ← c.get route.attributes route.updateLength.toNat asPath
      let c ← c.prepend route.attributes 42
      let c ← c.copies route.attributes route.updateLength.toNat [nextHop, community]
      return (c.out, c.q) := by
  simp only [Locals.copies, List.foldlM_cons, List.foldlM_nil, bind_assoc, pure_bind]
  rfl

/-- The bytes `prepend` writes for the path at `r`. -/
def prependedAt (attrs : Mem) (r : Nat) (as : UInt32) : List UInt8 :=
  let (typeCode, attrLength, value) := attrHeader attrs r
  Locals.headerBytes (attrs r) typeCode (4 + attrLength) ++
    ([2, attrs (value + 1) + 1] ++ bytes32 as) ++ slice attrs (value + 6) (attrLength.toNat - 2)

theorem Locals.Wrote.prepend {attrs out : Mem} {limit q : Nat} {c : Locals} {bs : List UInt8}
    {l : List Attribute} (hc : c.Wrote attrs limit out q bs l) {found : Option Attribute}
    (hf : c.Holds attrs found) (hopen : ∀ a, found = some a → a.Prependable) (as : UInt32) :
    ∃ c' path, c.prepend attrs as = .ok c' ∧ c'.Wrote attrs limit out q (bs ++ path) l ∧
      ∀ a, found = some a → ∃ r, attributeAt attrs r = a ∧ path = prependedAt attrs r as := by
  cases found with
  | none =>
    have hptr : c.attrPtr = none := hf
    refine ⟨c, [], ?_, ?_, fun a ha => nomatch ha⟩
    · rw [Locals.prepend, hptr]
    · rw [List.append_nil]
      exact hc
  | some a =>
    obtain ⟨r, rfl, hr⟩ := hf
    have hpath : prependBytes attrs c (attrHeader attrs r).2.2 as = prependedAt attrs r as := by
      rw [prependBytes, prependedAt, hr.flags, hr.typeCode, hr.length]
    refine ⟨_, prependedAt attrs r as, (prepend_found hr as).mpr ⟨hopen _ rfl, rfl⟩, ?_, ?_⟩
    · rw [hpath]
      exact hc.put _
    · intro a ha
      exact ⟨r, Option.some.inj ha, rfl⟩

theorem ebgp_exports {route : Route} {o : Attribute} (ho : (seek origin route.block).1 = some o)
    (hopen : ∀ a, (seek asPath (seek origin route.block).2).1 = some a → a.Prependable) :
    ∃ x path, (∀ v rest, o.value = v :: rest → x = v) ∧
      (∀ a, (seek asPath (seek origin route.block).2).1 = some a →
        ∃ r, attributeAt route.attributes r = a ∧ path = prependedAt route.attributes r 42) ∧
      Kind.ebgp.Exports route ([0x40, 1, 1, x] ++ path ++
        encodeAll ((picked [nextHop, community]
          (seek asPath (seek origin route.block).2).2).map Attribute.canonical)) := by
  obtain ⟨c1, hget, hc1, hfound⟩ := (localsInit_wrote route (fun _ => 0) 0).get origin
  rw [ho] at hfound
  obtain ⟨c2, x, hset, hc2, hx⟩ := hc1.set hfound
  obtain ⟨c3, hgetPath, hc3, hfoundPath⟩ := hc2.get asPath
  obtain ⟨c4, path, hprepend, hc4, hpath⟩ := hc3.prepend hfoundPath hopen 42
  obtain ⟨c5, l, hcopies, hc5⟩ := hc4.copies [nextHop, community]
  refine ⟨x, path, hx, hpath, ?_⟩
  apply @Kind.exports_of_ok .ebgp route (fun _ => 0) 0 0
  change serializeEbgp route (fun _ => 0) 0 0 = _
  rw [serializeEbgp_eq]
  simp only [hget, hset, hgetPath, hprepend, hcopies, bind, Except.bind]
  rw [List.nil_append] at hc5
  rw [← hc5.out, ← hc5.cursor]
  rfl

/-- Without an ORIGIN in front `set` stops both serializers that call it. -/
theorem aborts_without_origin {route : Route} (h : ¬ OriginFirst route.block) (out : Mem)
    (q : Nat) (limit : UInt16) :
    serializeIbgp route out q limit = .error .assertion ∧
      serializeEbgp route out q limit = .error .assertion := by
  have hnone : (seek origin route.block).1 = none := by
    rw [originFirst_iff] at h
    exact Option.eq_none_iff_forall_ne_some.mpr fun o ho => h ⟨o, ho⟩
  obtain ⟨c, hget, _, hfound⟩ := (localsInit_wrote route out q).get origin
  rw [hnone] at hfound
  have hset := Locals.set_none hfound
  constructor
  · rw [serializeIbgp_eq]
    simp only [hget, hset, bind, Except.bind]
  · rw [serializeEbgp_eq]
    simp only [hget, hset, bind, Except.bind]

/-- A search that finds no ORIGIN is one that `set` stops at. -/
theorem exists_origin {route : Route} {out : Mem} {q : Nat} {c1 c2 : Locals}
    (hget : (localsInit out q).get route.attributes route.updateLength.toNat origin = .ok c1)
    (hset : c1.set route.attributes 1 0x40 origin c1.attrPtr = .ok c2) :
    ∃ o, (seek origin route.block).1 = some o := by
  obtain ⟨c1', hget', _, hfound⟩ := (localsInit_wrote route out q).get origin
  obtain rfl : c1 = c1' := Except.ok.inj (hget.symm.trans hget')
  cases ho : (seek origin route.block).1 with
  | none =>
    rw [ho] at hfound
    rw [Locals.set_none hfound] at hset
    cases hset
  | some o => exact ⟨o, rfl⟩

/-- Exactly the blocks a serializer completes on, whatever the block holds. -/
theorem Kind.completes_iff {kind : Kind} {route : Route} :
    (∃ bs, kind.Exports route bs) ↔ kind.Completes route.block := by
  cases kind with
  | copy => exact ⟨fun _ => trivial, fun _ => ⟨_, copy_exports route⟩⟩
  | ibgp =>
    rw [Completes, originFirst_iff]
    constructor
    · rintro ⟨bs, hbs⟩
      have h : serializeIbgp route (fun _ => 0) 0 0 = _ := hbs (fun _ => 0) 0 0
      rw [serializeIbgp_eq] at h
      obtain ⟨c1, hget, h⟩ := bind_eq_ok.mp h
      obtain ⟨c2, hset, _⟩ := bind_eq_ok.mp h
      exact exists_origin hget hset
    · rintro ⟨o, ho⟩
      obtain ⟨x, _, hbs⟩ := ibgp_exports ho
      exact ⟨_, hbs⟩
  | ebgp =>
    rw [Completes, originFirst_iff, pathOpen_iff]
    constructor
    · rintro ⟨bs, hbs⟩
      have h : serializeEbgp route (fun _ => 0) 0 0 = _ := hbs (fun _ => 0) 0 0
      rw [serializeEbgp_eq] at h
      obtain ⟨c1, hget, h⟩ := bind_eq_ok.mp h
      obtain ⟨c2, hset, h⟩ := bind_eq_ok.mp h
      obtain ⟨c3, hgetPath, h⟩ := bind_eq_ok.mp h
      obtain ⟨c4, hprepend, _⟩ := bind_eq_ok.mp h
      obtain ⟨o, ho⟩ := exists_origin hget hset
      refine ⟨⟨o, ho⟩, ?_⟩
      intro a ha
      -- the same searches once more, with what they leave
      obtain ⟨c1', hget', hc1, hfound⟩ := (localsInit_wrote route (fun _ => 0) 0).get origin
      obtain rfl : c1 = c1' := Except.ok.inj (hget.symm.trans hget')
      rw [ho] at hfound
      obtain ⟨c2', x, hset', hc2, _⟩ := hc1.set hfound
      obtain rfl : c2 = c2' := Except.ok.inj (hset.symm.trans hset')
      obtain ⟨c3', hgetPath', _, hfoundPath⟩ := hc2.get asPath
      obtain rfl : c3 = c3' := Except.ok.inj (hgetPath.symm.trans hgetPath')
      rw [ha] at hfoundPath
      obtain ⟨r, rfl, hr⟩ := hfoundPath
      exact ((Locals.prepend_found hr 42).mp hprepend).1
    · rintro ⟨⟨o, ho⟩, hopen⟩
      obtain ⟨x, path, _, _, hbs⟩ := ebgp_exports ho hopen
      exact ⟨_, hbs⟩

end FastParse
