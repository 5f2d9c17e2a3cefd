import FastParse.Phase3.Exported
import FastParse.Update.Accepted

namespace FastParse

open Framework

/-- What `get` makes of the attributes still to come: the wanted one, if it is there, and what
is left. An attribute behind the wanted type is passed over as well. -/
def seek (wanted : UInt8) : List Attribute → Option Attribute × List Attribute
  | [] => (none, [])
  | a :: rest =>
    if a.typeCode < wanted then seek wanted rest
    else (if a.typeCode = wanted then some a else none, rest)

namespace Attribute

/-- An AS_PATH that begins with a sequence which is not full. -/
def Prependable (a : Attribute) : Prop := ∃ n rest, a.value = 2 :: n :: rest ∧ n < 255

instance (a : Attribute) : Decidable a.Prependable :=
  decidable_of_iff (a.value[0]? = some 2 ∧ a.value[1]?.any (· < 255) = true) <| by
    cases h : a.value with
    | nil => simp [Prependable, h]
    | cons t rest =>
      cases rest with
      | nil => simp [Prependable, h]
      | cons n rest => simp [Prependable, h]

/-- The canonical form is what the serializers write. -/
theorem encode_written (flags typeCode : UInt8) (value : List UInt8)
    (h : value.length < 2 ^ 16) :
    (written flags typeCode value h).encode =
      Locals.headerBytes flags typeCode (UInt16.ofNat value.length) ++ value := by
  have hlength : (UInt16.ofNat value.length).toNat = value.length := by
    rw [UInt16.toNat_ofNat', Nat.mod_eq_of_lt h]
  have hlow : (UInt16.ofNat value.length).toUInt8 = UInt8.ofNat value.length := by
    apply UInt8.toNat_inj.mp
    rw [UInt16.toNat_toUInt8, hlength, UInt8.toNat_ofNat']
  have hlt : UInt16.ofNat value.length < 256 ↔ value.length < 256 := by
    rw [UInt16.lt_iff_toNat_lt, hlength]
    rfl
  change [(written flags typeCode value h).flags, typeCode] ++
    lengthField (written flags typeCode value h).flags value.length ++ value = _
  rw [Locals.headerBytes, lengthField, written]
  by_cases hshort : value.length < 256
  · rw [if_pos (hlt.mpr hshort)]
    simp only [if_pos hshort]
    rw [if_neg (not_extended_clear _), hlow]
    rfl
  · rw [if_neg (mt hlt.mp hshort)]
    simp only [if_neg hshort]
    rw [if_pos (extended_set _)]
    rfl

theorem encode_canonical (a : Attribute) :
    a.canonical.encode = Locals.headerBytes a.flags a.typeCode a.length ++ a.value := by
  rw [canonical_eq_written, encode_written]
  rfl

end Attribute

namespace Locals

/-- The attribute at `r` is the one found last. -/
structure FoundAt (attrs : Mem) (c : Locals) (r : Nat) : Prop where
  ptr : c.attrPtr = some (attrHeader attrs r).2.2
  flags : c.flags = attrs r
  typeCode : c.typeCode = (attrHeader attrs r).1
  length : c.attrLength = (attrHeader attrs r).2.1

/-- What `get` has found. -/
def Holds (attrs : Mem) (c : Locals) : Option Attribute → Prop
  | none => c.attrPtr = none
  | some a => ∃ r, attributeAt attrs r = a ∧ c.FoundAt attrs r

/-- `c` has written `bs` at `q`, and the attributes `l` are still to come. -/
structure Wrote (attrs : Mem) (limit : Nat) (out : Mem) (q : Nat) (c : Locals)
    (bs : List UInt8) (l : List Attribute) : Prop where
  out : c.out = overlay out q bs
  cursor : c.q = q + bs.length
  rest : block attrs limit c.r = l

def pass (attrs : Mem) (c : Locals) : Locals :=
  { c with
    flags := attrs c.r
    typeCode := (attrHeader attrs c.r).1
    attrLength := (attrHeader attrs c.r).2.1
    r := attributeEnd attrs c.r }

theorem getLoop_eq (attrs : Mem) (limit : Nat) (wanted : UInt8) (fuel : Nat) (c : Locals) :
    getLoop attrs limit wanted (fuel + 1) c =
      if c.r + 2 < limit then
        if (c.pass attrs).typeCode < wanted then getLoop attrs limit wanted fuel (c.pass attrs)
        else if (c.pass attrs).typeCode = wanted then
          .ok { c.pass attrs with attrPtr := some (attrHeader attrs c.r).2.2 }
        else .ok (c.pass attrs)
      else .ok c := by
  rw [getLoop, pass, attributeEnd_eq]

section
variable {attrs out : Mem} {limit q : Nat} {c : Locals} {bs : List UInt8} {l : List Attribute}

theorem getLoop_wrote {fuel : Nat} {wanted : UInt8} (hfuel : limit - c.r < fuel)
    (hptr : c.attrPtr = none) (hc : c.Wrote attrs limit out q bs l) :
    ∃ c', getLoop attrs limit wanted fuel c = .ok c' ∧
      c'.Wrote attrs limit out q bs (seek wanted l).2 ∧ c'.Holds attrs (seek wanted l).1 := by
  induction fuel generalizing c l with
  | zero => exact absurd hfuel (Nat.not_lt_zero _)
  | succ fuel ih =>
    obtain ⟨hout, hcursor, rfl⟩ := hc
    have hnext := lt_attributeEnd attrs c.r
    have hpassed : (c.pass attrs).Wrote attrs limit out q bs
        (block attrs limit (attributeEnd attrs c.r)) := ⟨hout, hcursor, rfl⟩
    rw [getLoop_eq, block_eq]
    by_cases hr : c.r + 2 < limit
    · rw [if_pos hr, if_pos hr, seek]
      have htype : (c.pass attrs).typeCode = (attributeAt attrs c.r).typeCode := rfl
      rw [htype]
      split_ifs
      · apply @ih (c.pass attrs) _ _ hptr hpassed
        change limit - attributeEnd attrs c.r < fuel
        omega
      · exact ⟨_, rfl, ⟨hout, hcursor, rfl⟩, c.r, rfl, ⟨rfl, rfl, rfl, rfl⟩⟩
      · exact ⟨_, rfl, hpassed, hptr⟩
    · rw [if_neg hr, if_neg hr]
      refine ⟨c, rfl, ⟨hout, hcursor, ?_⟩, hptr⟩
      rw [block_eq, if_neg hr]
      rfl

theorem Wrote.get (hc : c.Wrote attrs limit out q bs l) (wanted : UInt8) :
    ∃ c', c.get attrs limit wanted = .ok c' ∧
      c'.Wrote attrs limit out q bs (seek wanted l).2 ∧ c'.Holds attrs (seek wanted l).1 := by
  apply getLoop_wrote
  · simp only
    omega
  · rfl
  · exact ⟨hc.out, hc.cursor, hc.rest⟩

theorem Wrote.put (hc : c.Wrote attrs limit out q bs l) (bs' : List UInt8) :
    (c.put bs').Wrote attrs limit out q (bs ++ bs') l := by
  rw [put_eq]
  refine ⟨?_, ?_, hc.rest⟩
  · rw [overlay_append, ← hc.out, ← hc.cursor]
    rfl
  · rw [List.length_append, ← Nat.add_assoc, ← hc.cursor]
    rfl

theorem copyBytes_found {a : Attribute} (hf : c.Holds attrs (some a)) :
    copyBytes attrs c = a.canonical.encode := by
  obtain ⟨r, rfl, hptr, hflags, htype, hlength⟩ := hf
  rw [copyBytes, hptr, Attribute.encode_canonical, hflags, htype, hlength, length_attributeAt]
  rfl

/-- The attribute found last is written in its canonical form. -/
theorem Wrote.copy (hc : c.Wrote attrs limit out q bs l) {found : Option Attribute}
    (hf : c.Holds attrs found) :
    (c.copy attrs).Wrote attrs limit out q
      (bs ++ encodeAll (found.toList.map Attribute.canonical)) l := by
  have hbytes : copyBytes attrs c = encodeAll (found.toList.map Attribute.canonical) := by
    cases found with
    | none =>
      have hptr : c.attrPtr = none := hf
      rw [copyBytes, hptr]
      rfl
    | some a =>
      rw [copyBytes_found hf]
      exact (List.append_nil _).symm
  rw [copy_eq, hbytes]
  exact hc.put _

/-- ORIGIN is written with the one byte it has, or should have. -/
theorem Wrote.set (hc : c.Wrote attrs limit out q bs l) {a : Attribute}
    (hf : c.Holds attrs (some a)) :
    ∃ c' x, c.set attrs 1 0x40 Attr.origin c.attrPtr = .ok c' ∧
      c'.Wrote attrs limit out q (bs ++ [0x40, 1, 1, x]) l ∧
      ∀ v rest, a.value = v :: rest → x = v := by
  obtain ⟨r, rfl, hptr, _⟩ := hf
  have hset : c.set attrs 1 0x40 Attr.origin c.attrPtr =
      .ok (c.put [0x40, 1, 1, attrs (attrHeader attrs r).2.2]) := by
    rw [hptr, Locals.set, putHeader_eq, putValue_eq, put_put]
    rfl
  refine ⟨_, _, hset, hc.put _, ?_⟩
  intro v rest hvalue
  change slice attrs (attrHeader attrs r).2.2 (attrHeader attrs r).2.1.toNat = _ at hvalue
  generalize (attrHeader attrs r).2.1.toNat = n at hvalue
  cases n with
  | zero => cases hvalue
  | succ n =>
    rw [slice_succ] at hvalue
    exact (List.cons.inj hvalue).1

theorem set_none (hf : c.Holds attrs none) :
    c.set attrs 1 0x40 Attr.origin c.attrPtr = .error .assertion := by
  have hptr : c.attrPtr = none := hf
  rw [hptr, Locals.set]

/-- The first two bytes of a path, as `prepend` reads them. -/
theorem value_of_two_le {r : Nat} (h : ¬ (attrHeader attrs r).2.1 < 2) :
    (attributeAt attrs r).value =
      attrs (attrHeader attrs r).2.2 :: attrs ((attrHeader attrs r).2.2 + 1) ::
        slice attrs ((attrHeader attrs r).2.2 + 2) ((attrHeader attrs r).2.1.toNat - 2) := by
  have hle : 2 ≤ (attrHeader attrs r).2.1.toNat := by
    rw [UInt16.lt_iff_toNat_lt] at h
    exact Nat.not_lt.mp h
  change slice attrs _ _ = _
  obtain ⟨n, hn⟩ : ∃ n, (attrHeader attrs r).2.1.toNat = n + 2 :=
    ⟨(attrHeader attrs r).2.1.toNat - 2, by omega⟩
  rw [hn, slice_succ, slice_succ, Nat.add_sub_cancel]

theorem prepend_found {r : Nat} (hf : c.FoundAt attrs r) (as : UInt32) {c' : Locals} :
    c.prepend attrs as = .ok c' ↔ (attributeAt attrs r).Prependable ∧
      c' = c.put (prependBytes attrs c (attrHeader attrs r).2.2 as) := by
  rw [prepend_ok hf.ptr, hf.length]
  apply and_congr_left
  intro _
  constructor
  · rintro ⟨hseq, hroom, hlen⟩
    have hvalue := value_of_two_le hlen
    rw [← hseq] at hvalue
    exact ⟨_, _, hvalue, hroom⟩
  · rintro ⟨n, rest, hvalue, hroom⟩
    have hlen : ¬ (attrHeader attrs r).2.1 < 2 := by
      intro hlt
      have hlt : (attrHeader attrs r).2.1.toNat < 2 := UInt16.lt_iff_toNat_lt.mp hlt
      rw [← attributeAt_length, hvalue] at hlt
      exact absurd hlt (by simp)
    have h := value_of_two_le hlen
    rw [hvalue] at h
    obtain ⟨hseq, h⟩ := List.cons.inj h
    rw [← hseq, ← (List.cons.inj h).1]
    exact ⟨rfl, hroom, hlen⟩

end

end Locals

theorem localsInit_wrote (route : Route) (out : Mem) (q : Nat) :
    (localsInit out q).Wrote route.attributes route.updateLength.toNat out q [] route.block :=
  ⟨rfl, rfl, rfl⟩

end FastParse
