import FastParse.Framework.Records
import FastParse.Phase3.Layout
import FastParse.Update.Messages

namespace FastParse

open Framework

def Extended (flags : UInt8) : Prop := 0x10 &&& flags ≠ 0

instance (flags : UInt8) : Decidable (Extended flags) := inferInstanceAs (Decidable (_ ≠ _))

theorem not_extended_clear (flags : UInt8) : ¬ Extended (flags &&& ~~~0x10) := by
  rw [Extended, UInt8.and_comm flags, ← UInt8.and_assoc, UInt8.and_not_self, UInt8.zero_and]
  exact not_not_intro rfl

theorem extended_set (flags : UInt8) : Extended (flags ||| 0x10) := by
  have hdistrib : 0x10 &&& (flags ||| 0x10) = (0x10 &&& flags) ||| (0x10 &&& 0x10) :=
    UInt8.toBitVec_inj.mp BitVec.and_or_distrib_left
  rw [Extended, hdistrib, Ne, UInt8.or_eq_zero_iff]
  rintro ⟨_, h⟩
  exact absurd h (by decide)

def lengthLimit (flags : UInt8) : Nat := if Extended flags then 2 ^ 16 else 2 ^ 8

theorem lengthLimit_le (flags : UInt8) : lengthLimit flags ≤ 2 ^ 16 := by
  rw [lengthLimit]
  split_ifs
  · exact Nat.le_refl _
  · decide

/-- The length field of an attribute with `n` bytes of value. -/
def lengthField (flags : UInt8) (n : Nat) : List UInt8 :=
  if Extended flags then bytes16 (UInt16.ofNat n) else [UInt8.ofNat n]

theorem length_lengthField (flags : UInt8) (n : Nat) :
    (lengthField flags n).length = if Extended flags then 2 else 1 := by
  rw [lengthField]
  split_ifs
  · rfl
  · rfl

theorem lengthField_inj {flags : UInt8} {n n' : Nat} (hn : n < lengthLimit flags)
    (hn' : n' < lengthLimit flags) (h : lengthField flags n = lengthField flags n') : n = n' := by
  rw [lengthField, lengthField] at h
  rw [lengthLimit] at hn hn'
  split_ifs at h hn hn' with he
  · obtain ⟨hhigh, hlow⟩ := List.cons.inj h
    have hhigh := congrArg UInt8.toNat hhigh
    have hlow := congrArg UInt8.toNat (List.cons.inj hlow).1
    simp only [UInt16.toNat_toUInt8, UInt16.toNat_shiftRight, UInt16.toNat_ofNat',
      Nat.mod_eq_of_lt hn, Nat.mod_eq_of_lt hn'] at hhigh hlow
    change n >>> 8 % 256 = n' >>> 8 % 256 at hhigh
    rw [Nat.shiftRight_eq_div_pow, Nat.shiftRight_eq_div_pow] at hhigh
    omega
  · have h := congrArg UInt8.toNat (List.cons.inj h).1
    rwa [UInt8.toNat_ofNat', UInt8.toNat_ofNat', Nat.mod_eq_of_lt hn, Nat.mod_eq_of_lt hn'] at h

/-- A path attribute whose length fits the length field that its flags ask for. -/
structure Attribute where
  flags : UInt8
  typeCode : UInt8
  value : List UInt8
  fits : value.length < lengthLimit flags
  deriving DecidableEq

namespace Attribute

def encode (a : Attribute) : List UInt8 :=
  [a.flags, a.typeCode] ++ lengthField a.flags a.value.length ++ a.value

theorem length_encode (a : Attribute) :
    a.encode.length = (if Extended a.flags then 4 else 3) + a.value.length := by
  rw [encode, List.length_append, List.length_append, length_lengthField]
  split_ifs
  · rfl
  · rfl

theorem slack_encode (a : Attribute) : 2 < a.encode.length := by
  rw [length_encode]
  split_ifs
  · omega
  · omega

theorem encode_prefixFree : PrefixFree encode := by
  intro a b x y h
  obtain ⟨flags, typeCode, value, fits⟩ := a
  obtain ⟨flags', typeCode', value', fits'⟩ := b
  simp only [encode, List.cons_append, List.nil_append, List.append_assoc, List.cons.injEq] at h
  obtain ⟨rfl, rfl, h⟩ := h
  have hfield : (lengthField flags value.length).length =
      (lengthField flags value'.length).length := by
    rw [length_lengthField, length_lengthField]
  obtain ⟨hfield, h⟩ := List.append_inj h hfield
  obtain ⟨rfl, rfl⟩ := List.append_inj h (lengthField_inj fits fits' hfield)
  exact ⟨rfl, rfl⟩

/-- The length flag as the value asks for it, the other flags as they are. -/
def canonicalFlags (a : Attribute) : UInt8 :=
  if a.value.length < 256 then a.flags &&& ~~~0x10 else a.flags ||| 0x10

def canonical (a : Attribute) : Attribute where
  flags := a.canonicalFlags
  typeCode := a.typeCode
  value := a.value
  fits := by
    rw [canonicalFlags, lengthLimit]
    split_ifs with h
    · exact Nat.lt_trans h (by decide)
    · exact h
    · exact Nat.lt_of_lt_of_le a.fits (lengthLimit_le _)
    · exact absurd (extended_set a.flags) ‹_›

/-- The canonical form of flags, a type and a value that are not yet an attribute. -/
def written (flags typeCode : UInt8) (value : List UInt8) (h : value.length < 2 ^ 16) :
    Attribute where
  flags := if value.length < 256 then flags &&& ~~~0x10 else flags ||| 0x10
  typeCode := typeCode
  value := value
  fits := by
    rw [lengthLimit]
    by_cases hshort : value.length < 256
    · rw [if_pos hshort, if_neg (not_extended_clear _)]
      exact hshort
    · rw [if_neg hshort, if_pos (extended_set _)]
      exact h

theorem canonical_eq_written (a : Attribute) :
    a.canonical = written a.flags a.typeCode a.value
      (Nat.lt_of_lt_of_le a.fits (lengthLimit_le _)) := rfl

end Attribute

def encodeAll (l : List Attribute) : List UInt8 := l.flatMap Attribute.encode

theorem encodeAll_cons (a : Attribute) (l : List Attribute) :
    encodeAll (a :: l) = a.encode ++ encodeAll l := List.flatMap_cons

theorem encodeAll_append (l l' : List Attribute) :
    encodeAll (l ++ l') = encodeAll l ++ encodeAll l' := List.flatMap_append

theorem encodeAll_inj {l l' : List Attribute} (h : encodeAll l = encodeAll l') : l = l' := by
  apply Attribute.encode_prefixFree.flatMap_inj _ h
  intro a ha
  have hlong := a.slack_encode
  rw [ha] at hlong
  exact absurd hlong (by decide)

/-- The length field of the header is a 16-bit field in network byte order. -/
theorem attrHeader_eq (m : Mem) (p : Nat) :
    attrHeader m p =
      if Extended (m p) then (m (p + 1), getw16 m (p + 2), p + 4)
      else (m (p + 1), (m (p + 2)).toUInt16, p + 3) := by
  have hlow := (m (p + 3)).toNat_lt
  have hword : (m (p + 2)).toUInt16 <<< 8 ||| (m (p + 3)).toUInt16 = getw16 m (p + 2) := by
    have hhigh := (m (p + 2)).toNat_lt
    apply UInt16.toNat_inj.mp
    rw [getw16_toNat, UInt16.toNat_or, UInt16.toNat_shiftLeft, UInt8.toNat_toUInt16,
      UInt8.toNat_toUInt16]
    change (m (p + 2)).toNat <<< 8 % 65536 ||| (m (p + 3)).toNat = _
    rw [Nat.shiftLeft_eq, Nat.mod_eq_of_lt (by omega), or_low hlow]
  simp only [attrHeader, hword]
  rfl

theorem bytes16_getw16 (m : Mem) (p : Nat) : bytes16 (getw16 m p) = slice m p 2 := by
  have hhigh := (m p).toNat_lt
  have hlow := (m (p + 1)).toNat_lt
  have hslice : slice m p 2 = [m p, m (p + 1)] := rfl
  have e0 : (getw16 m p >>> 8).toUInt8 = m p := by
    apply UInt8.toNat_inj.mp
    rw [UInt16.toNat_toUInt8, UInt16.toNat_shiftRight, getw16_toNat]
    change ((m p).toNat * 256 + (m (p + 1)).toNat) >>> 8 % 256 = _
    rw [Nat.shiftRight_eq_div_pow]
    omega
  have e1 : (getw16 m p).toUInt8 = m (p + 1) := by
    apply UInt8.toNat_inj.mp
    rw [UInt16.toNat_toUInt8, getw16_toNat]
    omega
  rw [bytes16, hslice, e0, e1]

theorem attrHeader_fits (m : Mem) (p : Nat) : (attrHeader m p).2.1.toNat < lengthLimit (m p) := by
  rw [attrHeader_eq, lengthLimit]
  split_ifs
  · exact (getw16 m (p + 2)).toNat_lt
  · simp only [UInt8.toNat_toUInt16]
    exact (m (p + 2)).toNat_lt

/-- The attribute that begins at `p`, as the two walks over a block read it. -/
def attributeAt (m : Mem) (p : Nat) : Attribute where
  flags := m p
  typeCode := (attrHeader m p).1
  value := slice m (attrHeader m p).2.2 (attrHeader m p).2.1.toNat
  fits := by
    rw [length_slice]
    exact attrHeader_fits m p

theorem attributeAt_length (m : Mem) (p : Nat) :
    (attributeAt m p).value.length = (attrHeader m p).2.1.toNat := length_slice _ _ _

theorem slice_attributeAt (m : Mem) (p : Nat) :
    slice m p (attributeAt m p).encode.length = (attributeAt m p).encode := by
  have hbytes : (attributeAt m p).encode = [m p, (attrHeader m p).1] ++
      lengthField (m p) (attrHeader m p).2.1.toNat ++
      slice m (attrHeader m p).2.2 (attrHeader m p).2.1.toNat := by
    rw [Attribute.encode, attributeAt_length]
    rfl
  rw [Attribute.length_encode, attributeAt_length, hbytes, attrHeader_eq, lengthField]
  change slice m p ((if Extended (m p) then 4 else 3) + _) = _
  split_ifs
  · simp only [UInt16.ofNat_toNat]
    rw [slice_add, bytes16_getw16]
    rfl
  · rw [slice_add]
    simp only [UInt8.toNat_toUInt16, UInt8.ofNat_toNat]
    rfl

/-- The attributes in front of `limit`, as far as there is room for a header. -/
def block (m : Mem) (limit p : Nat) : List Attribute :=
  records Attribute.encode (attributeAt m) 2 limit p

/-- Behind the attribute at `p`. -/
def attributeEnd (m : Mem) (p : Nat) : Nat := after Attribute.encode (attributeAt m) p

theorem attributeEnd_eq (m : Mem) (p : Nat) :
    attributeEnd m p = (attrHeader m p).2.2 + (attrHeader m p).2.1.toNat := by
  rw [attributeEnd, after, Attribute.length_encode, attributeAt_length, attrHeader_eq]
  change p + ((if Extended (m p) then 4 else 3) + _) = _
  split_ifs
  · simp only
    omega
  · simp only
    omega

theorem block_eq (m : Mem) (limit p : Nat) :
    block m limit p =
      if p + 2 < limit then attributeAt m p :: block m limit (attributeEnd m p) else [] :=
  records_eq Attribute.slack_encode p

/-- The attributes from `p` on end exactly at `limit`. -/
def Tiled (m : Mem) (limit p : Nat) : Prop := Lands Attribute.encode (attributeAt m) limit p

theorem Tiled.slice_eq {m : Mem} {limit p : Nat} (h : Tiled m limit p) :
    slice m p (limit - p) = encodeAll (block m limit p) :=
  Lands.slice_eq Attribute.slack_encode (slice_attributeAt m) h

/-- A stretch filled with attributes is read as the attributes it was made of. -/
theorem tiled_of_slice {m : Mem} {p : Nat} {l : List Attribute}
    (h : slice m p (encodeAll l).length = encodeAll l) :
    Tiled m (p + (encodeAll l).length) p ∧ block m (p + (encodeAll l).length) p = l :=
  lands_of_slice Attribute.slack_encode (slice_attributeAt m) Attribute.encode_prefixFree h

end FastParse
