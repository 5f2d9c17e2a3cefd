import FastParse.Nlri
import FastParse.Table.Bigtable
import FastParse.Update.Attributes

namespace FastParse

/-- `*q++ = b` for each byte in turn. -/
def putBytes (out : Mem) (q : Nat) : List UInt8 → Mem × Nat
  | [] => (out, q)
  | b :: bs => putBytes (Function.update out q b) (q + 1) bs

def bytes32 (v : UInt32) : List UInt8 :=
  [(v >>> 24).toUInt8, (v >>> 16).toUInt8, (v >>> 8).toUInt8, v.toUInt8]

/-- The locals that the nested functions of the template share: the output cursor `q` and
the buffer it runs over, the input cursor `r` as an offset into the attribute bytes, and the
attribute found last. -/
structure Locals where
  out : Mem
  q : Nat
  r : Nat
  flags : UInt8
  typeCode : UInt8
  attrLength : UInt16
  attrPtr : Option Nat

namespace Locals

def put (c : Locals) (bs : List UInt8) : Locals :=
  let (out, q) := putBytes c.out c.q bs
  { c with out, q }

def putHeader (c : Locals) (flags typeCode : UInt8) (attrLength : UInt16) : Locals :=
  if attrLength < 256 then
    c.put [flags &&& ~~~0x10, typeCode, attrLength.toUInt8]
  else
    c.put [flags ||| 0x10, typeCode, (attrLength >>> 8).toUInt8, attrLength.toUInt8]

def putValue (c : Locals) (attrs : Mem) (p n : Nat) : Locals :=
  { c with out := memcpy c.out c.q attrs p n, q := c.q + n }

def set (c : Locals) (attrs : Mem) (attrLength : UInt16) (flags typeCode : UInt8)
    (attrPtr : Option Nat) : Exec Locals :=
  match attrPtr with
  | none => .error .assertion
  | some p => .ok ((c.putHeader flags typeCode attrLength).putValue attrs p attrLength.toNat)

def set4 (c : Locals) (flags typeCode : UInt8) (v : UInt32) : Locals :=
  c.put ([flags &&& ~~~0x10, typeCode, 4] ++ bytes32 v)

/-- A path shorter than a segment header makes the size of the last copy negative. -/
def prepend (c : Locals) (attrs : Mem) (as : UInt32) : Exec Locals :=
  match c.attrPtr with
  | none => .ok c
  | some p => do
    assert (2 = attrs p)
    let oldSeqLength := attrs (p + 1)
    assert (255 > oldSeqLength)
    let newAttrLength := 4 + c.attrLength
    let c' := (c.putHeader c.flags c.typeCode newAttrLength).put
      ([2, oldSeqLength + 1] ++ bytes32 as)
    if c.attrLength < 2 then .error .segv
    else return c'.putValue attrs (p + 6) (c.attrLength.toNat - 2)

def copy (c : Locals) (attrs : Mem) : Locals :=
  match c.attrPtr with
  | none => c
  | some p => (c.putHeader c.flags c.typeCode c.attrLength).putValue attrs p c.attrLength.toNat

/-- The loop of `get`. -/
def getLoop (attrs : Mem) (limit : Nat) (wanted : UInt8) : Nat → Locals → Exec Locals
  | 0, _ => .error .loop
  | fuel + 1, c =>
    if c.r + 2 < limit then
      let flags := attrs c.r
      let (typeCode, attrLength, value) := attrHeader attrs c.r
      let c := { c with flags, typeCode, attrLength, r := value + attrLength.toNat }
      if typeCode < wanted then getLoop attrs limit wanted fuel c
      else if typeCode = wanted then .ok { c with attrPtr := some value }
      else .ok c
    else .ok c

theorem getLoop_rounds {attrs : Mem} {limit f g : Nat} {wanted : UInt8} {c : Locals}
    (hf : limit - c.r < f) (hg : limit - c.r < g) :
    getLoop attrs limit wanted f c = getLoop attrs limit wanted g c := by
  induction f generalizing g c with
  | zero => exact absurd hf (Nat.not_lt_zero _)
  | succ f ih =>
    obtain ⟨g, rfl⟩ : ∃ k, g = k + 1 := ⟨g - 1, by omega⟩
    have hvalue := attrHeader_value attrs c.r
    rw [getLoop, getLoop]
    generalize attrHeader attrs c.r = header at hvalue
    obtain ⟨typeCode, attrLength, value⟩ := header
    simp only at hvalue ⊢
    split_ifs
    · apply ih
      · simp only
        omega
      · simp only
        omega
    · rfl
    · rfl
    · rfl

def get (c : Locals) (attrs : Mem) (limit : Nat) (wanted : UInt8) : Exec Locals :=
  getLoop attrs limit wanted (limit + 1) { c with attrPtr := none }

end Locals

/-- `*q_base` on entry; the other locals are assigned before they are read. -/
def localsInit (out : Mem) (q : Nat) : Locals := ⟨out, q, 0, 0, 0, 0, none⟩

/-- What the serializers of `peergroup.c` take and give back: the route, the buffer and
`*q_base`, and the limit that none of them reads. -/
abbrev Serializer := Route → Mem → Nat → UInt16 → Exec (Mem × Nat)

open Attr

def serializeIbgp : Serializer := fun route out q _ => do
  let attrs := route.attributes
  let limit := route.updateLength.toNat
  let c ← (localsInit out q).get attrs limit origin
  let c ← c.set attrs 1 0x40 origin c.attrPtr
  let c ← c.get attrs limit asPath
  let c := c.copy attrs
  let c ← c.get attrs limit nextHop
  let c := c.copy attrs
  let c := c.set4 0x40 localPref route.tiebreak.localPref
  return (c.out, c.q)

def serializeEbgp : Serializer := fun route out q _ => do
  let attrs := route.attributes
  let limit := route.updateLength.toNat
  let c ← (localsInit out q).get attrs limit origin
  let c ← c.set attrs 1 0x40 origin c.attrPtr
  let c ← c.get attrs limit asPath
  let c ← c.prepend attrs 42
  let c ← c.get attrs limit nextHop
  let c := c.copy attrs
  let c ← c.get attrs limit community
  let c := c.copy attrs
  return (c.out, c.q)

def serializeCopy : Serializer := fun route out q _ => do
  let attrs := route.attributes
  let limit := route.updateLength.toNat
  let c ← (localsInit out q).get attrs limit origin
  let c := c.copy attrs
  let c ← c.get attrs limit asPath
  let c := c.copy attrs
  let c ← c.get attrs limit nextHop
  let c := c.copy attrs
  let c ← c.get attrs limit community
  let c := c.copy attrs
  return (c.out, c.q)

end FastParse
