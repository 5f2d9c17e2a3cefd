import FastParse.Phase3.Exported
import FastParse.Table.Bigtable
import Mathlib.Algebra.GroupWithZero.Nat

namespace FastParse

open Framework

/-- The attributes in front of `limit` from `r` on: type and length of the value. -/
def attributesUpTo (attrs : Mem) (limit : Nat) : Nat → Nat → List (UInt8 × UInt16)
  | 0, _ => []
  | fuel + 1, r =>
    if r + 2 < limit then
      let (typeCode, attrLength, value) := attrHeader attrs r
      (typeCode, attrLength) :: attributesUpTo attrs limit fuel (value + attrLength.toNat)
    else []

def attributesFrom (attrs : Mem) (limit r : Nat) : List (UInt8 × UInt16) :=
  attributesUpTo attrs limit (limit - r) r

theorem attributesUpTo_rounds {attrs : Mem} {limit f g r : Nat} (hf : limit - r ≤ f)
    (hg : limit - r ≤ g) : attributesUpTo attrs limit f r = attributesUpTo attrs limit g r := by
  induction f generalizing g r with
  | zero =>
    have hr : ¬ r + 2 < limit := by omega
    cases g with
    | zero => rfl
    | succ g => rw [attributesUpTo, attributesUpTo, if_neg hr]
  | succ f ih =>
    by_cases hr : r + 2 < limit
    · obtain ⟨g, rfl⟩ : ∃ k, g = k + 1 := ⟨g - 1, by omega⟩
      have hvalue := attrHeader_value attrs r
      rw [attributesUpTo, attributesUpTo, if_pos hr, if_pos hr]
      generalize attrHeader attrs r = header at hvalue
      obtain ⟨typeCode, attrLength, value⟩ := header
      simp only at hvalue ⊢
      have hrest := @ih g (value + attrLength.toNat) (by omega) (by omega)
      rw [hrest]
    · rw [attributesUpTo, if_neg hr]
      cases g with
      | zero => rfl
      | succ g => rw [attributesUpTo, if_neg hr]

theorem attributesFrom_eq (attrs : Mem) (limit r : Nat) :
    attributesFrom attrs limit r =
      if r + 2 < limit then
        ((attrHeader attrs r).1, (attrHeader attrs r).2.1) ::
          attributesFrom attrs limit
            ((attrHeader attrs r).2.2 + (attrHeader attrs r).2.1.toNat)
      else [] := by
  have hvalue := attrHeader_value attrs r
  rw [attributesFrom, attributesUpTo_rounds (Nat.le_refl _) (Nat.le_succ (limit - r)),
    attributesUpTo]
  split_ifs with hr
  · rw [attributesFrom]
    simp only
    rw [attributesUpTo_rounds (g := limit -
      ((attrHeader attrs r).2.2 + (attrHeader attrs r).2.1.toNat)) (by omega) (Nat.le_refl _)]
  · rfl

/-- What `get` makes of the attributes still to come: the length of the wanted one, if it is
there, and what is left. An attribute behind the wanted type is passed over as well. -/
def pick (wanted : UInt8) : List (UInt8 × UInt16) → Option UInt16 × List (UInt8 × UInt16)
  | [] => (none, [])
  | (typeCode, attrLength) :: rest =>
    if typeCode < wanted then pick wanted rest
    else (if typeCode = wanted then some attrLength else none, rest)

/-- An attribute with `n` bytes behind its header of three or four. -/
def attrSize (attrLength : UInt16) (n : Nat) : Nat := (if attrLength < 256 then 3 else 4) + n

def copySize : Option UInt16 → Nat
  | none => 0
  | some attrLength => attrSize attrLength attrLength.toNat

def prependSize : Option UInt16 → Nat
  | none => 0
  | some attrLength => attrSize (4 + attrLength) (6 + (attrLength.toNat - 2))

open Attr in
/-- The length of the AS_PATH that the serializers find. -/
def foundPathLength (route : Route) : Option UInt16 :=
  let attrs := attributesFrom route.attributes route.updateLength.toNat 0
  (pick asPath (pick origin attrs).2).1

open Attr in
/-- The length of the attributes a serializer writes: ORIGIN takes four bytes, LOCAL_PREF
seven. -/
def exportLength (kind : Kind) (route : Route) : Nat :=
  let attrs := attributesFrom route.attributes route.updateLength.toNat 0
  let (originLength, attrs) := pick origin attrs
  let (pathLength, attrs) := pick asPath attrs
  let (hopLength, attrs) := pick nextHop attrs
  let (communityLength, _) := pick community attrs
  match kind with
  | .ibgp => 4 + copySize pathLength + copySize hopLength + 7
  | .ebgp => 4 + prependSize pathLength + copySize hopLength + copySize communityLength
  | .copy => copySize originLength + copySize pathLength + copySize hopLength +
      copySize communityLength

namespace Locals

def found (c : Locals) : Option UInt16 := c.attrPtr.map fun _ => c.attrLength

/-- `c` has written up to `q`, and the attributes `l` are still to come. -/
structure At (attrs : Mem) (limit : Nat) (c : Locals) (q : Nat) (l : List (UInt8 × UInt16)) :
    Prop where
  cursor : c.q = q
  rest : attributesFrom attrs limit c.r = l

variable {attrs : Mem} {limit q : Nat} {l : List (UInt8 × UInt16)}

theorem getLoop_at {fuel : Nat} {wanted : UInt8} {c c' : Locals} (hp : c.attrPtr = none)
    (hc : c.At attrs limit q l) (h : getLoop attrs limit wanted fuel c = .ok c') :
    c'.At attrs limit q (pick wanted l).2 ∧ c'.found = (pick wanted l).1 := by
  induction fuel generalizing c l with
  | zero => cases h
  | succ fuel ih =>
    obtain ⟨rfl, rfl⟩ := hc
    rw [getLoop] at h
    rw [attributesFrom_eq]
    generalize attrHeader attrs c.r = header at h
    obtain ⟨typeCode, attrLength, value⟩ := header
    simp only at h ⊢
    split_ifs at h with hr hless hwanted
    · rw [if_pos hr, pick, if_pos hless]
      exact ih (c := { c with
        flags := attrs c.r, typeCode, attrLength, r := value + attrLength.toNat }) hp ⟨rfl, rfl⟩ h
    · cases h
      rw [if_pos hr, pick, if_neg hless, if_pos hwanted]
      exact ⟨⟨rfl, rfl⟩, rfl⟩
    · cases h
      rw [if_pos hr, pick, if_neg hless, if_neg hwanted]
      refine ⟨⟨rfl, rfl⟩, ?_⟩
      rw [found]
      simp only [hp]
      rfl
    · cases h
      rw [if_neg hr]
      refine ⟨⟨rfl, ?_⟩, ?_⟩
      · rw [attributesFrom_eq, if_neg hr]
        rfl
      · rw [found, hp]
        rfl

theorem get_at {wanted : UInt8} {c c' : Locals} (hc : c.At attrs limit q l)
    (h : c.get attrs limit wanted = .ok c') :
    c'.At attrs limit q (pick wanted l).2 ∧ c'.found = (pick wanted l).1 :=
  getLoop_at (c := { c with attrPtr := none }) rfl ⟨hc.cursor, hc.rest⟩ h

theorem length_headerBytes (flags typeCode : UInt8) (attrLength : UInt16) :
    (headerBytes flags typeCode attrLength).length = if attrLength < 256 then 3 else 4 := by
  rw [headerBytes]
  split_ifs
  · rfl
  · rfl

theorem put_at {c : Locals} (hc : c.At attrs limit q l) (bs : List UInt8) :
    (c.put bs).At attrs limit (q + bs.length) l := by
  rw [put_eq]
  exact ⟨congrArg (· + bs.length) hc.cursor, hc.rest⟩

theorem copy_at {c : Locals} (hc : c.At attrs limit q l) :
    (c.copy attrs).At attrs limit (q + copySize c.found) l := by
  have hlength : (copyBytes attrs c).length = copySize c.found := by
    rw [copyBytes, found]
    cases c.attrPtr with
    | none => rfl
    | some p =>
      simp only
      rw [List.length_append, length_headerBytes, length_slice]
      rfl
  rw [copy_eq, ← hlength]
  exact put_at hc _

theorem set_at {flags typeCode : UInt8} {ptr : Option Nat} {c c' : Locals}
    (hc : c.At attrs limit q l) (h : c.set attrs 1 flags typeCode ptr = .ok c') :
    c'.At attrs limit (q + 4) l := by
  cases ptr with
  | none => cases h
  | some p =>
    cases h
    rw [putHeader_eq, putValue_eq, put_put]
    exact put_at hc _

theorem prepend_at {as : UInt32} {c c' : Locals} (hc : c.At attrs limit q l)
    (h : c.prepend attrs as = .ok c') :
    c'.At attrs limit (q + prependSize c.found) l := by
  cases hp : c.attrPtr with
  | none =>
    simp only [prepend, hp] at h
    cases h
    rw [found, hp]
    exact hc
  | some p =>
    obtain ⟨_, rfl⟩ := (prepend_ok hp).mp h
    have hlength : (prependBytes attrs c p as).length = prependSize c.found := by
      rw [found, hp, prependBytes, List.length_append, List.length_append, length_headerBytes,
        length_slice, Nat.add_assoc]
      rfl
    rw [← hlength]
    exact put_at hc _

end Locals

theorem localsInit_at (route : Route) (out : Mem) (q : Nat) :
    (localsInit out q).At route.attributes route.updateLength.toNat q
      (attributesFrom route.attributes route.updateLength.toNat 0) := ⟨rfl, rfl⟩

open Locals in
/-- The serializers write what the closed form says. -/
theorem Kind.serializer_length {kind : Kind} {route : Route} {out out' : Mem} {q q' : Nat}
    {limit : UInt16} (h : kind.serializer route out q limit = .ok (out', q')) :
    q' = q + exportLength kind route := by
  have h0 := localsInit_at route out q
  simp only [exportLength]
  generalize attributesFrom route.attributes route.updateLength.toNat 0 = l at h0
  cases kind with
  | ibgp =>
    simp only [serializer, serializeIbgp, bind_eq_ok] at h
    obtain ⟨c1, h1, c2, h2, c3, h3, c4, h4, h⟩ := h
    have a1 := (get_at h0 h1).1
    have a2 := set_at a1 h2
    obtain ⟨a3, f3⟩ := get_at a2 h3
    obtain ⟨a4, f4⟩ := get_at (copy_at a3) h4
    cases h
    have a5 := put_at (copy_at a4) ([0x40 &&& ~~~0x10, Attr.localPref, 4] ++
      bytes32 route.tiebreak.localPref)
    rw [f3, f4] at a5
    exact a5.cursor.trans (by simp only [← Nat.add_assoc]; rfl)
  | ebgp =>
    simp only [serializer, serializeEbgp, bind_eq_ok] at h
    obtain ⟨c1, h1, c2, h2, c3, h3, c4, h4, c5, h5, c6, h6, h⟩ := h
    have a1 := (get_at h0 h1).1
    have a2 := set_at a1 h2
    obtain ⟨a3, f3⟩ := get_at a2 h3
    have a4 := prepend_at a3 h4
    obtain ⟨a5, f5⟩ := get_at a4 h5
    obtain ⟨a6, f6⟩ := get_at (copy_at a5) h6
    cases h
    have a7 := copy_at a6
    rw [f3, f5, f6] at a7
    exact a7.cursor.trans (by simp only [← Nat.add_assoc])
  | copy =>
    simp only [serializer, serializeCopy, bind_eq_ok] at h
    obtain ⟨c1, h1, c2, h2, c3, h3, c4, h4, h⟩ := h
    obtain ⟨a1, f1⟩ := get_at h0 h1
    obtain ⟨a2, f2⟩ := get_at (copy_at a1) h2
    obtain ⟨a3, f3⟩ := get_at (copy_at a2) h3
    obtain ⟨a4, f4⟩ := get_at (copy_at a3) h4
    cases h
    have a5 := copy_at a4
    rw [f1, f2, f3, f4] at a5
    exact a5.cursor.trans (by simp only [← Nat.add_assoc])

def nlriSize (w : Nat) : Nat := 1 + chunkSize (Nat.log2 w % 256)

theorem length_nlriSection (t : Bigtable) (indices : List Nat) :
    (nlriSection t indices).length = (indices.map fun i => nlriSize (t.bigtable i)).sum := by
  induction indices with
  | nil => rfl
  | cons i rest ih =>
    have hsec : nlriSection t (i :: rest) =
        nlriForm (decode (t.bigtable i)) ++ nlriSection t rest := rfl
    have hlen : lengthOf (decode (t.bigtable i)) = Nat.log2 (t.bigtable i) :=
      (prefix_halves (Nat.mod_lt _ (Nat.two_pow_pos _))).1
    have hform : (nlriForm (decode (t.bigtable i))).length = nlriSize (t.bigtable i) := by
      simp only [nlriForm, List.length_cons, length_nlriBytes, hlen, UInt8.toNat_ofNat']
      exact Nat.add_comm _ 1
    rw [hsec, List.length_append, ih, hform, List.map_cons, List.sum_cons]

theorem buildUpdate_size {kind : Kind} {t : Bigtable} {route : Route} {indices : List Nat}
    {out out' : Mem} {size : Nat}
    (h : buildUpdate kind.serializer t route indices out = .ok (out', size)) :
    size = 23 + exportLength kind route + (indices.map fun i => nlriSize (t.bigtable i)).sum := by
  obtain ⟨bs, hbs⟩ := buildUpdate_exports h
  have hlen := Nat.add_left_cancel (Kind.serializer_length (hbs out 23 4064))
  rw [(buildUpdate_ok hbs h).2, hlen, length_nlriSection]

end FastParse
