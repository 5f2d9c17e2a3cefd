import FastParse.Phase3.Completion
import Mathlib.Data.List.Flatten

namespace FastParse

open Framework Attr

namespace Locals

/-- The header of the attribute at `r`. -/
def headerReads (attrs : Mem) (r : Nat) : List Nat :=
  if Extended (attrs r) then [r, r + 1, r + 2, r + 3] else [r, r + 1, r + 2]

def getLoopReads (attrs : Mem) (limit : Nat) (wanted : UInt8) : Nat → Locals → List Nat
  | 0, _ => []
  | fuel + 1, c =>
    if c.r + 2 < limit then
      headerReads attrs c.r ++
        if (c.pass attrs).typeCode < wanted then
          getLoopReads attrs limit wanted fuel (c.pass attrs)
        else []
    else []

def getReads (c : Locals) (attrs : Mem) (limit : Nat) (wanted : UInt8) : List Nat :=
  getLoopReads attrs limit wanted (limit + 1) { c with attrPtr := none }

/-- The value that `copy` copies. -/
def copyReads (c : Locals) : List Nat :=
  match c.attrPtr with
  | none => []
  | some p => (List.range c.attrLength.toNat).map (p + ·)

def copiesReads (attrs : Mem) (limit : Nat) : List UInt8 → Locals → List Nat
  | [], _ => []
  | wanted :: rest, c =>
    c.getReads attrs limit wanted ++
      match c.get attrs limit wanted with
      | .error _ => []
      | .ok c' => c'.copyReads ++ copiesReads attrs limit rest (c'.copy attrs)

section
variable {attrs : Mem} {limit : Nat} {wanted : UInt8}

/-- The attribute at a cursor with room for a header lies inside the block. -/
theorem pass_inside {r : Nat} (h : Tiled attrs limit r) (hr : r + 2 < limit) :
    attributeEnd attrs r ≤ limit ∧ Tiled attrs limit (attributeEnd attrs r) := by
  cases h with
  | done => omega
  | step _ h => exact ⟨h.le, h⟩

theorem headerReads_inside {r i : Nat} (hi : i ∈ headerReads attrs r) :
    i < attributeEnd attrs r := by
  rw [attributeEnd_eq, attrHeader_eq]
  rw [headerReads] at hi
  split_ifs at hi ⊢
  · simp only [List.mem_cons, List.not_mem_nil, or_false] at hi
    simp only
    omega
  · simp only [List.mem_cons, List.not_mem_nil, or_false] at hi
    simp only
    omega

theorem attrHeader_congr {attrs' : Mem} {r : Nat}
    (h : ∀ i ∈ headerReads attrs r, attrs i = attrs' i) :
    attrs r = attrs' r ∧ attrHeader attrs r = attrHeader attrs' r := by
  have hflags : attrs r = attrs' r := by
    apply h
    rw [headerReads]
    split_ifs
    · exact List.mem_cons_self
    · exact List.mem_cons_self
  refine ⟨hflags, ?_⟩
  rw [attrHeader_eq, attrHeader_eq, ← hflags]
  rw [headerReads] at h
  split_ifs at h ⊢
  · rw [h (r + 1) (by simp), getw16_congr (h (r + 2) (by simp)) (h (r + 3) (by simp))]
  · rw [h (r + 1) (by simp), h (r + 2) (by simp)]

theorem getLoop_congr {attrs' : Mem} {fuel : Nat} {c : Locals}
    (h : ∀ i ∈ getLoopReads attrs limit wanted fuel c, attrs i = attrs' i) :
    getLoop attrs limit wanted fuel c = getLoop attrs' limit wanted fuel c := by
  induction fuel generalizing c with
  | zero => rfl
  | succ fuel ih =>
    rw [getLoop_eq, getLoop_eq]
    rw [getLoopReads] at h
    by_cases hr : c.r + 2 < limit
    · rw [if_pos hr] at h
      obtain ⟨hflags, hheader⟩ := attrHeader_congr fun i hi => h i (List.mem_append_left _ hi)
      have hpass : c.pass attrs = c.pass attrs' := by
        rw [pass, pass, attributeEnd_eq, attributeEnd_eq, hflags, hheader]
      rw [if_pos hr, if_pos hr, ← hpass, ← hheader]
      by_cases hless : (c.pass attrs).typeCode < wanted
      · rw [if_pos hless, if_pos hless]
        apply ih
        intro i hi
        apply h
        rw [if_pos hless]
        exact List.mem_append_right _ hi
      · rw [if_neg hless, if_neg hless]
    · rw [if_neg hr, if_neg hr]

theorem copy_congr {attrs' : Mem} {c : Locals} (h : ∀ i ∈ c.copyReads, attrs i = attrs' i) :
    c.copy attrs = c.copy attrs' := by
  rw [copy_eq, copy_eq, copyBytes, copyBytes]
  rw [copyReads] at h
  cases hp : c.attrPtr with
  | none => rfl
  | some p =>
    rw [hp] at h
    have hvalue : slice attrs p c.attrLength.toNat = slice attrs' p c.attrLength.toNat := by
      apply slice_congr
      intro i hi
      exact h (p + i) (List.mem_map_of_mem (List.mem_range.mpr hi))
    simp only [hvalue]

theorem copies_congr {attrs' : Mem} {wanted : List UInt8} {c : Locals}
    (h : ∀ i ∈ copiesReads attrs limit wanted c, attrs i = attrs' i) :
    c.copies attrs limit wanted = c.copies attrs' limit wanted := by
  induction wanted generalizing c with
  | nil => rfl
  | cons w wanted ih =>
    rw [copiesReads] at h
    have hget : c.get attrs limit w = c.get attrs' limit w :=
      getLoop_congr fun i hi => h i (List.mem_append_left _ hi)
    rw [copies, copies, List.foldlM_cons, List.foldlM_cons, ← hget]
    cases hc : c.get attrs limit w with
    | error e => rfl
    | ok c' =>
      have hrest : ∀ i ∈ c'.copyReads ++ copiesReads attrs limit wanted (c'.copy attrs),
          attrs i = attrs' i := by
        intro i hi
        apply h
        rw [hc]
        exact List.mem_append_right _ hi
      have hcopy : c'.copy attrs = c'.copy attrs' :=
        copy_congr fun i hi => hrest i (List.mem_append_left _ hi)
      have htail := ih fun i hi => hrest i (List.mem_append_right _ hi)
      rw [hcopy] at htail
      change copies (c'.copy attrs) attrs limit wanted = copies (c'.copy attrs') attrs' limit wanted
      rw [hcopy]
      exact htail

/-- On a tiled block the search stays inside, and so does the attribute it finds. -/
theorem getLoop_inside {fuel : Nat} {c : Locals} (h : Tiled attrs limit c.r)
    (hptr : c.attrPtr = none) :
    (∀ i ∈ getLoopReads attrs limit wanted fuel c, i < limit) ∧
      ∀ c', getLoop attrs limit wanted fuel c = .ok c' →
        Tiled attrs limit c'.r ∧ ∀ i ∈ c'.copyReads, i < limit := by
  induction fuel generalizing c with
  | zero => exact ⟨fun i hi => (nomatch hi), fun c' hc => (nomatch hc)⟩
  | succ fuel ih =>
    rw [getLoopReads, getLoop_eq]
    by_cases hr : c.r + 2 < limit
    · obtain ⟨hle, htiled⟩ := pass_inside h hr
      have hheader : ∀ i ∈ headerReads attrs c.r, i < limit := fun i hi =>
        Nat.lt_of_lt_of_le (headerReads_inside hi) hle
      have hpass : (c.pass attrs).copyReads = [] := by
        rw [copyReads]
        change (match c.attrPtr with | none => [] | some p => _) = _
        rw [hptr]
      rw [if_pos hr, if_pos hr]
      split_ifs with hless hwanted
      · obtain ⟨hreads, hrest⟩ := @ih (c.pass attrs) htiled hptr
        refine ⟨?_, hrest⟩
        intro i hi
        cases List.mem_append.mp hi with
        | inl hi => exact hheader i hi
        | inr hi => exact hreads i hi
      · refine ⟨by simpa using hheader, ?_⟩
        intro c' hc
        cases hc
        refine ⟨htiled, ?_⟩
        intro i hi
        obtain ⟨k, hk, rfl⟩ := List.mem_map.mp hi
        have hk : k < (attrHeader attrs c.r).2.1.toNat := List.mem_range.mp hk
        rw [attributeEnd_eq] at hle
        omega
      · refine ⟨by simpa using hheader, ?_⟩
        intro c' hc
        cases hc
        refine ⟨htiled, ?_⟩
        rw [hpass]
        exact fun i hi => nomatch hi
    · rw [if_neg hr, if_neg hr]
      refine ⟨fun i hi => (nomatch hi), ?_⟩
      intro c' hc
      cases hc
      refine ⟨h, ?_⟩
      rw [copyReads, hptr]
      exact fun i hi => nomatch hi

theorem copiesReads_inside {wanted : List UInt8} {c : Locals} (h : Tiled attrs limit c.r) :
    ∀ i ∈ copiesReads attrs limit wanted c, i < limit := by
  induction wanted generalizing c with
  | nil => exact fun i hi => nomatch hi
  | cons w wanted ih =>
    obtain ⟨hget, hnext⟩ :=
      @getLoop_inside attrs limit w (limit + 1) { c with attrPtr := none } h rfl
    intro i hi
    rw [copiesReads] at hi
    cases List.mem_append.mp hi with
    | inl hi => exact hget i hi
    | inr hi =>
      cases hc : c.get attrs limit w with
      | error e =>
        rw [hc] at hi
        cases hi
      | ok c' =>
        obtain ⟨htiled, hcopy⟩ := hnext c' hc
        simp only [hc] at hi
        cases List.mem_append.mp hi with
        | inl hi => exact hcopy i hi
        | inr hi =>
          apply ih _ i hi
          rw [copy_eq, put_eq]
          exact htiled

end

end Locals

/-- Everything `serialize_copy` reads of the attribute bytes. -/
def serializeCopyReads (route : Route) (out : Mem) (q : Nat) : List Nat :=
  Locals.copiesReads route.attributes route.updateLength.toNat
    [origin, asPath, nextHop, community] (localsInit out q)

/-- Nothing else is read. -/
theorem serializeCopy_congr {route : Route} {attributes out : Mem} {q : Nat}
    (h : ∀ i ∈ serializeCopyReads route out q, route.attributes i = attributes i)
    (limit : UInt16) :
    serializeCopy route out q limit = serializeCopy { route with attributes } out q limit := by
  rw [serializeCopy_eq, serializeCopy_eq, Locals.copies_congr h]

theorem seek_sublist (wanted : UInt8) (l : List Attribute) :
    ((seek wanted l).1.toList ++ (seek wanted l).2).Sublist l := by
  induction l with
  | nil => exact List.Sublist.refl _
  | cons a l ih =>
    rw [seek]
    split_ifs
    · exact ih.cons a
    · exact List.Sublist.refl _
    · exact List.sublist_cons_self a l

theorem picked_sublist (wanted : List UInt8) (l : List Attribute) :
    (picked wanted l).Sublist l := by
  induction wanted generalizing l with
  | nil => exact List.nil_sublist l
  | cons w wanted ih =>
    rw [picked]
    exact ((List.Sublist.refl _).append (ih _)).trans (seek_sublist w l)

theorem seek_typeCode {wanted : UInt8} {l : List Attribute} {a : Attribute}
    (h : (seek wanted l).1 = some a) : a.typeCode = wanted := by
  rw [seek_eq] at h
  simpa using (Option.filter_eq_some_iff.mp h).2

/-- At most one attribute of each type, in the order of the searches. -/
theorem picked_types (wanted : List UInt8) (l : List Attribute) :
    ((picked wanted l).map Attribute.typeCode).Sublist wanted := by
  induction wanted generalizing l with
  | nil => exact List.Sublist.refl _
  | cons w wanted ih =>
    rw [picked, List.map_append]
    cases hs : (seek w l).1 with
    | none => exact (ih _).cons w
    | some a =>
      have htype := seek_typeCode hs
      have hhead : List.map Attribute.typeCode (some a).toList = [w] := by simp [htype]
      rw [hhead]
      exact (ih _).cons_cons w

theorem length_canonical_le (a : Attribute) : a.canonical.encode.length ≤ a.encode.length := by
  rw [Attribute.length_encode, Attribute.length_encode]
  change (if Extended a.canonicalFlags then 4 else 3) + a.value.length ≤ _
  have hfits := a.fits
  rw [Attribute.canonicalFlags]
  rw [lengthLimit] at hfits
  by_cases hshort : a.value.length < 256
  · rw [if_pos hshort, if_neg (not_extended_clear _)]
    split_ifs
    · omega
    · omega
  · rw [if_neg hshort, if_pos (extended_set _)]
    split_ifs at hfits ⊢
    · omega
    · omega

theorem length_encodeAll_canonical (l : List Attribute) :
    (encodeAll (l.map Attribute.canonical)).length ≤ (encodeAll l).length := by
  induction l with
  | nil => exact Nat.le_refl _
  | cons a l ih =>
    rw [List.map_cons, encodeAll_cons, encodeAll_cons, List.length_append, List.length_append]
    exact Nat.add_le_add (length_canonical_le a) ih

/-- For every block that `parse_attributes` accepts. -/
theorem copy_safe (route : Route) (h : route.Accepted) (out : Mem) (q : Nat) (limit : UInt16) :
    ∃ sent : List Attribute,
      serializeCopy route out q limit =
        .ok (overlay out q (encodeAll (sent.map Attribute.canonical)),
          q + (encodeAll (sent.map Attribute.canonical)).length) ∧
      slice route.attributes 0 route.updateLength.toNat = encodeAll route.block ∧
      sent.Sublist route.block ∧
      (sent.map Attribute.typeCode).Pairwise (· < ·) ∧
      (∀ a ∈ sent, a.typeCode ∈ [origin, asPath, nextHop, community]) ∧
      (encodeAll (sent.map Attribute.canonical)).length ≤ route.updateLength.toNat ∧
      ∀ i ∈ serializeCopyReads route out q, i < route.updateLength.toNat := by
  have hsub := picked_sublist [origin, asPath, nextHop, community] route.block
  have htypes := picked_types [origin, asPath, nextHop, community] route.block
  refine ⟨_, copy_exports route out q limit, h.slice_eq, hsub, ?_, ?_, ?_, ?_⟩
  · apply List.Pairwise.sublist htypes
    decide
  · intro a ha
    exact htypes.subset (List.mem_map_of_mem ha)
  · rw [← h.length_eq]
    exact (length_encodeAll_canonical _).trans (hsub.flatMap Attribute.encode).length_le
  · exact Locals.copiesReads_inside h.tiled.2.1

def blockRoute (bytes : List UInt8) : Route :=
  ⟨0, 0, UInt16.ofNat bytes.length, ⟨0, 0, 0, 0, 0, 0, 0, 0⟩, bytesMem bytes⟩

theorem blockRoute_accepted {bytes : List UInt8}
    (h : (parseAttributes (bytesMem bytes) 0 (UInt16.ofNat bytes.length)
      ⟨0, 0, 0, 0, 0, 0, 0, 0⟩).map (fun _ => ()) = .ok ()) : (blockRoute bytes).Accepted := by
  obtain ⟨tb, htb, _⟩ := exists_of_map_eq_ok h
  exact ⟨bytesMem bytes, 0, rfl, _, tb, htb⟩

/-- An unknown attribute in front, a NEXT_HOP with a two-byte length, and an empty attribute at
the end. -/
def mixedBlock : List UInt8 :=
  [0x80, 99, 1, 5] ++ [0x50, 3, 0, 4, 10, 0, 0, 1] ++ [0x40, 6, 0]

theorem copy_safe_mixed :
    ∃ sent : List Attribute,
      serializeCopy (blockRoute mixedBlock) (fun _ => 0) 0 0 =
        .ok (overlay (fun _ => 0) 0 (encodeAll (sent.map Attribute.canonical)),
          0 + (encodeAll (sent.map Attribute.canonical)).length) ∧
      slice (blockRoute mixedBlock).attributes 0 (blockRoute mixedBlock).updateLength.toNat =
        encodeAll (blockRoute mixedBlock).block ∧
      sent.Sublist (blockRoute mixedBlock).block ∧
      (sent.map Attribute.typeCode).Pairwise (· < ·) ∧
      (∀ a ∈ sent, a.typeCode ∈ [origin, asPath, nextHop, community]) ∧
      (encodeAll (sent.map Attribute.canonical)).length ≤
        (blockRoute mixedBlock).updateLength.toNat ∧
      ∀ i ∈ serializeCopyReads (blockRoute mixedBlock) (fun _ => 0) 0,
        i < (blockRoute mixedBlock).updateLength.toNat :=
  copy_safe (blockRoute mixedBlock) (blockRoute_accepted (by decide +kernel)) (fun _ => 0) 0 0

end FastParse
