import FastParse.Phase3.Layout

namespace FastParse

open Framework

namespace Locals

/-- `c` over another buffer. -/
def moved (c : Locals) (out : Mem) (q : Nat) : Locals := { c with out, q }

/-- Over any buffer `f` appends the same bytes and finds the same attribute. -/
def Appends (f : Locals → Exec Locals) : Prop :=
  ∀ c c', f c = .ok c' → ∃ bs, ∀ out q,
    f (c.moved out q) = .ok (c'.moved (overlay out q bs) (q + bs.length))

theorem put_eq (c : Locals) (bs : List UInt8) :
    c.put bs = c.moved (overlay c.out c.q bs) (c.q + bs.length) := by
  rw [put, putBytes_eq]
  rfl

theorem moved_put (c : Locals) (out : Mem) (q : Nat) (bs : List UInt8) :
    (c.moved out q).put bs = c.moved (overlay out q bs) (q + bs.length) := put_eq _ bs

def headerBytes (flags typeCode : UInt8) (attrLength : UInt16) : List UInt8 :=
  if attrLength < 256 then [flags &&& ~~~0x10, typeCode, attrLength.toUInt8]
  else [flags ||| 0x10, typeCode, (attrLength >>> 8).toUInt8, attrLength.toUInt8]

theorem putHeader_eq (c : Locals) (flags typeCode : UInt8) (attrLength : UInt16) :
    c.putHeader flags typeCode attrLength = c.put (headerBytes flags typeCode attrLength) := by
  rw [putHeader, headerBytes]
  split_ifs
  · rfl
  · rfl

theorem putValue_eq (c : Locals) (attrs : Mem) (p n : Nat) :
    c.putValue attrs p n = c.put (slice attrs p n) := by
  rw [put_eq, putValue, memcpy_eq, length_slice]
  rfl

theorem put_put (c : Locals) (bs bs' : List UInt8) : (c.put bs).put bs' = c.put (bs ++ bs') := by
  rw [put_eq c bs, moved_put, put_eq, overlay_append, List.length_append, Nat.add_assoc]

/-- Writing bytes that do not depend on the buffer. -/
theorem appends_put (bytes : Locals → List UInt8)
    (h : ∀ c out q, bytes (c.moved out q) = bytes c) : Appends fun c => .ok (c.put (bytes c)) := by
  intro c c' hc
  cases hc
  refine ⟨bytes c, ?_⟩
  intro out q
  change Except.ok ((c.moved out q).put (bytes (c.moved out q))) = _
  rw [h, moved_put, put_eq]
  rfl

theorem getLoop_moved (attrs : Mem) (limit : Nat) (wanted : UInt8) (fuel : Nat) (c : Locals)
    (out : Mem) (q : Nat) :
    getLoop attrs limit wanted fuel (c.moved out q) =
      (getLoop attrs limit wanted fuel c).map fun c' => c'.moved out q := by
  induction fuel generalizing c with
  | zero => rfl
  | succ fuel ih =>
    have hr : (c.moved out q).r = c.r := rfl
    rw [getLoop, getLoop]
    simp only [hr]
    generalize attrHeader attrs c.r = header
    obtain ⟨typeCode, attrLength, value⟩ := header
    simp only
    split_ifs
    · exact ih { c with
        flags := attrs c.r, typeCode, attrLength, r := value + attrLength.toNat }
    · rfl
    · rfl
    · rfl

theorem appends_get (attrs : Mem) (limit : Nat) (wanted : UInt8) :
    Appends fun c => c.get attrs limit wanted := by
  intro c c' hc
  refine ⟨[], ?_⟩
  intro out q
  have e := getLoop_moved attrs limit wanted (limit + 1) { c with attrPtr := none } out q
  change getLoop attrs limit wanted (limit + 1) { c with attrPtr := none } = .ok c' at hc
  rw [hc] at e
  exact e

def copyBytes (attrs : Mem) (c : Locals) : List UInt8 :=
  match c.attrPtr with
  | none => []
  | some p => headerBytes c.flags c.typeCode c.attrLength ++ slice attrs p c.attrLength.toNat

theorem copy_eq (c : Locals) (attrs : Mem) : c.copy attrs = c.put (copyBytes attrs c) := by
  rw [copy, copyBytes]
  cases c.attrPtr with
  | none => rfl
  | some p =>
    simp only
    rw [putHeader_eq, putValue_eq, put_put]

theorem appends_copy (attrs : Mem) : Appends fun c => .ok (c.copy attrs) := by
  simp only [copy_eq]
  apply appends_put
  intro c out q
  rfl

theorem appends_set4 (flags typeCode : UInt8) (v : UInt32) :
    Appends fun c => .ok (c.set4 flags typeCode v) := by
  apply appends_put
  intro c out q
  rfl

theorem appends_set (attrs : Mem) (attrLength : UInt16) (flags typeCode : UInt8) :
    Appends fun c => c.set attrs attrLength flags typeCode c.attrPtr := by
  intro c c' hc
  simp only [set] at hc
  cases hp : c.attrPtr with
  | none =>
    rw [hp] at hc
    cases hc
  | some p =>
    rw [hp] at hc
    cases hc
    refine ⟨headerBytes flags typeCode attrLength ++ slice attrs p attrLength.toNat, ?_⟩
    intro out q
    change set (c.moved out q) attrs attrLength flags typeCode c.attrPtr = _
    rw [hp, set, putHeader_eq, putValue_eq, put_put, moved_put, putHeader_eq, putValue_eq,
      put_put, put_eq]
    rfl

/-- The bytes `prepend` writes for a path at `p`. -/
def prependBytes (attrs : Mem) (c : Locals) (p : Nat) (as : UInt32) : List UInt8 :=
  headerBytes c.flags c.typeCode (4 + c.attrLength) ++ ([2, attrs (p + 1) + 1] ++ bytes32 as) ++
    slice attrs (p + 6) (c.attrLength.toNat - 2)

theorem prepend_ok {c c' : Locals} {attrs : Mem} {as : UInt32} {p : Nat}
    (hp : c.attrPtr = some p) :
    c.prepend attrs as = .ok c' ↔
      (2 = attrs p ∧ 255 > attrs (p + 1) ∧ ¬ c.attrLength < 2) ∧
        c' = c.put (prependBytes attrs c p as) := by
  simp only [prepend, hp, assert_bind_ok]
  rw [putHeader_eq, put_put, putValue_eq, put_put, ← prependBytes]
  by_cases hlen : c.attrLength < 2
  · rw [if_pos hlen]
    constructor
    · intro h
      cases h.2.2
    · intro h
      exact absurd hlen h.1.2.2
  · rw [if_neg hlen]
    constructor
    · intro h
      exact ⟨⟨h.1, h.2.1, hlen⟩, (Except.ok.inj h.2.2).symm⟩
    · intro h
      rw [h.2]
      exact ⟨h.1.1, h.1.2.1, rfl⟩

theorem appends_prepend (attrs : Mem) (as : UInt32) : Appends fun c => c.prepend attrs as := by
  intro c c' hc
  cases hp : c.attrPtr with
  | none =>
    simp only [prepend, hp] at hc
    cases hc
    refine ⟨[], ?_⟩
    intro out q
    simp only [prepend]
    change (match c.attrPtr with | none => _ | some p => _) = _
    rw [hp]
    rfl
  | some p =>
    obtain ⟨hok, rfl⟩ := (prepend_ok hp).mp hc
    refine ⟨prependBytes attrs c p as, ?_⟩
    intro out q
    rw [prepend_ok (c := c.moved out q) hp]
    refine ⟨hok, ?_⟩
    change _ = (c.moved out q).put (prependBytes attrs c p as)
    rw [moved_put, put_eq]
    rfl

theorem appends_foldlM {steps : List (Locals → Exec Locals)} (h : ∀ f ∈ steps, Appends f) :
    Appends fun c => steps.foldlM (fun c f => f c) c := by
  induction steps with
  | nil =>
    intro c c' hc
    cases hc
    exact ⟨[], fun out q => rfl⟩
  | cons f steps ih =>
    intro c c' hc
    simp only [List.foldlM_cons] at hc
    rw [bind_eq_ok] at hc
    obtain ⟨c1, h1, h2⟩ := hc
    obtain ⟨bs, hbs⟩ := h f List.mem_cons_self c c1 h1
    obtain ⟨bs', hbs'⟩ := ih (fun g hg => h g (List.mem_cons_of_mem f hg)) c1 c' h2
    refine ⟨bs ++ bs', ?_⟩
    intro out q
    simp only [List.foldlM_cons]
    rw [bind_eq_ok]
    refine ⟨_, hbs out q, ?_⟩
    rw [overlay_append, List.length_append, ← Nat.add_assoc]
    exact hbs' _ _

end Locals

/-- The three instances of the template. -/
inductive Kind where
  | ibgp
  | ebgp
  | copy
  deriving DecidableEq, Repr

namespace Kind

def serializer : Kind → Serializer
  | ibgp => serializeIbgp
  | ebgp => serializeEbgp
  | copy => serializeCopy

open Attr in
/-- What the serializer does, one step after the other. -/
def steps (route : Route) (kind : Kind) : List (Locals → Exec Locals) :=
  let attrs := route.attributes
  let limit := route.updateLength.toNat
  match kind with
  | ibgp => [(·.get attrs limit origin), fun c => c.set attrs 1 0x40 origin c.attrPtr,
      (·.get attrs limit asPath), fun c => .ok (c.copy attrs),
      (·.get attrs limit nextHop), fun c => .ok (c.copy attrs),
      fun c => .ok (c.set4 0x40 localPref route.tiebreak.localPref)]
  | ebgp => [(·.get attrs limit origin), fun c => c.set attrs 1 0x40 origin c.attrPtr,
      (·.get attrs limit asPath), (·.prepend attrs 42),
      (·.get attrs limit nextHop), fun c => .ok (c.copy attrs),
      (·.get attrs limit community), fun c => .ok (c.copy attrs)]
  | copy => [(·.get attrs limit origin), fun c => .ok (c.copy attrs),
      (·.get attrs limit asPath), fun c => .ok (c.copy attrs),
      (·.get attrs limit nextHop), fun c => .ok (c.copy attrs),
      (·.get attrs limit community), fun c => .ok (c.copy attrs)]

theorem serializer_steps (kind : Kind) (route : Route) (out : Mem) (q : Nat) (limit : UInt16) :
    kind.serializer route out q limit = do
      let c ← (kind.steps route).foldlM (fun c f => f c) (localsInit out q)
      return (c.out, c.q) := by
  cases kind with
  | ibgp =>
    simp only [steps, List.foldlM_cons, List.foldlM_nil, bind_assoc]
    rfl
  | ebgp =>
    simp only [steps, List.foldlM_cons, List.foldlM_nil, bind_assoc]
    rfl
  | copy =>
    simp only [steps, List.foldlM_cons, List.foldlM_nil, bind_assoc]
    rfl

theorem steps_append (kind : Kind) (route : Route) :
    ∀ f ∈ kind.steps route, Locals.Appends f := by
  cases kind with
  | ibgp => simp [steps, Locals.appends_get, Locals.appends_set, Locals.appends_copy,
      Locals.appends_set4]
  | ebgp => simp [steps, Locals.appends_get, Locals.appends_set, Locals.appends_copy,
      Locals.appends_prepend]
  | copy => simp [steps, Locals.appends_get, Locals.appends_copy]

/-- The attribute bytes made of a route are the same over every buffer. -/
def Exports (kind : Kind) (route : Route) (bs : List UInt8) : Prop :=
  ∀ out q limit, kind.serializer route out q limit = .ok (overlay out q bs, q + bs.length)

theorem exists_exports {kind : Kind} {route : Route} {out : Mem} {q : Nat} {limit : UInt16}
    {r : Mem × Nat} (h : kind.serializer route out q limit = .ok r) :
    ∃ bs, kind.Exports route bs := by
  rw [serializer_steps, bind_eq_ok] at h
  obtain ⟨c, hc, _⟩ := h
  obtain ⟨bs, hbs⟩ := Locals.appends_foldlM (kind.steps_append route) _ c hc
  refine ⟨bs, ?_⟩
  intro out' q' limit'
  rw [serializer_steps, bind_eq_ok]
  exact ⟨_, hbs out' q', rfl⟩

end Kind

/-- The message for one peer group and its size, before it is written to the file. -/
def buildUpdate (serialize : Serializer) (t : Bigtable) (route : Route) (indices : List Nat)
    (out : Mem) : Exec (Mem × Nat) := do
  let (out, txp) ← serialize route out 23 4064
  let attributeLength := UInt16.ofNat (txp - 23)
  let out := putw16 out 21 attributeLength
  let (out, txp) ← buildNlris t out txp indices
  return (putw16 out 16 (UInt16.ofNat txp), txp)

theorem emitUpdateTo_eq (disk : Nat → Bool) (t : Bigtable) (route : Route) (indices : List Nat)
    (tx : Tx) (pg : Peergroup) (pix : Nat) :
    emitUpdateTo disk t route indices tx pg pix = do
      let (out, size) ← buildUpdate pg.serialize t route indices tx.buffer
      within (size ≤ txBufferSize)
      let updateLength := UInt16.ofNat size
      let tx ← writeFile disk pix pg updateLength { tx with buffer := out }
      return { tx with overLengthDetected :=
        tx.overLengthDetected || decide (4096 < updateLength) } := by
  simp only [emitUpdateTo, buildUpdate, bind_assoc]
  rfl

def updateBuffer (out : Mem) (bs nlri : List UInt8) : Mem :=
  putw16 (overlay (putw16 (overlay out 23 bs) 21 (UInt16.ofNat bs.length)) (23 + bs.length) nlri)
    16 (UInt16.ofNat (23 + bs.length + nlri.length))

theorem buildUpdate_exports {kind : Kind} {t : Bigtable} {route : Route} {indices : List Nat}
    {out : Mem} {r : Mem × Nat}
    (h : buildUpdate kind.serializer t route indices out = .ok r) :
    ∃ bs, kind.Exports route bs := by
  rw [buildUpdate, bind_eq_ok] at h
  obtain ⟨_, hser, _⟩ := h
  exact Kind.exists_exports hser

theorem buildUpdate_ok {kind : Kind} {t : Bigtable} {route : Route} {indices : List Nat}
    {out out' : Mem} {size : Nat} {bs : List UInt8} (hbs : kind.Exports route bs)
    (h : buildUpdate kind.serializer t route indices out = .ok (out', size)) :
    out' = updateBuffer out bs (nlriSection t indices) ∧
      size = 23 + bs.length + (nlriSection t indices).length := by
  rw [buildUpdate, hbs out 23 4064] at h
  change (do let (out, txp) ← buildNlris t _ _ indices; _) = _ at h
  rw [bind_eq_ok] at h
  obtain ⟨⟨out1, txp⟩, hnlri, h⟩ := h
  obtain ⟨rfl, rfl⟩ := buildNlris_ok hnlri
  cases h
  rw [Nat.add_sub_cancel_left]
  exact ⟨rfl, rfl⟩

/-- Nothing runs into what has been written before. -/
theorem updateBuffer_outside {out : Mem} {bs nlri : List UInt8} {i : Nat}
    (h : i < 16 ∨ 18 ≤ i ∧ i < 21) : updateBuffer out bs nlri i = out i := by
  have h16 : i < 16 ∨ 16 + 2 ≤ i := by omega
  have hbs : i < 23 + bs.length := by omega
  have h21 : i < 21 := by omega
  have h23 : i < 23 := by omega
  rw [updateBuffer, putw16_outside h16, overlay_outside _ _ (.inl hbs), putw16_outside (.inl h21),
    overlay_outside _ _ (.inl h23)]

end FastParse
