import FastParse.Phase3.Partition
import FastParse.Update.Framing
import FastParse.Update.Sections

namespace FastParse

open Framework

section
variable {o : Outlet} {heap : Ptr → Route} {t : Bigtable} {K : Egress → Prop}

/-- `addrreftable` has a place for every index of a block. -/
theorem fillBlock_room {route1 route2 : Ptr} {room : Nat} {rib : Rib} {addrref : Nat}
    {indices : List Nat} {out : Rib × Nat × Ptr}
    (h : fillBlock route1 room rib addrref route2 = .ok (indices, out)) :
    indices.length ≤ room := by
  induction room generalizing rib addrref route2 indices with
  | zero =>
    rw [fillBlock] at h
    split_ifs at h
    cases h
    exact Nat.le_refl 0
  | succ room ih =>
    rw [fillBlock] at h
    split_ifs at h
    · obtain ⟨⟨taken, out'⟩, hfill, h⟩ := bind_eq_ok.mp h
      cases h
      exact Nat.succ_le_succ (ih hfill)
    · cases h
      exact Nat.zero_le _

def Keeps (o : Outlet) (heap : Ptr → Route) (t : Bigtable) (K : Egress → Prop) (b : Block) :
    Prop :=
  b.indices.length ≤ 4096 → ∀ e e', emitBlock o heap t b.route b.indices e = .ok e' → K e → K e'

theorem phase3Loop_keeps {fuel addrref : Nat} {rib rib' : Rib} {e e' : Egress}
    (hn : ∀ a ∈ rib.journal.queue, a ≠ journalEmpty) (ha : addrref ≠ journalEmpty)
    (hhead : ∀ a, rib.head a ≠ emptyPtr)
    (hkeep : ∀ b ∈ blocksOf rib.head (addrref :: rib.journal.queue), Keeps o heap t K b)
    (he : K e) (h : phase3Loop o heap t fuel addrref (rib.head addrref) rib e = .ok (rib', e')) :
    K e' := by
  induction fuel generalizing addrref rib e with
  | zero => cases h
  | succ fuel ih =>
    rw [phase3Loop, if_neg (hhead addrref).symm] at h
    simp only [if_neg ha.symm, bind_eq_ok] at h
    obtain ⟨⟨next, route, rib1, e1⟩, hround, h⟩ := h
    simp only [phase3Round, bind_eq_ok] at hround
    obtain ⟨⟨indices, rib2, next1, route1⟩, hfill, e2, hemit, hround⟩ := hround
    cases hround
    obtain ⟨taken, rfl, hall, hstop, hne⟩ := fillBlock_spec (hhead addrref) hn hfill
    rw [hstop.blocks hall hne] at hkeep
    have he1 : K e1 := hkeep _ List.mem_cons_self (fillBlock_room hfill) e e1 hemit he
    cases hstop with
    | inl hs =>
      obtain ⟨rfl, _, _, _⟩ := hs
      simp only [ne_eq, not_true, if_false] at h
      cases h
      exact he1
    | inr hs =>
      obtain ⟨hnext, hq, rfl, hc⟩ := hs
      simp only [ne_eq, hnext.symm, not_false_eq_true, if_true] at h
      have hn1 : ∀ a ∈ rib2.journal.queue, a ≠ journalEmpty := by
        intro a ha
        exact hn a (by simp [hq, ha])
      rw [if_neg hnext, ← hc.head] at hkeep
      rw [← hc.head] at h
      exact ih hn1 hnext (hc.heads_ne hhead)
        (fun b hb => hkeep b (List.mem_cons_of_mem _ hb)) he1 h

theorem phase3Loop_keeps_all {rounds fuel : Nat} {rib rib' : Rib} {e e' : Egress}
    (hf : rounds = fuel + 1) (hn : ∀ a ∈ rib.journal.queue, a ≠ journalEmpty)
    (hhead : ∀ a, rib.head a ≠ emptyPtr)
    (hkeep : ∀ b ∈ blocksOf rib.head rib.journal.queue, Keeps o heap t K b) (he : K e)
    (h : phase3Loop o heap t rounds journalEmpty emptyPtr rib e = .ok (rib', e')) : K e' := by
  subst hf
  cases hq : rib.journal.queue with
  | nil =>
    rw [phase3Loop, if_pos rfl, pullHead_nil hq] at h
    simp only [if_true] at h
    cases h
    exact he
  | cons a rest =>
    have ha : a ≠ journalEmpty := hn a (by simp [hq])
    obtain ⟨rib1, hrest, hc, hprimed⟩ := @phase3Loop_primed o heap t fuel a rest rib e hq ha hhead
    rw [hprimed] at h
    have hn1 : ∀ b ∈ rib1.journal.queue, b ≠ journalEmpty := by
      intro b hb
      exact hn b (by simp [hq, ← hrest, hb])
    rw [hq, ← hrest, ← hc.head] at hkeep
    exact phase3Loop_keeps hn1 ha (hc.heads_ne hhead) hkeep he h

theorem schedulePhase3_keeps {hard : Bool} {gate gate' : Gate} {rib rib' : Rib} {e e' : Egress}
    (hn : ∀ a ∈ rib.journal.queue, a ≠ journalEmpty) (hhead : ∀ a, rib.head a ≠ emptyPtr)
    (hkeep : ∀ b ∈ blocksOf rib.head rib.journal.queue, Keeps o heap t K b) (he : K e)
    (h : schedulePhase3 o heap t hard gate rib e = .ok (gate', rib', e')) : K e' := by
  rw [schedulePhase3] at h
  split_ifs at h
  · cases h
    exact he
  · rw [assert_bind_ok, bind_eq_ok] at h
    obtain ⟨_, ⟨rib1, e1⟩, hl, h⟩ := h
    rw [assert_bind_ok] at h
    obtain ⟨_, h⟩ := h
    cases h
    exact phase3Loop_keeps_all (show big = 999999 + 1 from rfl) hn hhead hkeep he hl

end

theorem writeFile_written {disk : Nat → Bool} {pix : Nat} {pg : Peergroup} {length : UInt16}
    {tx tx' : Tx} (h : writeFile disk pix pg length tx = .ok tx') :
    tx'.written.reverse = tx.written.reverse ++
      if pg.file then [(pix, slice tx'.buffer 0 length.toNat)] else [] := by
  rw [writeFile] at h
  split_ifs at h ⊢
  · rw [assert_bind_ok] at h
    obtain ⟨_, h⟩ := h
    cases h
    simp [slice]
  · cases h
    simp

/-- The message for one peer group: its attributes, what it leaves in the buffer, and what is
written of that. -/
theorem emitUpdateTo_ok {disk : Nat → Bool} {t : Bigtable} {route : Route} {indices : List Nat}
    {tx tx' : Tx} {pg : Peergroup} {pix : Nat} {kind : Kind}
    (hkind : pg.serialize = kind.serializer)
    (h : emitUpdateTo disk t route indices tx pg pix = .ok tx') :
    ∃ bs, kind.Exports route bs ∧
      tx'.buffer = updateBuffer tx.buffer bs (nlriSection t indices) ∧
      (tx'.written.reverse = tx.written.reverse ++ if pg.file then
        [(pix, slice tx'.buffer 0
          (UInt16.ofNat (23 + bs.length + (nlriSection t indices).length)).toNat)] else []) ∧
      tx'.overLengthDetected = (tx.overLengthDetected || decide
        (4096 < UInt16.ofNat (23 + bs.length + (nlriSection t indices).length))) := by
  simp only [emitUpdateTo_eq, bind_eq_ok] at h
  obtain ⟨⟨out, size⟩, hbuild, _, _, tx1, hwrite, h⟩ := h
  cases h
  rw [hkind] at hbuild
  obtain ⟨bs, hbs⟩ := buildUpdate_exports hbuild
  obtain ⟨rfl, rfl⟩ := buildUpdate_ok hbs hbuild
  obtain ⟨hbuffer, hflag⟩ := writeFile_buffer hwrite
  have hwritten := writeFile_written hwrite
  refine ⟨bs, hbs, hbuffer, hwritten, ?_⟩
  rw [hflag]

/-- What a serializer makes of a route. -/
def exportBytes (serialize : Serializer) (route : Route) : List UInt8 :=
  match serialize route (fun _ => 0) 0 0 with
  | .ok (out, q) => slice out 0 q
  | .error _ => []

theorem exportBytes_eq {kind : Kind} {route : Route} {bs : List UInt8}
    (h : kind.Exports route bs) : exportBytes kind.serializer route = bs := by
  rw [exportBytes, h, Nat.zero_add]
  exact slice_overlay _ 0 bs

def Exported (pg : Peergroup) (route : Route) : Prop :=
  ∃ (kind : Kind) (bs : List UInt8), pg.serialize = kind.serializer ∧ kind.Exports route bs

/-- A block as it went out, with what its route said at that moment. -/
structure Dispatch where
  route : Route
  indices : List Nat

/-- The peer groups with an open file, and their numbers. -/
def openGroups (pgs : List Peergroup) : List (Peergroup × Nat) :=
  pgs.zipIdx.filter fun x => x.1.file

namespace Dispatch

variable (t : Bigtable) (d : Dispatch)

/-- No withdrawn routes, the attributes for the peer group, and the prefixes. -/
def body (pg : Peergroup) : List UInt8 :=
  let attributes := exportBytes pg.serialize d.route
  [0, 0] ++ (bytes16 (UInt16.ofNat attributes.length) ++ (attributes ++ nlriSection t d.indices))

theorem length_body (pg : Peergroup) : (d.body t pg).length =
    4 + (exportBytes pg.serialize d.route).length + (nlriSection t d.indices).length := by
  simp only [body, List.length_append, length_bytes16]
  simp only [List.length_cons, List.length_nil]
  omega

theorem frame_body (pg : Peergroup) : frame (d.body t pg) =
    updateBytes (exportBytes pg.serialize d.route) (nlriSection t d.indices) := by
  have hsize : 19 + (d.body t pg).length =
      23 + (exportBytes pg.serialize d.route).length + (nlriSection t d.indices).length := by
    rw [length_body]
    omega
  rw [frame, hsize, updateBytes, body]
  rfl

def sent (xs : List (Peergroup × Nat)) : List (Nat × List UInt8) :=
  (xs.filter fun x => x.1.file).map fun x => (x.2, frame (d.body t x.1))

variable {t d}

/-- A message that a 16-bit length is enough for goes out whole. -/
theorem emitted {disk : Nat → Bool} {tx tx' : Tx} {pg : Peergroup} {pix : Nat} {kind : Kind}
    (hkind : pg.serialize = kind.serializer) (hhead : Headed tx.buffer)
    (hfits : (frame (d.body t pg)).length < 2 ^ 16)
    (h : emitUpdateTo disk t d.route d.indices tx pg pix = .ok tx') :
    Headed tx'.buffer ∧
      (tx'.written.reverse = tx.written.reverse ++
        if pg.file then [(pix, frame (d.body t pg))] else []) ∧
      tx'.overLengthDetected =
        (tx.overLengthDetected || decide (4096 < (frame (d.body t pg)).length)) ∧
      Exported pg d.route := by
  obtain ⟨bs, hbs, hbuffer, hwritten, hflag⟩ := emitUpdateTo_ok hkind h
  have hexport : exportBytes pg.serialize d.route = bs := by
    rw [hkind]
    exact exportBytes_eq hbs
  have hlength := d.length_body t pg
  rw [hexport] at hlength
  rw [length_frame, hlength] at hfits ⊢
  have hsize : (UInt16.ofNat (23 + bs.length + (nlriSection t d.indices).length)).toNat =
      23 + bs.length + (nlriSection t d.indices).length := by
    rw [UInt16.toNat_ofNat']
    omega
  refine ⟨?_, ?_, ?_, kind, bs, hkind, hbs⟩
  · rw [hbuffer]
    exact updateBuffer_headed hhead _ _
  · rw [hwritten, hsize, hbuffer, updateBuffer_bytes hhead, frame_body, hexport]
  · have hlong : 4096 < UInt16.ofNat (23 + bs.length + (nlriSection t d.indices).length) ↔
        4096 < 19 + (4 + bs.length + (nlriSection t d.indices).length) := by
      rw [UInt16.lt_iff_toNat_lt, hsize]
      change 4096 < _ ↔ _
      omega
    rw [hflag, decide_eq_decide.mpr hlong]

theorem emitted_all {disk : Nat → Bool} {tx tx' : Tx} {xs : List (Peergroup × Nat)}
    (hkind : ∀ x ∈ xs, ∃ kind : Kind, x.1.serialize = kind.serializer) (hhead : Headed tx.buffer)
    (hfits : ∀ x ∈ xs, (frame (d.body t x.1)).length < 2 ^ 16)
    (h : xs.foldlM (fun tx (pg, pix) => emitUpdateTo disk t d.route d.indices tx pg pix) tx =
      .ok tx') :
    Headed tx'.buffer ∧ tx'.written.reverse = tx.written.reverse ++ d.sent t xs ∧
      (tx'.overLengthDetected = false → tx.overLengthDetected = false ∧
        ∀ x ∈ xs, (frame (d.body t x.1)).length ≤ 4096) ∧
      ∀ x ∈ xs, Exported x.1 d.route := by
  induction xs generalizing tx with
  | nil =>
    cases h
    refine ⟨hhead, ?_, ?_, fun x hx => absurd hx List.not_mem_nil⟩
    · rw [sent]
      simp
    · intro hclean
      exact ⟨hclean, fun x hx => absurd hx List.not_mem_nil⟩
  | cons x xs ih =>
    rw [List.foldlM_cons, bind_eq_ok] at h
    obtain ⟨tx1, hfirst, h⟩ := h
    obtain ⟨kind, hk⟩ := hkind x List.mem_cons_self
    obtain ⟨hhead1, hwritten1, hflag1, hexported1⟩ :=
      emitted hk hhead (hfits x List.mem_cons_self) hfirst
    obtain ⟨hhead', hwritten, hflag, hexported⟩ :=
      ih (fun y hy => hkind y (List.mem_cons_of_mem x hy)) hhead1
        (fun y hy => hfits y (List.mem_cons_of_mem x hy)) h
    refine ⟨hhead', ?_, ?_, List.forall_mem_cons.mpr ⟨hexported1, hexported⟩⟩
    · rw [hwritten, hwritten1, sent, sent, List.filter_cons]
      split_ifs
      · simp
      · simp
    · intro hclean
      obtain ⟨hclean1, hrest⟩ := hflag hclean
      rw [hflag1, Bool.or_eq_false_iff, decide_eq_false_iff_not, Nat.not_lt] at hclean1
      refine ⟨hclean1.1, ?_⟩
      intro y hy
      cases List.mem_cons.mp hy with
      | inl e => exact e ▸ hclean1.2
      | inr hy => exact hrest y hy

end Dispatch

/-- The marker is set up once, type and withdraw length for every block. -/
theorem headed_start {m : Mem} (hmark : ∀ i < 16, m i = 0xff) :
    Headed (putw16 (Function.update m 18 2) 19 0) :=
  @emitUpdate_headed (fun _ => true) [] (fun _ hpg => absurd hpg List.not_mem_nil) Bigtable.init
    ⟨0, 0, 0, ⟨0, 0, 0, 0, 0, 0, 0, 0⟩, fun _ => 0⟩ [] ⟨m, [], false⟩ _ hmark rfl

theorem Headed.marker {m : Mem} (h : Headed m) : ∀ i < 16, m i = 0xff := by
  intro i hi
  have hff : slice m 0 16 = slice (fun _ => 0xff) 0 16 := h.1.trans (by decide)
  have e := slice_inj hff i hi
  rwa [Nat.zero_add] at e

def valueBytes (l : List (UInt8 × UInt16)) : Nat := (l.map fun a => a.2.toNat).sum

theorem valueBytes_pick (wanted : UInt8) (l : List (UInt8 × UInt16)) :
    ((pick wanted l).1.map UInt16.toNat).getD 0 + valueBytes (pick wanted l).2 ≤ valueBytes l := by
  induction l with
  | nil => exact Nat.le_refl 0
  | cons a l ih =>
    obtain ⟨typeCode, attrLength⟩ := a
    have hcons : valueBytes ((typeCode, attrLength) :: l) = attrLength.toNat + valueBytes l := by
      simp [valueBytes]
    rw [pick, hcons]
    split_ifs
    · omega
    · simp
    · simp

theorem valueBytes_tiled {attrs : Mem} {limit r : Nat} (h : Tiled attrs limit r) :
    valueBytes (attributesFrom attrs limit r) ≤ limit - r := by
  induction h with
  | done =>
    rw [attributesFrom_eq, if_neg (by omega)]
    exact Nat.zero_le _
  | @step r hr hrest ih =>
    have hend : after Attribute.encode (attributeAt attrs) r =
        (attrHeader attrs r).2.2 + (attrHeader attrs r).2.1.toNat := attributeEnd_eq attrs r
    have hvalue := attrHeader_value attrs r
    have hle := hrest.le
    rw [attributesFrom_eq]
    split_ifs
    · have hcons : valueBytes (((attrHeader attrs r).1, (attrHeader attrs r).2.1) ::
          attributesFrom attrs limit ((attrHeader attrs r).2.2 + (attrHeader attrs r).2.1.toNat)) =
          (attrHeader attrs r).2.1.toNat + valueBytes (attributesFrom attrs limit
            ((attrHeader attrs r).2.2 + (attrHeader attrs r).2.1.toNat)) := by
        simp [valueBytes]
      rw [hend] at ih hle
      rw [hcons]
      omega
    · exact Nat.zero_le _

theorem copySize_le (o : Option UInt16) : copySize o ≤ 4 + (o.map UInt16.toNat).getD 0 := by
  cases o with
  | none => exact Nat.zero_le _
  | some attrLength =>
    simp only [copySize, attrSize, Option.map_some, Option.getD_some]
    split_ifs
    · omega
    · omega

theorem prependSize_le (o : Option UInt16) : prependSize o ≤ 10 + (o.map UInt16.toNat).getD 0 := by
  cases o with
  | none => exact Nat.zero_le _
  | some attrLength =>
    simp only [prependSize, attrSize, Option.map_some, Option.getD_some]
    split_ifs
    · omega
    · omega

open Attr in
/-- No serializer writes much more than it was given. -/
theorem exportLength_le (kind : Kind) {route : Route} (h : route.Accepted) :
    exportLength kind route ≤ route.updateLength.toNat + 22 := by
  have htotal := valueBytes_tiled h.tiled.2.1
  simp only [exportLength]
  generalize attributesFrom route.attributes route.updateLength.toNat 0 = l at htotal
  have h1 := valueBytes_pick origin l
  have h2 := valueBytes_pick asPath (pick origin l).2
  have h3 := valueBytes_pick nextHop (pick asPath (pick origin l).2).2
  have h4 := valueBytes_pick community (pick nextHop (pick asPath (pick origin l).2).2).2
  have c1 := copySize_le (pick origin l).1
  have c2 := copySize_le (pick asPath (pick origin l).2).1
  have c3 := copySize_le (pick nextHop (pick asPath (pick origin l).2).2).1
  have c4 := copySize_le (pick community (pick nextHop (pick asPath (pick origin l).2).2).2).1
  have c5 := prependSize_le (pick asPath (pick origin l).2).1
  cases kind with
  | ibgp =>
    simp only
    omega
  | ebgp =>
    simp only
    omega
  | copy =>
    simp only
    omega

theorem length_exportBytes_le (kind : Kind) {route : Route} (h : route.Accepted) :
    (exportBytes kind.serializer route).length ≤ route.updateLength.toNat + 22 := by
  rw [exportBytes]
  cases hser : kind.serializer route (fun _ => 0) 0 0 with
  | error halt => exact Nat.zero_le _
  | ok r =>
    have hlength := Kind.serializer_length hser
    simp only [length_slice]
    rw [hlength, Nat.zero_add]
    exact exportLength_le kind h

theorem nlriSize_le {w : Nat} (h : 1 ≤ w) (h' : w < 2 ^ 25) : nlriSize w ≤ 4 := by
  have hlog : Nat.log2 w ≤ 24 := Nat.lt_succ_iff.mp ((Nat.log2_lt (by omega)).mpr h')
  rw [nlriSize, chunkSize]
  omega

theorem length_nlriSection_le {t : Bigtable} {indices : List Nat} (h : Encoded t indices) :
    (nlriSection t indices).length ≤ 4 * indices.length := by
  induction indices with
  | nil => exact Nat.le_refl 0
  | cons i indices ih =>
    have hi := nlriSize_le (h i List.mem_cons_self).1 (h i List.mem_cons_self).2
    have hrest := ih fun j hj => h j (List.mem_cons_of_mem i hj)
    rw [length_nlriSection] at hrest ⊢
    rw [List.map_cons, List.sum_cons, List.length_cons]
    omega

/-- Block after block has gone out as one message for each open file, none of them too long; the
routes had `P` at the time. -/
structure Stream (pgs : List Peergroup) (t : Bigtable) (P : Route → Prop) (e : Egress)
    (ds : List Dispatch) : Prop where
  marker : ∀ i < 16, e.tx.buffer i = 0xff
  clean : e.tx.overLengthDetected = false
  written : e.tx.written.reverse = ds.flatMap fun d => d.sent t pgs.zipIdx
  blocks : e.blocks.reverse.map Block.indices = ds.map Dispatch.indices
  indices : ∀ d ∈ ds, d.indices ≠ [] ∧ ∀ i ∈ d.indices, i < t.bigtableIndex
  size : ∀ d ∈ ds, ∀ pg ∈ pgs, (frame (d.body t pg)).length ≤ 4096
  exported : ∀ d ∈ ds, ∀ pg ∈ pgs, Exported pg d.route
  route : ∀ d ∈ ds, P d.route

namespace Stream

variable {o : Outlet} {heap : Ptr → Route} {t t' : Bigtable} {P : Route → Prop} {e e' : Egress}
  {ds : List Dispatch}

theorem start (pgs : List Peergroup) (t : Bigtable) (P : Route → Prop) :
    Stream pgs t P ⟨txInit, 0, []⟩ [] := by
  refine ⟨?_, rfl, rfl, rfl, ?_, ?_, ?_, ?_⟩
  · intro i hi
    simp [txInit, hi]
  · intro d hd
    exact absurd hd List.not_mem_nil
  · intro d hd
    exact absurd hd List.not_mem_nil
  · intro d hd
    exact absurd hd List.not_mem_nil
  · intro d hd
    exact absurd hd List.not_mem_nil

theorem body_congr {d : Dispatch} (h : ∀ i ∈ d.indices, t'.bigtable i = t.bigtable i) :
    d.body t' = d.body t := by
  funext pg
  have hsection : nlriSection t' d.indices = nlriSection t d.indices := by
    apply congrArg List.flatten
    apply List.map_congr_left
    intro i hi
    rw [h i hi]
  rw [Dispatch.body, Dispatch.body, hsection]

/-- Messages do not change with the tables: words are filed once and for all. -/
theorem grow {pgs : List Peergroup} (h : Stream pgs t P e ds)
    (hnext : t.bigtableIndex ≤ t'.bigtableIndex)
    (hword : ∀ i < t.bigtableIndex, t'.bigtable i = t.bigtable i) : Stream pgs t' P e ds := by
  have hbody : ∀ d ∈ ds, d.body t' = d.body t :=
    fun d hd => body_congr fun i hi => hword i ((h.indices d hd).2 i hi)
  refine ⟨h.marker, h.clean, ?_, h.blocks, ?_, ?_, h.exported, h.route⟩
  · rw [h.written]
    apply List.flatMap_congr
    intro d hd
    simp only [Dispatch.sent, hbody d hd]
  · intro d hd
    exact ⟨(h.indices d hd).1, fun i hi => ((h.indices d hd).2 i hi).trans_le hnext⟩
  · intro d hd pg hpg
    rw [hbody d hd]
    exact h.size d hd pg hpg

/-- One more block, unless a message of it is too long. -/
theorem emit (h : Stream o.peergroups t P e ds)
    (hpgs : ∀ pg ∈ o.peergroups, ∃ kind : Kind, pg.serialize = kind.serializer) {b : Block}
    (hroute : b.route ≠ null) (hne : b.indices ≠ []) (hroom : b.indices.length ≤ 4096)
    (hin : ∀ i ∈ b.indices, i < t.bigtableIndex) (hwords : Encoded t b.indices)
    (hacc : (heap b.route).Accepted) (hlen : (heap b.route).updateLength.toNat ≤ 4096)
    (hP : P (heap b.route)) (hemit : emitBlock o heap t b.route b.indices e = .ok e') :
    e'.tx.overLengthDetected = true ∨
      Stream o.peergroups t P e' (ds ++ [⟨heap b.route, b.indices⟩]) := by
  obtain ⟨_, hblocks⟩ := emitBlock_ok hemit
  rw [emitBlock, bind_eq_ok] at hemit
  obtain ⟨tx, htx, hemit⟩ := hemit
  cases hemit
  rw [emitMessages, if_neg hroute.symm, emitUpdate] at htx
  have hkinds : ∀ x ∈ o.peergroups.zipIdx, ∃ kind : Kind, x.1.serialize = kind.serializer :=
    fun x hx => hpgs x.1 (List.fst_mem_of_mem_zipIdx hx)
  have hfits : ∀ x ∈ o.peergroups.zipIdx,
      (frame (Dispatch.body t ⟨heap b.route, b.indices⟩ x.1)).length < 2 ^ 16 := by
    intro x hx
    obtain ⟨kind, hkind⟩ := hkinds x hx
    have hattributes := length_exportBytes_le kind hacc
    have hnlri := length_nlriSection_le hwords
    rw [length_frame, Dispatch.length_body, hkind]
    simp only
    omega
  obtain ⟨hhead, hwritten, hflag, hexported⟩ :=
    @Dispatch.emitted_all t ⟨heap b.route, b.indices⟩ o.disk _ tx
    o.peergroups.zipIdx hkinds (headed_start h.marker) hfits htx
  cases hclean : tx.overLengthDetected with
  | true => exact .inl rfl
  | false =>
    right
    obtain ⟨_, hsize⟩ := hflag hclean
    have last {R : Dispatch → Prop} (hall : ∀ d ∈ ds, R d) (hlast : R ⟨heap b.route, b.indices⟩) :
        ∀ d ∈ ds ++ [⟨heap b.route, b.indices⟩], R d := by
      intro d hd
      cases List.mem_append.mp hd with
      | inl hd => exact hall d hd
      | inr hd => exact List.mem_singleton.mp hd ▸ hlast
    refine ⟨hhead.marker, hclean, ?_, ?_, last h.indices ⟨hne, hin⟩, ?_, ?_, last h.route hP⟩
    · rw [hwritten, List.flatMap_append, ← h.written]
      simp
    · rw [hblocks]
      simp [h.blocks]
    · refine last h.size ?_
      intro pg hpg
      obtain ⟨pix, hpix⟩ := List.mem_iff_getElem?.mp hpg
      exact hsize (pg, pix) (List.mk_mem_zipIdx_iff_getElem?.mpr hpix)
    · refine last h.exported ?_
      intro pg hpg
      obtain ⟨pix, hpix⟩ := List.mem_iff_getElem?.mp hpg
      exact hexported (pg, pix) (List.mk_mem_zipIdx_iff_getElem?.mpr hpix)

end Stream

/-- The file of a peer group. -/
def fileOf (tx : Tx) (pix : Nat) : List UInt8 :=
  (tx.written.reverse.filter fun w => w.1 = pix).flatMap Prod.snd

theorem filter_zipIdx {pgs : List Peergroup} {k pix : Nat} {pg : Peergroup}
    (h : (pg, pix) ∈ pgs.zipIdx k) : ((pgs.zipIdx k).filter fun x => x.2 = pix) = [(pg, pix)] := by
  induction pgs generalizing k with
  | nil => exact absurd h List.not_mem_nil
  | cons pg' pgs ih =>
    rw [List.zipIdx_cons] at h ⊢
    rw [List.filter_cons]
    by_cases e : k = pix
    · subst e
      have hrest : (pgs.zipIdx (k + 1)).filter (fun x => x.2 = k) = [] := by
        apply List.filter_eq_nil_iff.mpr
        intro x hx
        have hle := List.le_snd_of_mem_zipIdx hx
        simp only [decide_eq_true_eq]
        omega
      have hfirst : (pg, k) = (pg', k) := by
        refine (List.mem_cons.mp h).resolve_right ?_
        intro hin
        have hle := List.le_snd_of_mem_zipIdx hin
        exact absurd hle (Nat.not_succ_le_self k)
      rw [hrest, hfirst]
      simp
    · have hin : (pg, pix) ∈ pgs.zipIdx (k + 1) :=
        (List.mem_cons.mp h).resolve_left fun he => e (Prod.mk.inj he).2.symm
      rw [ih hin]
      simp [e]

theorem Dispatch.sent_group (t : Bigtable) (d : Dispatch) {pgs : List Peergroup} {pix : Nat}
    {pg : Peergroup} (h : (pg, pix) ∈ openGroups pgs) :
    ((d.sent t pgs.zipIdx).filter fun w => w.1 = pix) = [(pix, frame (d.body t pg))] := by
  obtain ⟨hin, hfile⟩ := List.mem_filter.mp h
  have hfile : pg.file = true := hfile
  have hgroup : (pgs.zipIdx.filter fun x => x.1.file).filter (fun x => x.2 = pix) =
      [(pg, pix)] := by
    rw [List.filter_filter]
    simp only [Bool.and_comm]
    rw [← List.filter_filter, filter_zipIdx hin]
    simp [hfile]
  have hmap : ((d.sent t pgs.zipIdx).filter fun w => w.1 = pix) =
      ((pgs.zipIdx.filter fun x => x.1.file).filter fun x => x.2 = pix).map
        fun x => (x.2, frame (d.body t x.1)) := List.filter_map
  rw [hmap, hgroup]
  rfl

theorem Stream.file {pgs : List Peergroup} {t : Bigtable} {P : Route → Prop} {e : Egress}
    {ds : List Dispatch} (h : Stream pgs t P e ds) {pix : Nat} {pg : Peergroup}
    (hopen : (pg, pix) ∈ openGroups pgs) :
    fileOf e.tx pix = (ds.map fun d => d.body t pg).flatMap frame := by
  rw [fileOf, h.written, List.filter_flatMap, List.flatMap_assoc]
  simp only [Dispatch.sent_group t _ hopen]
  simp [List.flatMap_map]

/-- The message is read as what the block said: nothing withdrawn, the attributes made of the
route, and the prefixes of the indices in turn, in sections that make up a length `parse_update`
takes. -/
structure ReadAs (t : Bigtable) (pg : Peergroup) (d : Dispatch) (msg : Message) : Prop where
  short : 4097 > msg.length
  sections : msg.SectionsAddUp
  withdrawLength : msg.withdrawLength = 0
  attributes : slice msg.mem msg.pathAttributes msg.pathattributesLength.toNat =
    exportBytes pg.serialize d.route
  prefixes : msg.announced.map (fun entry => encode (lengthOf entry.1) (addressOf entry.1)) =
    d.indices.map fun i => .ok (t.bigtable i)
  walkEnd : (msg.announced.map Prod.snd).getLast? = some true

theorem Dispatch.readAs {t : Bigtable} {pg : Peergroup} {d : Dispatch} (pn : Fin npeers) {m : Mem}
    {p : Nat} (hm : slice m p (frame (d.body t pg)).length = frame (d.body t pg))
    (hsize : (frame (d.body t pg)).length ≤ 4096) (hne : d.indices ≠ [])
    (hwords : Encoded t d.indices) :
    ReadAs t pg d ⟨pn, m, p + 19, UInt16.ofNat (d.body t pg).length⟩ := by
  have hlength : (frame (d.body t pg)).length = 23 + (exportBytes pg.serialize d.route).length +
      (nlriSection t d.indices).length := by
    rw [length_frame, length_body]
    omega
  rw [hlength, frame_body] at hm
  rw [hlength] at hsize
  obtain ⟨_, _, _, _, hbs, hnlri⟩ := updateBytes_fields hm
  have hmsg : received pn m p (23 + (exportBytes pg.serialize d.route).length +
      (nlriSection t d.indices).length) =
        ⟨pn, m, p + 19, UInt16.ofNat (d.body t pg).length⟩ := by
    rw [received, length_body]
    congr 1
    apply UInt16.toNat_inj.mp
    rw [UInt16.toNat_sub, UInt16.toNat_ofNat', UInt16.toNat_ofNat']
    change (2 ^ 16 - 19 + _ % 2 ^ 16) % 2 ^ 16 = _ % 2 ^ 16
    omega
  obtain ⟨hwithdraw, hpath, hattributes, hstart, hrest⟩ := received_sections pn hm hsize
  obtain ⟨hprefixes, hlast⟩ := walk_section hwords hnlri
  have hpathNat : (UInt16.ofNat (exportBytes pg.serialize d.route).length).toNat =
      (exportBytes pg.serialize d.route).length := by
    rw [UInt16.toNat_ofNat']
    omega
  rw [← hmsg]
  have hreceived : (received pn m p (23 + (exportBytes pg.serialize d.route).length +
      (nlriSection t d.indices).length)).length.toNat =
        4 + (exportBytes pg.serialize d.route).length + (nlriSection t d.indices).length := by
    rw [hmsg, ← length_body, UInt16.toNat_ofNat']
    rw [length_body]
    omega
  refine ⟨?_, ?_, hwithdraw, ?_, ?_, ?_⟩
  · rw [gt_iff_lt, UInt16.lt_iff_toNat_lt, hreceived]
    change _ < 4097
    omega
  · have hzero : (0 : UInt16).toNat = 0 := rfl
    rw [Message.SectionsAddUp, hwithdraw, hpath, hpathNat, hrest, hreceived]
    omega
  · rw [hattributes, hpath, hpathNat]
    exact hbs
  · rw [Message.announced, hstart, hrest]
    exact hprefixes
  · rw [Message.announced, hstart, hrest]
    exact hlast hne

theorem readAs_framedAt {t : Bigtable} {pg : Peergroup} {ds : List Dispatch} (pn : Fin npeers)
    {m : Mem} {p : Nat}
    (hm : slice m p ((ds.map fun d => d.body t pg).flatMap frame).length =
      (ds.map fun d => d.body t pg).flatMap frame)
    (hsize : ∀ d ∈ ds, (frame (d.body t pg)).length ≤ 4096)
    (hne : ∀ d ∈ ds, d.indices ≠ []) (hwords : ∀ d ∈ ds, Encoded t d.indices) :
    List.Forall₂ (ReadAs t pg) ds (framedAt pn m p (ds.map fun d => d.body t pg)) := by
  induction ds generalizing p with
  | nil => exact .nil
  | cons d ds ih =>
    rw [List.map_cons, List.flatMap_cons, List.length_append, slice_add] at hm
    obtain ⟨hfirst, hrest⟩ := List.append_inj hm (length_slice _ _ _)
    rw [length_frame] at hrest
    rw [List.map_cons, framedAt]
    refine .cons ?_ ?_
    · exact d.readAs pn hfirst (hsize d List.mem_cons_self) (hne d List.mem_cons_self)
        (hwords d List.mem_cons_self)
    · exact ih hrest (fun x hx => hsize x (List.mem_cons_of_mem d hx))
        (fun x hx => hne x (List.mem_cons_of_mem d hx))
        (fun x hx => hwords x (List.mem_cons_of_mem d hx))

/-- `buf_parse_peer` takes the file of a peer group apart into the blocks it was made of. -/
theorem Stream.read {pgs : List Peergroup} {t : Bigtable} {P : Route → Prop} {e : Egress}
    {ds : List Dispatch} (h : Stream pgs t P e ds) (hwords : ∀ d ∈ ds, Encoded t d.indices)
    {pix : Nat} {pg : Peergroup} (hopen : (pg, pix) ∈ openGroups pgs) {m : Mem} {base : Nat}
    (hm : slice m base (fileOf e.tx pix).length = fileOf e.tx pix) (hcount : ds.length < 2 ^ 31)
    (reader : Env) (pn : Fin npeers) :
    ∃ calls, List.Forall₂ (ReadAs t pg) ds calls ∧
      ∀ (σ : Type) (parse : σ → Message → Exec σ) (s : σ) (fuel : Nat), ds.length < fuel →
        bufParsePeerWith reader parse m pn fuel s ⟨base, ((fileOf e.tx pix).length : Nat)⟩ = do
          let s ← (takenFrom reader 0 calls).foldlM parse s
          return (UInt32.ofNat (countUpTo reader ds.length), s) := by
  have hpg : pg ∈ pgs := List.fst_mem_of_mem_zipIdx (List.mem_filter.mp hopen).1
  rw [h.file hopen] at hm ⊢
  refine ⟨_, readAs_framedAt pn hm (fun d hd => h.size d hd pg hpg)
    (fun d hd => (h.indices d hd).1) hwords, ?_⟩
  intro σ parse s fuel hfuel
  have hbodies : ∀ body ∈ ds.map fun d => d.body t pg, body.length ≤ 65516 := by
    intro body hbody
    obtain ⟨d, hd, rfl⟩ := List.mem_map.mp hbody
    have hsize := h.size d hd pg hpg
    rw [length_frame] at hsize
    omega
  have hlength : (ds.map fun d => d.body t pg).length = ds.length := List.length_map _
  have hrounds : (ds.map fun d => d.body t pg).length < fuel := hlength ▸ hfuel
  have hread := loop_framed reader parse pn 0 s hbodies hm (by rw [hlength]; omega)
    (.inr (Nat.zero_le _)) hrounds
  rw [hlength, Nat.zero_add] at hread
  rw [bufParsePeerWith, ← hread]
  congr 2

end FastParse
