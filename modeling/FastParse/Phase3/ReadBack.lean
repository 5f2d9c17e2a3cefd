import FastParse.Phase3.Exported
import FastParse.Phase3.Blocks
import FastParse.Table.Bounds
import FastParse.Update.Buffer
import FastParse.Update.Messages

namespace FastParse

open Framework

/-- The bytes of an update with the attributes `bs`. -/
def updateBytes (bs nlri : List UInt8) : List UInt8 :=
  List.replicate 16 0xff ++ (bytes16 (UInt16.ofNat (23 + bs.length + nlri.length)) ++
    ([2, 0, 0] ++ (bytes16 (UInt16.ofNat bs.length) ++ (bs ++ nlri))))

/-- The marker, the type and the withdraw length, which are set before the peer groups are
served. -/
def Headed (m : Mem) : Prop :=
  slice m 0 16 = List.replicate 16 0xff ∧ slice m 18 3 = [2, 0, 0]

theorem updateBuffer_headed {out : Mem} (h : Headed out) (bs nlri : List UInt8) :
    Headed (updateBuffer out bs nlri) := by
  constructor
  · rw [← h.1]
    apply slice_congr
    intro i hi
    exact updateBuffer_outside (.inl (by omega))
  · rw [← h.2]
    apply slice_congr
    intro i hi
    exact updateBuffer_outside (.inr (by omega))

theorem slice_message (m : Mem) (p a n : Nat) :
    slice m p (23 + a + n) = slice m p 16 ++ (slice m (p + 16) 2 ++ (slice m (p + 18) 3 ++
      (slice m (p + 21) 2 ++ (slice m (p + 23) a ++ slice m (p + 23 + a) n)))) := by
  have hsplit : 23 + a + n = 16 + (2 + (3 + (2 + (a + n)))) := by omega
  rw [hsplit, slice_add, slice_add, slice_add, slice_add, slice_add]

/-- The writer's side: the bytes in the buffer, whatever was there before. -/
theorem updateBuffer_bytes {out : Mem} (h : Headed out) (bs nlri : List UInt8) :
    slice (updateBuffer out bs nlri) 0 (23 + bs.length + nlri.length) = updateBytes bs nlri := by
  obtain ⟨hmarker, htype⟩ := updateBuffer_headed h bs nlri
  have hlength : slice (updateBuffer out bs nlri) (0 + 16) 2 =
      bytes16 (UInt16.ofNat (23 + bs.length + nlri.length)) := by
    rw [updateBuffer, putw16_eq _ 16]
    exact slice_overlay _ _ _
  have hattributes : slice (updateBuffer out bs nlri) (0 + 21) 2 =
      bytes16 (UInt16.ofNat bs.length) := by
    rw [updateBuffer, putw16_eq _ 16,
      slice_overlay_outside _ _ (.inr (by rw [length_bytes16]; decide)),
      slice_overlay_outside _ _ (.inl (by omega)), putw16_eq]
    exact slice_overlay _ _ _
  have hbs : slice (updateBuffer out bs nlri) (0 + 23) bs.length = bs := by
    rw [updateBuffer, putw16_eq _ 16,
      slice_overlay_outside _ _ (.inr (by rw [length_bytes16]; decide)),
      slice_overlay_outside _ _ (.inl (by omega)), putw16_eq,
      slice_overlay_outside _ _ (.inr (by rw [length_bytes16]))]
    exact slice_overlay _ _ _
  have hnlri : slice (updateBuffer out bs nlri) (0 + 23 + bs.length) nlri.length = nlri := by
    rw [updateBuffer, putw16_eq _ 16, Nat.zero_add,
      slice_overlay_outside _ _ (.inr (by rw [length_bytes16]; omega))]
    exact slice_overlay _ _ _
  rw [slice_message, hmarker, hlength, htype, hattributes, hbs, hnlri, updateBytes]

theorem updateBytes_fields {m : Mem} {p : Nat} {bs nlri : List UInt8}
    (h : slice m p (23 + bs.length + nlri.length) = updateBytes bs nlri) :
    slice m p 16 = List.replicate 16 0xff ∧
    getw16 m (p + 16) = UInt16.ofNat (23 + bs.length + nlri.length) ∧
    slice m (p + 18) 3 = [2, 0, 0] ∧ getw16 m (p + 21) = UInt16.ofNat bs.length ∧
    slice m (p + 23) bs.length = bs ∧ slice m (p + 23 + bs.length) nlri.length = nlri := by
  rw [slice_message, updateBytes] at h
  obtain ⟨hmarker, h⟩ := List.append_inj h (by rw [length_slice]; rfl)
  obtain ⟨hlength, h⟩ := List.append_inj h (by rw [length_slice]; rfl)
  obtain ⟨htype, h⟩ := List.append_inj h (by rw [length_slice]; rfl)
  obtain ⟨hattributes, h⟩ := List.append_inj h (by rw [length_slice]; rfl)
  obtain ⟨hbs, hnlri⟩ := List.append_inj h (by rw [length_slice])
  exact ⟨hmarker, getw16_of_slice hlength, htype, getw16_of_slice hattributes, hbs, hnlri⟩

/-- The message `buf_parse_peer` makes of `size` bytes at `base`. -/
def received (pn : Fin npeers) (m : Mem) (base size : Nat) : Message :=
  ⟨pn, m, base + 19, UInt16.ofNat size - 19⟩

/-- The bytes are taken as one update with the attributes `bs` that announces the prefixes of
the indices in turn; the first `spare` messages of a run are passed over. -/
structure ReadsBack (t : Bigtable) (indices : List Nat) (bs : List UInt8) (pn : Fin npeers)
    (m : Mem) (base size : Nat) : Prop where
  accepted : ∀ (env : Env) (s : State) (fuel : Nat),
    bufParsePeer env m (fuel + 2) s pn ⟨base, size⟩ = do
      let s ← (if env.spare = 0 then s.parseUpdate env (received pn m base size) else .ok s)
      return (1, s)
  withdrawLength : (received pn m base size).withdrawLength = 0
  attributes : slice m (received pn m base size).pathAttributes
    (received pn m base size).pathattributesLength.toNat = bs
  nlriEnd : (received pn m base size).nlri + (received pn m base size).nlriLength.toNat =
    base + size
  prefixes : (received pn m base size).announced.map
    (fun entry => encode (lengthOf entry.1) (addressOf entry.1)) =
      indices.map fun i => .ok (t.bigtable i)
  walkEnd : ((received pn m base size).announced.map Prod.snd).getLast? = some true

/-- The words of the indices come from `encode`. -/
def Encoded (t : Bigtable) (indices : List Nat) : Prop :=
  ∀ i ∈ indices, 1 ≤ t.bigtable i ∧ t.bigtable i < 2 ^ 25

theorem walk_section {t : Bigtable} {indices : List Nat} (hw : Encoded t indices) {m : Mem}
    {p : Nat} (h : slice m p (nlriSection t indices).length = nlriSection t indices) :
    (nlriWalk m p (p + (nlriSection t indices).length)).map
        (fun entry => encode (lengthOf entry.1) (addressOf entry.1)) =
      indices.map (fun i => .ok (t.bigtable i)) ∧
    (indices ≠ [] → ((nlriWalk m p (p + (nlriSection t indices).length)).map
      Prod.snd).getLast? = some true) := by
  rw [nlriSection_encode] at h ⊢
  have hshort (i : Nat) (hi : i ∈ indices) :
      lengthOf (decode (t.bigtable i)) ≤ 24 ∧ prefixWord (decode (t.bigtable i)) = t.bigtable i :=
    decode_word (hw i hi).1 (hw i hi).2
  have hentries : ∀ e ∈ indices.map fun i => builtEntry (decode (t.bigtable i)),
      e.length.toNat ≤ 32 := by
    intro e he
    obtain ⟨i, hi, rfl⟩ := List.mem_map.mp he
    have hlen := (hshort i hi).1.trans (show 24 ≤ 32 by decide)
    rw [builtEntry_length hlen]
    exact hlen
  constructor
  · have hwords := congrArg (List.map fun la => encode (lengthOf la) (addressOf la))
      (walk_words hentries h)
    rw [List.map_map, List.map_map, List.map_map] at hwords
    refine hwords.trans ?_
    apply List.map_congr_left
    intro i hi
    obtain ⟨hlen, hword⟩ := hshort i hi
    have hsame := builtEntry_samePrefix (hlen.trans (show 24 ≤ 32 by decide))
    have hlen' : lengthOf (builtEntry (decode (t.bigtable i))).word ≤ 24 := hsame.1.trans_le hlen
    change encode (lengthOf (builtEntry (decode (t.bigtable i))).word)
      (addressOf (builtEntry (decode (t.bigtable i))).word) = _
    rw [encode_eq _ hlen', (prefixWord_inj hlen' hlen).mpr hsame, hword]
  · intro hne
    apply (sectionTiled_of_slice h).1.walkEnd
    have hpos := nlriSection_pos (t := t) hne
    rw [nlriSection_encode] at hpos
    omega

theorem markerAt_of_slice {m : Mem} {p : Nat} (h : slice m p 16 = List.replicate 16 0xff) :
    markerAt m p = true := by
  rw [markerAt, List.all_eq_true]
  intro i hi
  have hff : slice m p 16 = slice (fun _ => 0xff) 0 16 := h.trans (by decide)
  have e := slice_inj hff i (List.mem_range.mp hi)
  exact decide_eq_true e

/-- The sections `parse_update` finds in the bytes. -/
theorem received_sections (pn : Fin npeers) {m : Mem} {base : Nat} {bs nlri : List UInt8}
    (h : slice m base (23 + bs.length + nlri.length) = updateBytes bs nlri)
    (hsize : 23 + bs.length + nlri.length ≤ 4096) :
    let msg := received pn m base (23 + bs.length + nlri.length)
    msg.withdrawLength = 0 ∧ msg.pathattributesLength = UInt16.ofNat bs.length ∧
      msg.pathAttributes = base + 23 ∧ msg.nlri = base + 23 + bs.length ∧
      msg.nlriLength.toNat = nlri.length := by
  obtain ⟨_, _, htype, hattributes, _, _⟩ := updateBytes_fields h
  generalize hs : 23 + bs.length + nlri.length = size at hsize
  intro msg
  rw [slice_succ, slice_succ, slice_succ] at htype
  have h19 : m (base + 18 + 1) = 0 := (List.cons.inj (List.cons.inj htype).2).1
  have h20 : m (base + 18 + 1 + 1) = 0 :=
    (List.cons.inj (List.cons.inj (List.cons.inj htype).2).2).1
  have hwithdraw : msg.withdrawLength = 0 := by
    change getw16 m (base + 19) = 0
    rw [getw16, h19, h20]
    rfl
  have hpath : msg.pathattributesLength = UInt16.ofNat bs.length := by
    rw [Message.pathattributesLength, hwithdraw]
    exact hattributes
  have hpathNat : msg.pathattributesLength.toNat = bs.length := by
    rw [hpath, UInt16.toNat_ofNat']
    omega
  refine ⟨hwithdraw, hpath, ?_, ?_, ?_⟩
  · rw [Message.pathAttributes, hwithdraw]
    rfl
  · rw [Message.nlri, hwithdraw, hpathNat]
    rfl
  · have hlength : msg.length.toNat = size - 19 := by
      change (UInt16.ofNat size - 19).toNat = size - 19
      have e : (UInt16.ofNat size).toNat = size := by
        rw [UInt16.toNat_ofNat']
        omega
      rw [UInt16.toNat_sub, e]
      change (2 ^ 16 - 19 + size) % 2 ^ 16 = _
      omega
    rw [Message.nlriLength, hwithdraw, UInt16.toNat_sub, UInt16.toNat_sub, UInt16.toNat_sub,
      hlength, hpathNat]
    change (2 ^ 16 - 4 + (2 ^ 16 - bs.length + (2 ^ 16 - 0 + (size - 19)) % 2 ^ 16) % 2 ^ 16) %
      2 ^ 16 = _
    omega

theorem bufParsePeer_one (env : Env) (s : State) (fuel : Nat) (pn : Fin npeers) {m : Mem}
    {base : Nat} {bs nlri : List UInt8}
    (h : slice m base (23 + bs.length + nlri.length) = updateBytes bs nlri)
    (hsize : 23 + bs.length + nlri.length ≤ 4096) (hne : 0 < nlri.length) :
    bufParsePeer env m (fuel + 2) s pn ⟨base, (23 + bs.length + nlri.length : Nat)⟩ = do
      let s ← (if env.spare = 0 then
          s.parseUpdate env (received pn m base (23 + bs.length + nlri.length))
        else .ok s)
      return (1, s) := by
  obtain ⟨hmarker, hlength, htype, _, _, _⟩ := updateBytes_fields h
  generalize hs : 23 + bs.length + nlri.length = size at *
  rw [slice_succ] at htype
  have hkind : getw8 m (base + 18) = 2 := (List.cons.inj htype).1
  have hbound : ((base : Int) + (size : Int)).toNat = base + size := by omega
  have hsizeNat : (UInt16.ofNat size).toNat = size := by
    rw [UInt16.toNat_ofNat']
    omega
  have hcarries : UInt16.ofNat size > 23 := by
    rw [gt_iff_lt, UInt16.lt_iff_toNat_lt, hsizeNat]
    change 23 < size
    omega
  have hgoes : base < base + size ∧
      (env.msgMax = 0 ∨ (0 : UInt32).toUInt64 < env.msgMax) := by
    refine ⟨by omega, ?_⟩
    rw [UInt64.lt_iff_toNat_lt, ← UInt64.toNat_inj]
    exact Nat.eq_zero_or_pos _
  have hspare : env.spare ≤ 0 ↔ env.spare = 0 := by
    rw [UInt32.le_iff_toNat_le, ← UInt32.toNat_inj]
    exact Nat.le_zero
  have hend : ∀ s' : State, messageLoop env m pn (base + size) (fuel + 1)
      (base + (UInt16.ofNat size).toNat) (0 + 1) s' = .ok (1, s') := by
    intro s'
    rw [hsizeNat, messageLoop, if_neg fun hlt => Nat.lt_irrefl _ hlt.1]
    rfl
  have hassert : assert (markerAt m base = true) = .ok () := if_pos (markerAt_of_slice hmarker)
  have htake : takeMessage env s 0 (UInt16.ofNat size) (received pn m base size) =
      if env.spare = 0 then s.parseUpdate env (received pn m base size) else .ok s := by
    simp only [takeMessage, hcarries, hspare, true_and]
  rw [bufParsePeer, hbound, messageLoop, if_pos hgoes, hassert, hkind, hlength]
  change takeMessage env s 0 (UInt16.ofNat size) (received pn m base size) >>= (fun s' =>
    messageLoop env m pn (base + size) (fuel + 1) (base + (UInt16.ofNat size).toNat) (0 + 1) s') = _
  rw [htake]
  simp only [hend]
  rfl

/-- `lookup_RIB` has handed out `i` in the course of the lookups `las`. -/
def HandedOut (las : List Nat) (i : Nat) : Prop :=
  ∃ pre la post, las = pre ++ la :: post ∧ lengthOf la ≤ 24 ∧ ∃ t, CallReturns pre la i t

theorem handedOut_short {pre post : List Nat} {la i : Nat} (h : lengthOf la ≤ 24)
    (hi : ((slotsAfter pre).lookup (prefixWord la)).1 = i) : HandedOut (pre ++ la :: post) i := by
  subst hi
  exact ⟨pre, la, post, rfl, h, _, callReturns_short h⟩

theorem encoded_of_handedOut {las : List Nat} {t : Bigtable} (ht : tableAfter las = .ok t)
    {indices : List Nat} (h : ∀ i ∈ indices, HandedOut las i) : Encoded t indices := by
  intro i hi
  obtain ⟨pre, la, post, rfl, hlen, t', hcall⟩ := h i hi
  obtain ⟨rfl, _⟩ := hcall.unique (callReturns_short hlen)
  have hkey := (short_index pre la post hlen).2
  rw [tableAfter_eq] at ht
  cases ht
  change 1 ≤ (slotsAfter (pre ++ la :: post)).key _ ∧
    (slotsAfter (pre ++ la :: post)).key _ < 2 ^ 25
  rw [hkey]
  exact ⟨Nat.le_add_right_of_le (Nat.two_pow_pos (lengthOf la)), prefixWord_lt la hlen⟩

/-- The peer groups before this one leave the start of the buffer as it was set. -/
theorem emitUpdate_headed {disk : Nat → Bool} {pgs : List Peergroup}
    (hpgs : ∀ pg ∈ pgs, ∃ kind : Kind, pg.serialize = kind.serializer) {t : Bigtable}
    {route : Route} {indices : List Nat} {tx tx' : Tx} (hmark : ∀ i < 16, tx.buffer i = 0xff)
    (h : emitUpdate disk pgs t route indices tx = .ok tx') : Headed tx'.buffer := by
  refine @run_invariant _ _ _ _ (fun _ x => ∃ kind : Kind, x.1.serialize = kind.serializer)
    (fun s : Tx => Headed s.buffer) ?_ _ _ _ ?_ ?_ h
  · intro s x s' hs hx hstep
    obtain ⟨pg, pix⟩ := x
    obtain ⟨kind, hkind⟩ := hx
    simp only [emitUpdateTo_eq] at hstep
    rw [bind_eq_ok] at hstep
    obtain ⟨⟨out, size⟩, hbuilt, hstep⟩ := hstep
    rw [within_bind_ok, bind_eq_ok] at hstep
    obtain ⟨_, s1, hwrite, hstep⟩ := hstep
    cases hstep
    simp only at hkind
    rw [hkind] at hbuilt
    obtain ⟨bs, hbs⟩ := buildUpdate_exports hbuilt
    rw [(writeFile_buffer hwrite).1, (buildUpdate_ok hbs hbuilt).1]
    exact updateBuffer_headed hs bs _
  · have keep18 : ∀ i < 16, putw16 (Function.update tx.buffer 18 2) 19 0 i = 0xff := by
      intro i hi
      rw [putw16_outside (.inl (by omega)), Function.update_of_ne (by omega), hmark i hi]
    refine ⟨?_, rfl⟩
    rw [List.eq_replicate_iff]
    refine ⟨length_slice _ _ _, ?_⟩
    intro b hb
    obtain ⟨i, hi, rfl⟩ := List.mem_map.mp hb
    rw [Nat.zero_add]
    exact keep18 i (List.mem_range.mp hi)
  · apply stepsOk_of_forall
    intro x hx s
    exact hpgs x.1 (List.fst_mem_of_mem_zipIdx hx)

/-- Whatever was in the buffer: the message for a route and a block of indices, if no longer
than 4096 bytes, is taken back as that route's attributes and the prefixes of the block. -/
theorem updates_read_back (disk : Nat → Bool) (pgs : List Peergroup)
    (hpgs : ∀ pg ∈ pgs, ∃ kind : Kind, pg.serialize = kind.serializer) (kind : Kind)
    (las : List Nat) (t : Bigtable) (ht : tableAfter las = .ok t) (route : Route)
    (indices : List Nat) (hne : indices ≠ []) (hidx : ∀ i ∈ indices, HandedOut las i)
    (tx tx' : Tx) (hmark : ∀ i < 16, tx.buffer i = 0xff)
    (hserved : emitUpdate disk pgs t route indices tx = .ok tx') (out : Mem) (size : Nat)
    (hbuilt : buildUpdate kind.serializer t route indices tx'.buffer = .ok (out, size))
    (hsize : size ≤ 4096) :
    ∃ bs, kind.Exports route bs ∧ ∀ (pn : Fin npeers) (m : Mem) (base : Nat),
      slice m base size = slice out 0 size → ReadsBack t indices bs pn m base size := by
  obtain ⟨bs, hbs⟩ := buildUpdate_exports hbuilt
  refine ⟨bs, hbs, ?_⟩
  intro pn m base hm
  obtain ⟨rfl, rfl⟩ := buildUpdate_ok hbs hbuilt
  rw [updateBuffer_bytes (emitUpdate_headed hpgs hmark hserved)] at hm
  obtain ⟨_, _, _, _, hbsBytes, hnlriBytes⟩ := updateBytes_fields hm
  obtain ⟨hwithdraw, hpath, hattributes, hnlri, hlength⟩ := received_sections pn hm hsize
  obtain ⟨hprefixes, hlast⟩ := walk_section (encoded_of_handedOut ht hidx) hnlriBytes
  have hpathNat : (UInt16.ofNat bs.length).toNat = bs.length := by
    rw [UInt16.toNat_ofNat']
    omega
  constructor
  · intro env s fuel
    exact bufParsePeer_one env s fuel pn hm hsize (nlriSection_pos hne)
  · exact hwithdraw
  · rw [hattributes, hpath, hpathNat]
    exact hbsBytes
  · rw [hnlri, hlength]
    omega
  · rw [Message.announced, hnlri, hlength]
    exact hprefixes
  · rw [Message.announced, hnlri, hlength]
    exact hlast hne

def plainRoute : Route where
  unique := 1
  useCount := 2
  updateLength := 20
  tiebreak := ⟨0, 0, 100, 0, 1, 0, 0, 0⟩
  attributes := bytesMem [0x40, 1, 1, 0, 0x40, 2, 6, 2, 1, 0, 0, 0, 7, 0x40, 3, 4, 10, 0, 0, 1]

/-- 11.0.0.0/8 and 10.1.128.0/17. -/
def twoPrefixes : List Nat := [8 <<< 32 ||| 0x0b000000, 17 <<< 32 ||| 0x0a018000]

theorem updates_read_back_two :
    ∃ (t : Bigtable) (out : Mem) (bs : List UInt8), Kind.ibgp.Exports plainRoute bs ∧
      ReadsBack t [0, 1] bs 1 out 0 56 := by
  have hr : (do
      let t ← tableAfter twoPrefixes
      let tx ← emitUpdate (fun _ => true) peergroups t plainRoute [0, 1] txInit
      let r ← buildUpdate serializeIbgp t plainRoute [0, 1] tx.buffer
      return r.2) = .ok 56 := by decide +kernel
  rw [bind_eq_ok] at hr
  obtain ⟨t, ht, hr⟩ := hr
  rw [bind_eq_ok] at hr
  obtain ⟨tx, htx, hr⟩ := hr
  rw [bind_eq_ok] at hr
  obtain ⟨⟨out, size⟩, hbuilt, hr⟩ := hr
  cases hr
  have hidx : ∀ i ∈ [0, 1], HandedOut twoPrefixes i := by
    intro i hi
    rcases List.mem_pair.mp hi with rfl | rfl
    · exact @handedOut_short [] _ _ _ (by decide) (by decide)
    · exact @handedOut_short (twoPrefixes.take 1) [] _ _ (by decide) (by decide)
  obtain ⟨bs, hbs, hread⟩ := updates_read_back (fun _ => true) peergroups
    (fun pg hpg => ⟨.ibgp, by rw [List.mem_singleton.mp hpg]; rfl⟩) .ibgp twoPrefixes t ht
    plainRoute [0, 1] (List.cons_ne_nil 0 [1]) hidx txInit tx (by decide) htx out 56 hbuilt
    (by decide)
  exact ⟨t, out, bs, hbs, hread 1 out 0 rfl⟩

end FastParse
