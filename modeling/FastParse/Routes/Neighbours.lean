import FastParse.Routes.BestRoute
import FastParse.Routes.Leaks
import FastParse.Routes.Output

namespace FastParse

open Framework State

/-- The table of a neighbour after a message, with the word of a prefix as the key: what is
announced gets the attributes of the message, what is withdrawn is forgotten. -/
def learn (rib : Nat → Option (List UInt8)) (msg : Message) : Nat → Option (List UInt8) :=
  assign (words (msg.withdrawals.map Prod.fst)) none
    (assign (words (msg.announced.map Prod.fst)) (some msg.attributeBytes) rib)

theorem words_of_encode {las ws : List Nat}
    (h : las.map (fun la => encode (lengthOf la) (addressOf la)) = ws.map .ok) :
    words las = ws := by
  induction las generalizing ws with
  | nil => simpa [words] using h.symm
  | cons la las ih =>
    cases ws with
    | nil => simp at h
    | cons w ws =>
      obtain ⟨hfirst, hrest⟩ := List.cons.inj h
      have hfirst : encode (lengthOf la) (addressOf la) = .ok w := hfirst
      have hshort : lengthOf la ≤ 24 := by
        rw [encode, assert_bind_ok] at hfirst
        exact Nat.lt_succ_iff.mp hfirst.1
      rw [encode_eq la hshort] at hfirst
      rw [words_cons_short hshort, ih hrest, Except.ok.inj hfirst]

section
variable {t : Bigtable} {pg : Peergroup} {d : Dispatch} {ds : List Dispatch} {msg : Message}
  {rib : Nat → Option (List UInt8)}

/-- One block: its prefixes get what the serializer makes of its route. -/
def teach (t : Bigtable) (pg : Peergroup) (rib : Nat → Option (List UInt8)) (d : Dispatch) :
    Nat → Option (List UInt8) :=
  assign (d.indices.map t.bigtable) (some (exportBytes pg.serialize d.route)) rib

theorem ReadAs.words_eq (h : ReadAs t pg d msg) :
    words (msg.announced.map Prod.fst) = d.indices.map t.bigtable := by
  apply words_of_encode
  rw [List.map_map, List.map_map]
  exact h.prefixes

theorem ReadAs.learn_eq (h : ReadAs t pg d msg) : learn rib msg = teach t pg rib d := by
  have hwithdrawn : msg.withdrawals = [] := by
    rw [Message.withdrawals, h.withdrawLength, nlriWalk]
    simp [nlriEntries]
  have hbytes : msg.attributeBytes = exportBytes pg.serialize d.route := h.attributes
  rw [learn, teach, hwithdrawn, h.words_eq, hbytes]
  exact assign_nil _ _

theorem learn_all {calls : List Message} (h : List.Forall₂ (ReadAs t pg) ds calls) :
    calls.foldl learn rib = ds.foldl (teach t pg) rib := by
  induction h generalizing rib with
  | nil => rfl
  | cons hd _ ih => rw [List.foldl_cons, List.foldl_cons, hd.learn_eq, ih]

/-- Where no other index holds the word, the neighbour has what the index went out with last. -/
theorem taught_index {a : Nat} (hds : ∀ d ∈ ds, ∀ i ∈ d.indices, i < t.bigtableIndex)
    (ha : ∀ b < t.bigtableIndex, t.bigtable b = t.bigtable a → b = a) :
    ds.foldl (teach t pg) (fun _ => none) (t.bigtable a) =
      (lastDispatch ds a).map fun d => exportBytes pg.serialize d.route := by
  induction ds using List.reverseRecOn with
  | nil => rfl
  | append_singleton ds d ih =>
    have hword : t.bigtable a ∈ d.indices.map t.bigtable ↔ a ∈ d.indices := by
      refine ⟨?_, List.mem_map_of_mem⟩
      intro hin
      obtain ⟨b, hb, e⟩ := List.mem_map.mp hin
      rwa [← ha b (hds d (by simp) b hb) e]
    rw [List.foldl_append, List.foldl_cons, List.foldl_nil, teach, lastDispatch_concat]
    by_cases hin : a ∈ d.indices
    · rw [assign_of_mem (hword.mpr hin), assign_of_mem hin]
      rfl
    · rw [assign_of_notMem (fun h => hin (hword.mp h)), assign_of_notMem hin]
      exact ih fun d hd => hds d (by simp [hd])

/-- The prefixes the neighbour knows are those of the blocks. -/
theorem taught_words {w : Nat} : ds.foldl (teach t pg) (fun _ => none) w ≠ none ↔
    ∃ d ∈ ds, w ∈ d.indices.map t.bigtable := by
  induction ds using List.reverseRecOn with
  | nil => simp
  | append_singleton ds d ih =>
    rw [List.foldl_append, List.foldl_cons, List.foldl_nil, teach]
    by_cases hin : w ∈ d.indices.map t.bigtable
    · rw [assign_of_mem hin]
      exact ⟨fun _ => ⟨d, by simp, hin⟩, fun _ => by simp⟩
    · rw [assign_of_notMem hin, ih]
      constructor
      · rintro ⟨d', hd', hw⟩
        exact ⟨d', by simp [hd'], hw⟩
      · rintro ⟨d', hd', hw⟩
        rw [List.mem_append, List.mem_singleton] at hd'
        cases hd' with
        | inl hd' => exact ⟨d', hd', hw⟩
        | inr e => exact absurd (e ▸ hw) hin

theorem ReadAs.nlriLength_ne_zero (h : ReadAs t pg d msg) : msg.nlriLength ≠ 0 := by
  intro hzero
  have hnone : msg.announced = [] := by
    rw [Message.announced, hzero, nlriWalk]
    simp [nlriEntries]
  have hlast := h.walkEnd
  rw [hnone] at hlast
  cases hlast

theorem ReadAs.long (h : ReadAs t pg d msg) : 23 < 19 + msg.length.toNat := by
  have hpos : 0 < msg.nlriLength.toNat := by
    apply Nat.pos_of_ne_zero
    intro hzero
    exact h.nlriLength_ne_zero (UInt16.toNat_inj.mp hzero)
  have hsections := h.sections
  rw [Message.SectionsAddUp] at hsections
  omega

/-- A reader that passes nothing over takes every message of the file. -/
theorem takenFrom_all {reader : Env} {calls : List Message} (i : Nat)
    (h : List.Forall₂ (ReadAs t pg) ds calls) (hspare : reader.spare = 0)
    (hmax : reader.msgMax = 0) : takenFrom reader i calls = calls := by
  induction h generalizing i with
  | nil => rfl
  | cons hd _ ih =>
    have htaken : Taken reader i _ :=
      ⟨by rw [hspare]; exact Nat.zero_le i, .inl hmax, hd.long⟩
    rw [takenFrom_cons, if_pos htaken, ih]
    rfl

end

/-- What a neighbour has learnt at the end of the file. -/
theorem Stream.learnt {pgs : List Peergroup} {t : Bigtable} {P : Route → Prop} {e : Egress}
    {ds : List Dispatch} (h : Stream pgs t P e ds) (hwords : ∀ d ∈ ds, Encoded t d.indices)
    {pix : Nat} {pg : Peergroup} (hopen : (pg, pix) ∈ openGroups pgs) {m : Mem} {base : Nat}
    (hm : slice m base (fileOf e.tx pix).length = fileOf e.tx pix) (hcount : ds.length < 2 ^ 31)
    {reader : Env} (pn : Fin npeers) (hspare : reader.spare = 0) (hmax : reader.msgMax = 0)
    {fuel : Nat} (hfuel : ds.length < fuel) :
    bufParsePeerWith reader (fun rib msg => .ok (learn rib msg)) m pn fuel (fun _ => none)
        ⟨base, ((fileOf e.tx pix).length : Nat)⟩ =
      .ok (UInt32.ofNat ds.length, ds.foldl (teach t pg) fun _ => none) := by
  obtain ⟨calls, hcalls, hread⟩ := h.read hwords hopen hm hcount reader pn
  have hfold := @foldlM_eq_foldl Halt _ Message (fun rib msg => .ok (learn rib msg)) learn calls
    (fun _ _ _ => rfl) fun _ => none
  rw [hread _ _ _ _ hfuel, takenFrom_all 0 hcalls hspare hmax, hfold, learn_all hcalls, countUpTo,
    if_pos hmax]
  rfl

section
variable {env : Env} {s s' s1 : State} {msg : Message} {r : Ptr} {pn : Fin npeers} {w : Nat}
  {step : State → Nat × Bool → Exec State}

/-- The prefix with the word `w` has an index with a head, as long as the arrays have room. -/
def Found (w : Nat) (s : State) : Prop :=
  big < s.tables.bigtableIndex ∨
    ∃ a < s.tables.bigtableIndex, s.tables.bigtable a = w ∧ s.routing.head a ≠ null

theorem Found.entry (hstep : EntryCalls env pn r step ∧ EntryLookup step) (h : Found w s)
    {entry : Nat × Bool} (hrun : step s entry = .ok s') : Found w s' := by
  obtain ⟨_, hl⟩ := hstep.2 s entry s' hrun
  obtain ⟨_, _, _, hc⟩ := hstep.1 s entry s' hrun
  obtain ⟨hnext, hword⟩ := lookup_grows hl
  refine h.imp (fun hfull => hfull.trans_le hnext) ?_
  rintro ⟨a, ha, hw, hhead⟩
  refine ⟨a, ha.trans_le hnext, (hword a ha).trans hw, ?_⟩
  cases hc with
  | inl hc =>
    rw [hc.2]
    exact hhead
  | inr hc => exact (Routing.updateAdjRibIn_called hc.2).head_ne_null hhead

theorem found_entry (hstep : EntryCalls env pn r step ∧ EntryLookup step) (hr : r ≠ null)
    (hlinked : s.tables.slots.Linked) {entry : Nat × Bool} (hshort : lengthOf entry.1 ≤ 24)
    (hrun : step s entry = .ok s') : Found (prefixWord entry.1) s' := by
  obtain ⟨addrref, t, hl, hc⟩ := hstep.1 s entry s' hrun
  obtain ⟨addrref', hl'⟩ := hstep.2 s entry s' hrun
  obtain ⟨rfl, rfl⟩ := Prod.mk.inj (Except.ok.inj (hl.symm.trans hl'))
  by_cases hroom : s'.tables.bigtableIndex ≤ big
  · right
    have hlt : addrref < s'.tables.bigtableIndex := (lookupRib64_linked hlinked hl).2 hshort
    have hbig : tooBig ≠ addrref := by
      intro e
      have hover : tooBig < tooBig := by
        calc tooBig < s'.tables.bigtableIndex := e ▸ hlt
          _ ≤ big := hroom
          _ < tooBig := by decide
      exact Nat.lt_irrefl _ hover
    obtain ⟨_, _, hkey, hmask⟩ := lookup_short_index hl hlinked hroom hbig
    have hcall := (hc.resolve_left fun hc => hbig hc.1).2
    have hindex := entry_index entry addrref
    rw [hmask] at hindex
    refine ⟨addrref, hlt, hkey, ?_⟩
    have hset := (Routing.updateAdjRibIn_called hcall).head_set hr
    rwa [hindex] at hset
  · exact .inl (Nat.lt_of_not_le hroom)

theorem Found.parseUpdate (h : Found w s) (hrun : s.parseUpdate env msg = .ok s') :
    Found w s' := by
  obtain ⟨_, hc⟩ := parseUpdate_cases hrun
  cases hc with
  | inl hc =>
    rw [hc.2]
    exact h
  | inr hc =>
    obtain ⟨_, r, s1, s2, hr, ha, hw⟩ := hc
    have hs1 : Found w s1 := by
      cases messageRoute_inv hr with
      | inl hc =>
        rw [hc.2.2]
        exact h
      | inr hc =>
        obtain ⟨_, _, _, _, e⟩ := hc
        rw [e]
        exact h
    have hs2 : Found w s2 := run_keeps (I := Found w)
      (fun _ _ _ hs hst => hs.entry (nlriStep_entry msg.peer r) hst) hs1 ha
    exact run_keeps (I := Found w)
      (fun _ _ _ hs hst => hs.entry (withdrawStep_entry msg.peer) hst) hs2 hw

theorem found_parseUpdate (hlinked : big < s.tables.bigtableIndex ∨ s.tables.slots.Linked)
    (h : msg.Announces w) (hrun : s.parseUpdate env msg = .ok s') : Found w s' := by
  obtain ⟨_, hc⟩ := parseUpdate_cases hrun
  obtain ⟨hm, hw⟩ := h
  cases hc with
  | inl hc => exact absurd hc.1.1.symm hm.2
  | inr hc =>
    obtain ⟨_, r, s1, s2, hr, ha, hwithdraw⟩ := hc
    obtain ⟨_, _, halloc, _, rfl⟩ := (messageRoute_inv hr).resolve_left fun e => e.1 hm
    have hne : r ≠ null := (Slab.alloc_cases halloc).1
    rw [words, List.mem_map] at hw
    obtain ⟨la, hla, rfl⟩ := hw
    simp only [List.mem_filter, decide_eq_true_eq, List.mem_map] at hla
    obtain ⟨⟨entry, hentry, rfl⟩, hshort⟩ := hla
    have hs2 : Found (prefixWord entry.1) s2 := by
      apply run_reaches
        (I := fun s => big < s.tables.bigtableIndex ∨ s.tables.slots.Linked) _ _ hentry hlinked
        (stepsOk_true _ _ _) ha
      · intro u e v hu _ hst
        obtain ⟨_, hl⟩ := (nlriStep_entry msg.peer r).2 u e v hst
        refine ⟨hu.imp (fun hfull => hfull.trans_le (lookup_grows hl).1) fun hu => ?_,
          fun hf => hf.entry (nlriStep_entry msg.peer r) hst⟩
        exact (lookupRib64_linked hu hl).1
      · intro u v hu _ hst
        cases hu with
        | inl hfull =>
          obtain ⟨_, hl⟩ := (nlriStep_entry msg.peer r).2 u entry v hst
          exact .inl (hfull.trans_le (lookup_grows hl).1)
        | inr hu => exact found_entry (nlriStep_entry msg.peer r) hne hu hshort hst
    exact run_keeps (I := Found (prefixWord entry.1))
      (fun _ _ _ hs hst => hs.entry (withdrawStep_entry msg.peer) hst) hs2 hwithdraw

end

/-- What any message has announced with a route has an index with a head at the end. -/
theorem run_found {env : Env} (hpgs : Templated env) {msgs : List Message}
    (hsections : ∀ msg ∈ msgs, msg.SectionsAddUp) {s : State}
    (hr : msgs.foldlM (State.parseUpdate env) (start env) = .ok s) {msg : Message} {w : Nat}
    (hmsg : msg ∈ msgs) (h : msg.Announces w) : Found w s := by
  apply @run_reaches Halt State Message (State.parseUpdate env) (fun _ msg => msg ∈ msgs)
    (Followed (fun _ => ()) env msgs null) (Found w) msg _ _ (start env) s msgs hmsg
    (start_followed _ hpgs msgs) (stepsOk_of_forall (fun msg hmsg _ => hmsg) (start env)) hr
  · intro u msg v hu hmsg hst
    exact ⟨hu.parseUpdate hpgs hsections hmsg (fun _ _ _ _ _ => rfl) hst,
      fun hf => hf.parseUpdate hst⟩
  · intro u v hu _ hst
    exact found_parseUpdate (hu.2.imp id fun hs => hs.worded.1) h hst

theorem Delivered.words_iff {β : Type} {g : UInt16 × Tiebreak × Mem → β} {env : Env}
    {msgs : List Message} {s : State} {r : Routing} {ds : List Dispatch}
    (h : Delivered g env msgs s.tables r ds) (hroom : s.tables.bigtableIndex ≤ big)
    (hhead : r.head = s.routing.head)
    (hfound : ∀ msg ∈ msgs, ∀ w, msg.Announces w → Found w s) (pg : Peergroup) (w : Nat) :
    ds.foldl (teach s.tables pg) (fun _ => none) w ≠ none ↔ ∃ msg ∈ msgs, msg.Announces w := by
  rw [taught_words]
  constructor
  · rintro ⟨d, hd, hw⟩
    obtain ⟨i, hi, rfl⟩ := List.mem_map.mp hw
    exact h.announced hd hi
  · rintro ⟨msg, hmsg, hw⟩
    obtain ⟨a, _, rfl, ha⟩ := (hfound msg hmsg w hw).resolve_left (Nat.not_lt.mpr hroom)
    rw [← hhead] at ha
    have hlast := h.told a ha (by simp [h.queue])
    obtain ⟨d, hd, _⟩ := Option.map_eq_some_iff.mp (Option.map_eq_some_iff.mp hlast).choose_spec.1
    obtain ⟨hmem, hin⟩ := mem_of_lastDispatch hd
    exact ⟨d, hmem, List.mem_map_of_mem hin⟩

theorem exportBytes_congr (kind : Kind) {route route' : Route}
    (h : route.exported = route'.exported) :
    exportBytes kind.serializer route = exportBytes kind.serializer route' := by
  obtain ⟨hlength, h⟩ := Prod.mk.inj h
  obtain ⟨htiebreak, hattributes⟩ := Prod.mk.inj h
  cases kind with
  | ibgp =>
    simp only [exportBytes, Kind.serializer, serializeIbgp, hlength, htiebreak, hattributes]
  | ebgp => simp only [exportBytes, Kind.serializer, serializeEbgp, hlength, hattributes]
  | copy => simp only [exportBytes, Kind.serializer, serializeCopy, hlength, hattributes]

section
variable {env : Env} {s : State} {msg : Message} {msgs : List Message}

/-- A buffer that a slot holds is not handed out again. -/
theorem unseen_of_held (hs : s.routing.Sound env.slab 0 null) (hheads : s.routing.HeadsHeld)
    (hfit : msg.Fits s) : Unseen id env s msg := by
  intro r s1 hr a ha
  by_cases hm : msg.HasRoute
  · obtain ⟨cells, hs⟩ := Routing.sound_iff.mp hs
    obtain ⟨cells', hsound, _⟩ :=
      messageRoute_soundOn (s := { s with msgCount := s.msgCount + 1 }) hs hfit hr
    obtain ⟨_, tb, attributes, _, hheap⟩ := messageRoute_stored hm hr
    have hne : s.routing.head a ≠ r := by
      intro e
      obtain ⟨pn, hslot⟩ := hheads a ha
      have hadj : s1.routing.adjRibIn (pn, a) = r := by
        rw [(messageRoute_frame hr).1]
        exact hslot.trans e
      have hpos := hsound.1.useCount_pos (i := (pn, a)) (by rw [hadj, ← e]; exact ha)
      rw [hadj, hheap, Function.update_self] at hpos
      simp [Message.stored] at hpos
    rw [hheap, Function.update_of_ne hne]
  · obtain ⟨_, rfl⟩ := messageRoute_none hm hr
    rfl

theorem run_followed_kept (hpgs : Templated env) (hsections : ∀ msg ∈ msgs, msg.SectionsAddUp)
    (hkept : StepsOk (State.parseUpdate env) (HeadsKept env) (start env) msgs)
    (hr : msgs.foldlM (State.parseUpdate env) (start env) = .ok s) :
    Followed id env msgs null s := by
  have hstart : (start env).routing.HeadsHeld := fun a ha => absurd rfl ha
  have h := @run_invariant Halt State Message (State.parseUpdate env)
    (fun s msg => HeadsKept env s msg ∧ msg ∈ msgs)
    (fun s => Followed id env msgs null s ∧
      s.routing.Sound env.slab 0 null ∧ s.routing.HeadsHeld) ?_ (start env) s msgs
    ⟨start_followed id hpgs msgs, start_sound env, hstart⟩
    (stepsOk_and hkept (stepsOk_of_forall (fun msg hmsg _ => hmsg) (start env))) hr
  · exact h.1
  · intro u msg v hu hok hst
    obtain ⟨hfollowed, hheld⟩ := hu
    have hseen := unseen_of_held hheld.1 hheld.2 hok.1.1
    exact ⟨hfollowed.parseUpdate hpgs hsections hok.2 hseen hst,
      parseUpdate_headsHeld hheld hok.1 hst⟩

end

/-- For a prefix that is filed under one index only, the reader has what the serializer makes of
the head. -/
theorem Delivered.taught {env : Env} {msgs : List Message} {t : Bigtable} {r : Routing}
    {ds : List Dispatch} (h : Delivered id env msgs t r ds) {pg : Peergroup}
    (hkind : ∃ kind : Kind, pg.serialize = kind.serializer) {a : Nat}
    (hone : ∀ b < t.bigtableIndex, t.bigtable b = t.bigtable a → b = a) :
    ds.foldl (teach t pg) (fun _ => none) (t.bigtable a) =
      if r.head a = null then none
      else some (exportBytes pg.serialize (r.slab.heap (r.head a))) := by
  rw [taught_index (fun d hd => (h.stream.indices d hd).2) hone]
  by_cases ha : r.head a = null
  · rw [if_pos ha]
    cases hlast : lastDispatch ds a with
    | none => rfl
    | some d =>
      obtain ⟨hd, hin⟩ := mem_of_lastDispatch hlast
      exact absurd ha (h.heads d hd a hin)
  · rw [if_neg ha]
    have htold := h.told a ha (by simp [h.queue])
    obtain ⟨kind, hkind⟩ := hkind
    cases hlast : lastDispatch ds a with
    | none => simp [hlast] at htold
    | some d =>
      have hexported : d.route.exported = (r.slab.heap (r.head a)).exported := by
        simpa [hlast] using htold
      rw [hkind]
      exact congrArg some (exportBytes_congr kind hexported)

/-- If besides no call lets go of a head: for every prefix that is filed under one index only, the
neighbour has what the serializer makes of the best route in `LOCRIB`, or nothing where there is
none. -/
theorem neighbour_agrees (env : Env) (hpgs : Templated env) (msgs : List Message)
    (hsections : ∀ msg ∈ msgs, msg.SectionsAddUp)
    (hkept : StepsOk (State.parseUpdate env) (HeadsKept env) (start env) msgs) (s : State)
    (r : Routing) (hard : Bool) (hr : msgs.foldlM (State.parseUpdate env) (start env) = .ok s)
    (hflush : s.routing.schedulePhase3 env s.tables hard = .ok r)
    (hroom : s.tables.bigtableIndex ≤ big) (hclean : r.egress.tx.overLengthDetected = false)
    (hcount : r.egress.blocks.length < 2 ^ 31) (pg : Peergroup) (pix : Nat)
    (hopen : (pg, pix) ∈ openGroups env.outlet.peergroups) (m : Mem) (base : Nat)
    (hm : slice m base (fileOf r.egress.tx pix).length = fileOf r.egress.tx pix) (reader : Env)
    (hspare : reader.spare = 0) (hmax : reader.msgMax = 0) (pn : Fin npeers) (fuel : Nat)
    (hfuel : r.egress.blocks.length < fuel) :
    ∃ rib, bufParsePeerWith reader (fun rib msg => .ok (learn rib msg)) m pn fuel (fun _ => none)
        ⟨base, ((fileOf r.egress.tx pix).length : Nat)⟩ =
          .ok (UInt32.ofNat r.egress.blocks.length, rib) ∧
      ∀ a < s.tables.bigtableIndex,
        (∀ b < s.tables.bigtableIndex, s.tables.bigtable b = s.tables.bigtable a → b = a) →
        rib (s.tables.bigtable a) =
          if r.head a = null then none
          else some (exportBytes pg.serialize (r.slab.heap (r.head a))) := by
  obtain ⟨ds, hend⟩ :=
    (run_followed_kept hpgs hsections hkept hr).delivered hpgs hsections hflush hroom hclean
  rw [← hend.count] at hcount hfuel ⊢
  refine ⟨_, hend.stream.learnt hend.encoded hopen hm hcount pn hspare hmax hfuel, ?_⟩
  intro a _ hone
  exact hend.taught (hpgs pg (List.fst_mem_of_mem_zipIdx (List.mem_filter.mp hopen).1)) hone

/-- The prefix that has changed hands. -/
theorem neighbour_agrees_taken_over :
    ∃ (s : State) (r : Routing) (rib : Nat → Option (List UInt8)),
      takeOverAndWithdraw.foldlM (State.parseUpdate openEnv) (start openEnv) = .ok s ∧
      s.routing.schedulePhase3 openEnv s.tables true = .ok r ∧
      bufParsePeerWith openEnv (fun rib msg => .ok (learn rib msg))
          (bytesMem (fileOf r.egress.tx 0)) 1 4 (fun _ => none)
          ⟨0, ((fileOf r.egress.tx 0).length : Nat)⟩ =
        .ok (UInt32.ofNat r.egress.blocks.length, rib) ∧
      r.head 1 = 2 ^ 46 + 256 ∧
      rib (2 ^ 8 + 11) = some (exportBytes serializeIbgp (r.slab.heap (r.head 1))) := by
  have hr : (takeOverAndWithdraw.foldlM (State.parseUpdate openEnv) (start openEnv) >>= fun s =>
      (s.routing.schedulePhase3 openEnv s.tables true).map fun r =>
        (s.tables.bigtableIndex, r.egress.tx.overLengthDetected, r.egress.blocks.length, r.head 1,
          s.tables.bigtable 0, s.tables.bigtable 1)) =
      .ok (2, false, 3, 2 ^ 46 + 256, 2 ^ 8 + 10, 2 ^ 8 + 11) := by decide +kernel
  obtain ⟨s, hs, hr⟩ := bind_eq_ok.mp hr
  obtain ⟨r, hflush, e⟩ := exists_of_map_eq_ok hr
  simp only [Prod.mk.injEq] at e
  obtain ⟨hnext, hclean, hcount, hhead, hfirst, hsecond⟩ := e
  obtain ⟨rib, hrib, hagree⟩ := neighbour_agrees openEnv openEnv_templated takeOverAndWithdraw
    (by decide +kernel) (by decide +kernel) s r true hs hflush (by rw [hnext]; decide) hclean
    (by rw [hcount]; decide) ⟨serializeIbgp, true⟩ 0 List.mem_cons_self
    (bytesMem (fileOf r.egress.tx 0)) 0 (slice_bytesMem _) openEnv rfl rfl 1 4
    (by rw [hcount]; decide)
  refine ⟨s, r, rib, hs, hflush, hrib, hhead, ?_⟩
  have hset : r.head 1 ≠ null := by
    rw [hhead]
    decide
  have hone := hagree 1 (by rw [hnext]; decide) ?_
  · rwa [hsecond, if_neg hset] at hone
  · intro b hb e
    rw [hnext] at hb
    interval_cases b
    · rw [hfirst, hsecond] at e
      exact absurd e (by decide)
    · rfl

end FastParse
