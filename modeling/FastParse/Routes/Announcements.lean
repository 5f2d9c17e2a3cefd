import FastParse.Phase3.Stream
import FastParse.Routes.Oversized

namespace FastParse

open Framework State

namespace Routing

variable {env : Env} {t : Bigtable} {s s' : Routing} {pn : Fin npeers} {route : Ptr}

/-- The rule for the messages of a call of `schedule_phase3` in the course of a run. -/
theorem schedulePhase3_keeps {K : Egress → Prop} {hard : Bool} (hs : s.Synced env)
    (hkeep : ∀ b ∈ blocksOf s.rib.head s.rib.journal.queue, Keeps env.outlet s.slab.heap t K b)
    (he : K s.egress) (h : s.schedulePhase3 env t hard = .ok s') : K s'.egress := by
  obtain ⟨gate, rib, e, hp, rfl⟩ := schedulePhase3_ok h
  exact FastParse.schedulePhase3_keeps hs.named hs.head_ne_emptyPtr hkeep he hp

theorem Called.head_ne_null {a b : Nat} (h : s.Called pn a route s') (hb : s.head b ≠ null) :
    s'.head b ≠ null := by
  cases update_if_cases h.head b with
  | inl hc =>
    rw [hc.2.2]
    exact hc.2.1.1
  | inr hc =>
    rw [hc.2]
    exact hb

theorem Called.head_set {a : Nat} (h : s.Called pn a route s') (hroute : route ≠ null) :
    s'.head a ≠ null := by
  cases update_if_cases h.head a with
  | inl hc =>
    rw [hc.2.2]
    exact hroute
  | inr hc =>
    rw [hc.2]
    intro hnull
    exact hc.1 ⟨hroute, .inl hnull⟩ rfl

/-- A call adds at most its own index to the journal, and without a route it does so only if the
slot held one. -/
theorem callStart_queue {s1 : Routing} {x : Nat} {enters : Bool} (hs : s.Synced env)
    (h : s.callStart env pn x route = .ok (s1, enters)) :
    s1.egress = s.egress ∧ (s1.rib.journal.queue = s.rib.journal.queue ∨
      s1.rib.journal.queue = s.rib.journal.queue ++ [x &&& lrIndexMask] ∧
        (route ≠ null ∨ s.adjRibIn (pn, x &&& lrIndexMask) ≠ null)) := by
  obtain ⟨hs2, hrib, hegress, _⟩ := hs.swapSlot pn (x &&& lrIndexMask) route
  have started {s2 : Routing} {update : Bool} (hmem : s2.Synced env) (hrib2 : s2.rib = s.rib)
      (hegress2 : s2.egress = s.egress)
      (hstart : s2.locribStart env x route update = .ok (s1, enters)) :
      s1.egress = s.egress ∧ (s1.rib.journal.queue = s.rib.journal.queue ∨
        s1.rib.journal.queue = s.rib.journal.queue ++ [x &&& lrIndexMask]) := by
    obtain ⟨rib, pushed, hu, rfl⟩ := locribStart_ok hstart
    obtain ⟨hjournal, _⟩ := locribUpdate_journal hmem.mem_queue hu
    rw [hrib2, Nat.and_comm] at hjournal
    exact ⟨hegress2, hjournal.imp id fun hc => hc.2⟩
  rw [callStart, within_bind_ok] at h
  obtain ⟨_, h⟩ := h
  simp only at h
  split_ifs at h with hr ho
  · have hretained : Synced env
        { s.swapSlot pn (x &&& lrIndexMask) route with
          slab := (s.swapSlot pn (x &&& lrIndexMask) route).slab.retain route } :=
      ⟨hs2.placed, hs2.gate, hs2.named, hs2.heads, hs2.written, hs2.tracked, hs2.account⟩
    obtain ⟨he, hq⟩ := started hretained hrib hegress h
    exact ⟨he, hq.imp id fun hq => ⟨hq, .inl hr⟩⟩
  · obtain ⟨he, hq⟩ := started hs2 hrib hegress h
    exact ⟨he, hq.imp id fun hq => ⟨hq, .inr ho⟩⟩
  · cases h
    exact ⟨hegress, .inl (by rw [hrib])⟩

/-- Wherever there is a route for an index, in a slot, in the journal or in a block, `LOCRIB` has
one as well. -/
structure Served (s : Routing) : Prop where
  slots : ∀ pn a, s.adjRibIn (pn, a) ≠ null → s.head a ≠ null
  queued : ∀ a ∈ s.rib.journal.queue, s.head a ≠ null
  blocks : ∀ b ∈ s.egress.blocks, b.route ≠ null ∧ ∀ a ∈ b.indices, s.head a ≠ null

theorem Served.block (h : s.Served) {b : Block}
    (hb : b ∈ blocksOf s.rib.head s.rib.journal.queue) :
    b.route ≠ null ∧ b.indices ≠ [] ∧ ∀ a ∈ b.indices, b.route = s.head a ∧ s.head a ≠ null := by
  have hp := blocksOf_partition s.rib.head s.rib.journal.queue
  have hne := hp.ne_nil b hb
  have hall : ∀ a ∈ b.indices, b.route = s.head a ∧ s.head a ≠ null := by
    intro a ha
    have hmem : a ∈ s.rib.journal.queue := by
      rw [← hp.flatten]
      exact List.mem_flatten.mpr ⟨b.indices, List.mem_map_of_mem hb, ha⟩
    exact ⟨hp.route b hb a ha, h.queued a hmem⟩
  obtain ⟨a, rest, hcons⟩ := List.exists_cons_of_ne_nil hne
  have hfirst := hall a (by simp [hcons])
  exact ⟨hfirst.1 ▸ hfirst.2, hne, hall⟩

theorem Served.flush {hard : Bool} (h : s.Served) (hs : s.Synced env)
    (hrun : s.schedulePhase3 env t hard = .ok s') : s'.Served := by
  obtain ⟨_, hqueue, hblocks, _⟩ := hs.phase3 hrun
  obtain ⟨gate, rib, e, hp, rfl⟩ := schedulePhase3_ok hrun
  have hhead : rib.head = s.head := schedulePhase3_head hp
  refine ⟨?_, ?_, ?_⟩
  · intro pn a ha
    change rib.head a ≠ null
    rw [hhead]
    exact h.slots pn a ha
  · intro a ha
    rw [hqueue] at ha
    cases ha
  · intro b hb
    change b.route ≠ null ∧ ∀ a ∈ b.indices, rib.head a ≠ null
    rw [hhead]
    rw [hblocks] at hb
    cases List.mem_append.mp hb with
    | inl hb =>
      obtain ⟨hroute, _, hall⟩ := h.block (List.mem_reverse.mp hb)
      exact ⟨hroute, fun a ha => (hall a ha).2⟩
    | inr hb => exact h.blocks b hb

theorem Served.callStart {s1 : Routing} {x : Nat} {enters : Bool} (h : s.Served)
    (hs : s.Synced env) (hstart : s.callStart env pn x route = .ok (s1, enters)) : s1.Served := by
  have hd := callStart_called hstart
  obtain ⟨hegress, hqueue⟩ := callStart_queue hs hstart
  -- the index of the call has a head afterwards, unless nothing happened to it
  have hown (hset : route ≠ null ∨ s.adjRibIn (pn, x &&& lrIndexMask) ≠ null) :
      s1.head (x &&& lrIndexMask) ≠ null := by
    by_cases hr : route ≠ null
    · exact hd.head_set hr
    · exact hd.head_ne_null (h.slots pn _ (hset.resolve_left hr))
  refine ⟨?_, ?_, ?_⟩
  · intro qn b hb
    rw [hd.adjRibIn] at hb
    by_cases e : (qn, b) = (pn, x &&& lrIndexMask)
    · obtain ⟨rfl, rfl⟩ := Prod.mk.inj e
      rw [Function.update_self] at hb
      exact hd.head_set hb
    · rw [Function.update_of_ne e] at hb
      exact hd.head_ne_null (h.slots qn b hb)
  · intro b hb
    cases hqueue with
    | inl hq =>
      rw [hq] at hb
      exact hd.head_ne_null (h.queued b hb)
    | inr hq =>
      rw [hq.1] at hb
      cases List.mem_append.mp hb with
      | inl hb => exact hd.head_ne_null (h.queued b hb)
      | inr hb =>
        rw [List.mem_singleton.mp hb]
        exact hown hq.2
  · intro b hb
    rw [hegress] at hb
    exact ⟨(h.blocks b hb).1, fun a ha => hd.head_ne_null ((h.blocks b hb).2 a ha)⟩

/-- What `parse_update` would take for the length of the withdrawn routes. -/
def withdrawField (bytes : List UInt8) : UInt16 := getw16 (bytesMem bytes) 19

/-- `tx_buffer` starts with the marker, and no message that was written withdraws anything. -/
structure Announcing (e : Egress) : Prop where
  marker : ∀ i < 16, e.tx.buffer i = 0xff
  written : ∀ w ∈ e.tx.written, withdrawField w.2 = 0

theorem withdrawField_slice {m : Mem} (h : Headed m) (n : Nat) :
    withdrawField (slice m 0 n) = 0 := by
  have hfield := h.2
  rw [slice_succ, slice_succ, slice_succ] at hfield
  have h19 : m 19 = 0 := (List.cons.inj (List.cons.inj hfield).2).1
  have h20 : m 20 = 0 := (List.cons.inj (List.cons.inj (List.cons.inj hfield).2).2).1
  have hbyte (i : Nat) (hi : m i = 0) : bytesMem (slice m 0 n) i = 0 := by
    rw [bytesMem, List.getD_eq_getElem?_getD]
    by_cases hn : i < n
    · simp [slice, hn, hi]
    · simp [slice, hn]
  rw [withdrawField, getw16, hbyte 19 h19, hbyte 20 h20]
  rfl

theorem Announcing.group {disk : Nat → Bool} {rec : Route} {indices : List Nat} {tx tx' : Tx}
    {pg : Peergroup} {pix : Nat} (hkind : ∃ kind : Kind, pg.serialize = kind.serializer)
    (h : Headed tx.buffer ∧ ∀ w ∈ tx.written, withdrawField w.2 = 0)
    (hemit : emitUpdateTo disk t rec indices tx pg pix = .ok tx') :
    Headed tx'.buffer ∧ ∀ w ∈ tx'.written, withdrawField w.2 = 0 := by
  obtain ⟨kind, hkind⟩ := hkind
  obtain ⟨bs, _, hbuffer, hwritten, _⟩ := emitUpdateTo_ok hkind hemit
  have hhead : Headed tx'.buffer := by
    rw [hbuffer]
    exact updateBuffer_headed h.1 _ _
  refine ⟨hhead, ?_⟩
  intro w hw
  rw [← List.mem_reverse, hwritten, List.mem_append] at hw
  cases hw with
  | inl hw => exact h.2 w (List.mem_reverse.mp hw)
  | inr hw =>
    split_ifs at hw
    · rw [List.mem_singleton.mp hw]
      exact withdrawField_slice hhead _
    · cases hw

theorem Announcing.keeps (hpgs : Templated env) {heap : Ptr → Route} {b : Block}
    (hroute : b.route ≠ null) : Keeps env.outlet heap t Announcing b := by
  intro _ e e' hemit he
  rw [emitBlock, bind_eq_ok] at hemit
  obtain ⟨tx, htx, hemit⟩ := hemit
  cases hemit
  rw [emitMessages, if_neg hroute.symm, emitUpdate] at htx
  have hstart : Headed (putw16 (Function.update e.tx.buffer 18 2) 19 0) ∧
      ∀ w ∈ e.tx.written, withdrawField w.2 = 0 := ⟨headed_start he.marker, he.written⟩
  have hend := @run_invariant _ _ _ _
    (fun _ x => ∃ kind : Kind, x.1.serialize = kind.serializer)
    (fun tx : Tx => Headed tx.buffer ∧ ∀ w ∈ tx.written, withdrawField w.2 = 0)
    (fun tx x tx' hs hx hstep => Announcing.group hx hs hstep) _ _ _ hstart
    (stepsOk_of_forall (fun x hx _ => hpgs x.1 (List.fst_mem_of_mem_zipIdx hx)) _) htx
  exact ⟨hend.1.marker, hend.2⟩

theorem Reachable.announcing (hpgs : Templated env) (h : s.Reachable env) :
    s.Served ∧ Announcing s.egress := by
  induction h with
  | start =>
    have hq : (FastParse.start env).routing.rib.journal.queue = [] := Ring.queue_init _ _
    refine ⟨⟨fun _ _ ha => absurd rfl ha, ?_, ?_⟩, ?_, ?_⟩
    · intro a ha
      rw [hq] at ha
      cases ha
    · intro b hb
      cases hb
    · intro i hi
      simp [FastParse.start, init, txInit, hi]
    · intro w hw
      cases hw
  | alloc r _ _ ih => exact ⟨⟨ih.1.slots, ih.1.queued, ih.1.blocks⟩, ih.2⟩
  | @call s s' t pn x route hs hroute hcall ih =>
    obtain ⟨s1, enters, hstart, hc⟩ := updateAdjRibIn_cases hcall
    obtain ⟨hsynced, hegress, _⟩ := hs.synced.callStart hroute hstart
    have hserved := ih.1.callStart hs.synced hstart
    have hannouncing : Announcing s1.egress := hegress ▸ ih.2
    cases hc with
    | inl e =>
      rw [e]
      exact ⟨hserved, hannouncing⟩
    | inr hrun =>
      exact ⟨hserved.flush hsynced hrun, schedulePhase3_keeps hsynced
        (fun b hb => Announcing.keeps hpgs (hserved.block hb).1) hannouncing hrun⟩
  | flush hs hrun ih =>
    exact ⟨ih.1.flush hs.synced hrun, schedulePhase3_keeps hs.synced
      (fun b hb => Announcing.keeps hpgs (ih.1.block hb).1) ih.2 hrun⟩

/-- Where a message would run past `tx_buffer`, some block has no room for its update. -/
theorem Served.no_room_of_bounds (hpgs : Templated env) (h : s.Served) (hs : s.Synced env)
    {hard : Bool} (hrun : s.schedulePhase3 env t hard = .error .bounds) :
    ¬ BlocksHaveRoom env s t := by
  intro hroom
  rw [schedulePhase3, hs.gate] at hrun
  refine ((schedulePhase3_avoids (by decide) hpgs hs.named hs.head_ne_emptyPtr ?_ hard
    s.egress).bind fun _ => avoids_pure _) hrun
  intro b hb
  refine ⟨fun _ => ?_, fun e => absurd e (by decide)⟩
  have hroute := (h.block hb).1
  rw [InTxBuffer, if_neg hroute.symm]
  intro pg hpg kind hkind
  exact Nat.le_trans (hroom b hb hroute pg hpg kind hkind).message (by decide)

theorem schedulePhase3_heads {hard : Bool} (h : s.schedulePhase3 env t hard = .ok s') :
    s'.head = s.head := by
  obtain ⟨gate, rib, e, hp, rfl⟩ := schedulePhase3_ok h
  exact schedulePhase3_head hp

end Routing

open Routing

/-- A message leaves every index that has a head with one. -/
theorem head_kept {env : Env} {s s' : State} {msg : Message} {a : Nat}
    (h : s.parseUpdate env msg = .ok s') (ha : s.routing.head a ≠ null) :
    s'.routing.head a ≠ null := by
  refine parseUpdate_keeps (I := fun _ _ s => s.head a ≠ null) (fun _ _ _ hs => hs)
    (fun _ _ _ _ hs => hs) ?_ ha ?_ (callsOk_true env s msg) h
  · intro n t r s s' x hs _ hcall
    exact (updateAdjRibIn_called hcall).head_ne_null hs
  · intro r s1 hr
    cases messageRoute_cases hr with
    | inl hc =>
      rw [hc.2]
      exact ha
    | inr hc =>
      obtain ⟨_, _, _, _, e⟩ := hc
      rw [e]
      exact ha

/-- Whatever the messages say: an index that has a best route keeps one to the end, no block is
ever formed for `NULL`, and no message that is written withdraws anything. -/
theorem nothing_withdrawn (env : Env) (hpgs : Templated env) (msgs more : List Message)
    (s s' : State) (r : Routing) (hard : Bool)
    (hr : msgs.foldlM (parseUpdate env) (start env) = .ok s)
    (hmore : more.foldlM (parseUpdate env) s = .ok s')
    (hflush : s'.routing.schedulePhase3 env s'.tables hard = .ok r) :
    (∀ a, s.routing.head a ≠ null → r.head a ≠ null) ∧
      (∀ b ∈ r.egress.blocks, b.route ≠ null) ∧
      ∀ w ∈ r.egress.tx.written, withdrawField w.2 = 0 := by
  have hs' : s'.routing.Reachable env :=
    run_keeps (I := fun s => s.routing.Reachable env)
      (fun _ _ _ hs hst => reachable_parseUpdate hs hst) (reachable_messages hr) hmore
  obtain ⟨hserved, hannouncing⟩ := (hs'.flush hflush).announcing hpgs
  refine ⟨?_, fun b hb => (hserved.blocks b hb).1, hannouncing.written⟩
  intro a ha
  rw [schedulePhase3_heads hflush]
  exact run_keeps (I := fun s : State => s.routing.head a ≠ null)
    (fun _ _ _ hs hst => head_kept hst hs) ha hmore

/-- The peer takes one of its two prefixes back. -/
theorem nothing_withdrawn_taken_back :
    ∃ (s s' : State) (r : Routing),
      announceOne.foldlM (parseUpdate openEnv) (start openEnv) = .ok s ∧
      [updateMessage 0 [8, 11] [] []].foldlM (parseUpdate openEnv) s = .ok s' ∧
      s'.routing.adjRibIn (0, 1) = null ∧ s.routing.head 1 ≠ null ∧ r.head 1 ≠ null ∧
      r.egress.tx.written.length = 2 ∧ ∀ w ∈ r.egress.tx.written, withdrawField w.2 = 0 := by
  have hr : (announceOne.foldlM (parseUpdate openEnv) (start openEnv) >>= fun s =>
      [updateMessage 0 [8, 11] [] []].foldlM (parseUpdate openEnv) s >>= fun s' =>
        (s'.routing.schedulePhase3 openEnv s'.tables true).map fun r =>
          (s'.routing.adjRibIn (0, 1), s.routing.head 1, r.egress.tx.written.length)) =
      .ok (0, 2 ^ 46, 2) := by decide +kernel
  obtain ⟨s, hs, hr⟩ := bind_eq_ok.mp hr
  obtain ⟨s', hs', hr⟩ := bind_eq_ok.mp hr
  obtain ⟨r, hflush, e⟩ := exists_of_map_eq_ok hr
  obtain ⟨hslot, e⟩ := Prod.mk.inj e
  obtain ⟨hhead, hcount⟩ := Prod.mk.inj e
  have hset : s.routing.head 1 ≠ null := by
    rw [hhead]
    decide
  obtain ⟨hheads, _, hwritten⟩ := nothing_withdrawn openEnv openEnv_templated announceOne
    [updateMessage 0 [8, 11] [] []] s s' r true hs hs' hflush
  exact ⟨s, s', r, hs, hs', hslot, hset, hheads 1 hset, hcount, hwritten⟩

end FastParse
