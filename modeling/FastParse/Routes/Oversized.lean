import FastParse.Phase3.Halting
import FastParse.Routes.Phase3Calls
import FastParse.Routes.Withdraw

namespace FastParse

open Framework State

/-- The update for one peer group is no longer than a message may be, and its attributes no
longer than the serializer was allowed. -/
structure UpdateFits (serialize : Serializer) (t : Bigtable) (route : Route)
    (indices : List Nat) : Prop where
  attributes : ∀ out r, serialize route out 23 4064 = .ok r → r.2 - 23 ≤ 4064
  message : ∀ out r, buildUpdate serialize t route indices out = .ok r → r.2 ≤ 4096

/-- The re-encoded attributes have room, and leave enough for the prefixes. -/
structure HasRoom (kind : Kind) (t : Bigtable) (route : Route) (indices : List Nat) : Prop where
  attributes : exportLength kind route ≤ 4064
  message : 23 + exportLength kind route + (indices.map fun i => nlriSize (t.bigtable i)).sum ≤ 4096

theorem updateFits_iff {kind : Kind} {t : Bigtable} {route : Route} {indices : List Nat}
    {out : Mem} {r : Mem × Nat} (h : buildUpdate kind.serializer t route indices out = .ok r) :
    UpdateFits kind.serializer t route indices ↔ HasRoom kind t route indices := by
  obtain ⟨bs, hbs⟩ := buildUpdate_exports h
  have hlength : ∀ out r, kind.serializer route out 23 4064 = .ok r →
      r.2 - 23 = exportLength kind route := by
    intro out r hr
    rw [Kind.serializer_length hr, Nat.add_sub_cancel_left]
  constructor
  · intro hfits
    refine ⟨?_, ?_⟩
    · have hle := hfits.attributes out _ (hbs out 23 4064)
      rwa [hlength out _ (hbs out 23 4064)] at hle
    · rw [← buildUpdate_size h]
      exact hfits.message out r h
  · intro hroom
    refine ⟨?_, ?_⟩
    · intro out' r' hr'
      rw [hlength out' r' hr']
      exact hroom.attributes
    · intro out' r' hr'
      rw [buildUpdate_size hr']
      exact hroom.message

section
variable {o : Outlet} {heap : Ptr → Route} {t : Bigtable}

/-- The messages of a block have been built and handed on. -/
def Emitted (o : Outlet) (heap : Ptr → Route) (t : Bigtable) (b : Block) : Prop :=
  ∃ tx tx', emitMessages o heap t b.route b.indices tx = .ok tx'

theorem phase3Round_emitted {addrref next : Nat} {route1 route : Ptr} {rib rib' : Rib}
    {e e' : Egress} (h : phase3Round o heap t addrref route1 rib e = .ok (next, route, rib', e')) :
    ∃ b, e'.blocks = b :: e.blocks ∧ Emitted o heap t b := by
  simp only [phase3Round, bind_eq_ok] at h
  obtain ⟨⟨indices, rib1, next1, route2⟩, _, e1, he, h⟩ := h
  cases h
  refine ⟨⟨route1, indices⟩, (emitBlock_ok he).2, ?_⟩
  simp only [emitBlock, bind_eq_ok] at he
  obtain ⟨tx, htx, _⟩ := he
  exact ⟨e.tx, tx, htx⟩

theorem phase3Loop_emitted {fuel addrref : Nat} {route2 : Ptr} {rib rib' : Rib} {e e' : Egress}
    (h : phase3Loop o heap t fuel addrref route2 rib e = .ok (rib', e')) :
    ∃ blocks, e'.blocks = blocks ++ e.blocks ∧ ∀ b ∈ blocks, Emitted o heap t b := by
  induction fuel generalizing addrref route2 rib e with
  | zero => cases h
  | succ fuel ih =>
    rw [phase3Loop] at h
    generalize (if emptyPtr = route2 then pullHead rib else (addrref, route2, rib)) = start at h
    obtain ⟨a, route1, rib1⟩ := start
    simp only at h
    split_ifs at h
    · cases h
      exact ⟨[], rfl, fun b hb => absurd hb List.not_mem_nil⟩
    · rw [bind_eq_ok] at h
      obtain ⟨⟨next, route, rib2, e2⟩, hround, h⟩ := h
      obtain ⟨b, hb, hout⟩ := phase3Round_emitted hround
      simp only at h
      split_ifs at h
      · obtain ⟨blocks, hblocks, hall⟩ := ih h
        refine ⟨blocks ++ [b], ?_, ?_⟩
        · rw [hblocks, hb, List.append_assoc, List.singleton_append]
        · intro c hc
          cases List.mem_append.mp hc with
          | inl hc => exact hall c hc
          | inr hc => exact List.mem_singleton.mp hc ▸ hout
      · cases h
        exact ⟨[b], hb, fun c hc => List.mem_singleton.mp hc ▸ hout⟩

theorem schedulePhase3_emitted {hard : Bool} {gate gate' : Gate} {rib rib' : Rib} {e e' : Egress}
    (h : schedulePhase3 o heap t hard gate rib e = .ok (gate', rib', e')) :
    ∃ blocks, e'.blocks = blocks ++ e.blocks ∧ ∀ b ∈ blocks, Emitted o heap t b := by
  rw [schedulePhase3] at h
  split_ifs at h
  · cases h
    exact ⟨[], rfl, fun b hb => absurd hb List.not_mem_nil⟩
  · rw [assert_bind_ok, bind_eq_ok] at h
    obtain ⟨_, ⟨rib1, e1⟩, hl, h⟩ := h
    rw [assert_bind_ok] at h
    obtain ⟨_, h⟩ := h
    cases h
    exact phase3Loop_emitted hl

/-- A block with a route has had its update built for every peer group. -/
theorem Emitted.built {b : Block} (h : Emitted o heap t b) (hb : b.route ≠ null)
    {pg : Peergroup} (hpg : pg ∈ o.peergroups) :
    ∃ out r, buildUpdate pg.serialize t (heap b.route) b.indices out = .ok r := by
  obtain ⟨tx, tx', h⟩ := h
  rw [emitMessages, if_neg hb.symm, emitUpdate] at h
  obtain ⟨pix, hpix⟩ := List.mem_iff_getElem?.mp hpg
  obtain ⟨u, v, huv⟩ := exists_step (List.mk_mem_zipIdx_iff_getElem?.mpr hpix) h
  simp only [emitUpdateTo_eq] at huv
  rw [bind_eq_ok] at huv
  obtain ⟨r, hr, _⟩ := huv
  exact ⟨u.buffer, r, hr⟩

end

/-- Every update that `schedule_phase3` builds when it is called here fits. -/
def UpdatesFit (env : Env) (s : Routing) (t : Bigtable) : Prop :=
  ∀ hard s' blocks, s.schedulePhase3 env t hard = .ok s' →
    s'.egress.blocks = blocks ++ s.egress.blocks → ∀ b ∈ blocks, b.route ≠ null →
      ∀ pg ∈ env.outlet.peergroups, UpdateFits pg.serialize t (s.slab.heap b.route) b.indices

def BlocksHaveRoom (env : Env) (s : Routing) (t : Bigtable) : Prop :=
  ∀ b ∈ blocksOf s.head s.rib.journal.queue, b.route ≠ null →
    ∀ pg ∈ env.outlet.peergroups, ∀ kind : Kind, pg.serialize = kind.serializer →
      HasRoom kind t (s.slab.heap b.route) b.indices

def Templated (env : Env) : Prop := env.outlet.Templated

/-- The blocks a call records are those of the journal, and all have left. -/
theorem phase3_blocks {env : Env} {hard : Bool} {s s' : Routing} {t : Bigtable}
    {blocks : List Block} (hs : s.Synced env) (h : s.schedulePhase3 env t hard = .ok s')
    (hblocks : s'.egress.blocks = blocks ++ s.egress.blocks) :
    blocks = (blocksOf s.head s.rib.journal.queue).reverse ∧
      ∀ b ∈ blocks, Emitted env.outlet s.slab.heap t b := by
  obtain ⟨_, _, hall, _⟩ := hs.phase3 h
  obtain ⟨gate, rib, e, hrun, rfl⟩ := Routing.schedulePhase3_ok h
  obtain ⟨out, hout, hemitted⟩ := schedulePhase3_emitted hrun
  have e1 : blocks = out := List.append_cancel_right (hblocks.symm.trans hout)
  have e2 := List.append_cancel_right (hblocks.symm.trans hall)
  exact ⟨e2, e1 ▸ hemitted⟩

theorem updatesFit_iff {env : Env} (hpgs : Templated env) {hard : Bool} {s s' : Routing}
    {t : Bigtable} (hs : s.Synced env) (h : s.schedulePhase3 env t hard = .ok s') :
    UpdatesFit env s t ↔ BlocksHaveRoom env s t := by
  constructor
  · intro hfits b hb hroute pg hpg kind hkind
    obtain ⟨_, _, hblocks, _⟩ := hs.phase3 h
    have hb' : b ∈ (blocksOf s.rib.head s.rib.journal.queue).reverse := List.mem_reverse.mpr hb
    obtain ⟨out, r, hbuilt⟩ := ((phase3_blocks hs h hblocks).2 b hb').built hroute hpg
    have hfit := hfits hard s' _ h hblocks b hb' hroute pg hpg
    rw [hkind] at hfit hbuilt
    exact (updateFits_iff hbuilt).mp hfit
  · intro hroom hard' s'' blocks h' hblocks b hb hroute pg hpg
    obtain ⟨rfl, hemitted⟩ := phase3_blocks hs h' hblocks
    obtain ⟨kind, hkind⟩ := hpgs pg hpg
    obtain ⟨out, r, hbuilt⟩ := (hemitted b hb).built hroute hpg
    rw [hkind] at hbuilt ⊢
    exact (updateFits_iff hbuilt).mpr (hroom b (List.mem_reverse.mp hb) hroute pg hpg kind hkind)

/-- For whatever peer groups with the three serializers: in a run over messages every update
that is built fits exactly if all blocks formed in it have room, and so for the last flush. -/
theorem updates_fit (env : Env) (hpgs : Templated env) (msgs : List Message) (s : State)
    (hr : msgs.foldlM (parseUpdate env) (start env) = .ok s) :
    (StepsOk (parseUpdate env) (MessagePhase3 env (UpdatesFit env)) (start env) msgs ↔
      StepsOk (parseUpdate env) (MessagePhase3 env (BlocksHaveRoom env)) (start env) msgs) ∧
    ∀ hard s', s.routing.schedulePhase3 env s.tables hard = .ok s' →
      (UpdatesFit env s.routing s.tables ↔ BlocksHaveRoom env s.routing s.tables) := by
  refine ⟨?_, ?_⟩
  · apply runPhase3_congr _ hr
    intro s s' t hs h
    exact updatesFit_iff hpgs hs h
  · intro hard s' h
    exact updatesFit_iff hpgs (reachable_messages hr).synced h

def openEnv : Env := { plainEnv false with outlet := ⟨[⟨serializeIbgp, true⟩], fun _ => true⟩ }

theorem openEnv_templated : Templated openEnv := by
  intro pg hpg
  obtain rfl := List.mem_singleton.mp hpg
  exact ⟨.ibgp, rfl⟩

theorem updates_fit_announced :
    ∃ s, announceOne.foldlM (parseUpdate openEnv) (start openEnv) = .ok s ∧
      (StepsOk (parseUpdate openEnv) (MessagePhase3 openEnv (UpdatesFit openEnv)) (start openEnv)
          announceOne ↔
        StepsOk (parseUpdate openEnv) (MessagePhase3 openEnv (BlocksHaveRoom openEnv))
          (start openEnv) announceOne) := by
  have hr : (announceOne.foldlM (parseUpdate openEnv) (start openEnv)).map (fun _ => ()) =
      .ok () := by decide +kernel
  obtain ⟨s, hs, _⟩ := exists_of_map_eq_ok hr
  exact ⟨s, hs, (updates_fit openEnv openEnv_templated announceOne s hs).1⟩

/-- The bytes other than 0 of a body of 4077 bytes: ORIGIN, an AS_PATH of 4056 bytes in four
AS_SETs, NEXT_HOP and the prefix 10.0.0.0/8. -/
def longBody : List (Nat × UInt8) :=
  [(2, 0x0f), (3, 0xe7), (4, 0x40), (5, 1), (6, 1), (8, 0x50), (9, 2), (10, 0x0f), (11, 0xd8),
    (12, 1), (13, 255), (1034, 1), (1035, 255), (2056, 1), (2057, 255), (3078, 1), (3079, 247),
    (4068, 0x40), (4069, 3), (4070, 4), (4071, 10), (4074, 1), (4075, 8), (4076, 10)]

def longMessage : Message := ⟨0, fun i => (longBody.lookup i).getD 0, 0, 4077⟩

def largeStart : Ptr := 2 ^ 46 + 6445568 * 256

/-- The one call in `longMessage`, up to the update that is built in it. -/
def longUpdate : Exec (Bool × Nat) := do
  let (route, s1) ← messageRoute openEnv { start openEnv with msgCount := 0 + 1 } longMessage
  let (addrref, t) ← lookupRib64 s1.tables (8 <<< 32 ||| 10 <<< 24)
  let (s2, enters) ← s1.routing.callStart openEnv 0 (addrref ||| lrEob) route
  let s3 ← s2.schedulePhase3 openEnv t false
  let r ← buildUpdate serializeIbgp t (s2.slab.heap route) [0] txInit.buffer
  return (decide (addrref = 0 ∧ route = largeStart ∧ enters = true ∧
    s3.egress.blocks = [Block.mk largeStart [0]] ++ s2.egress.blocks), r.2)

/-- The LOCAL_PREF that is added makes it too long. -/
theorem update_too_long :
    (∃ s, [longMessage].foldlM (parseUpdate openEnv) (start openEnv) = .ok s ∧
      (s.routing.egress.tx.written.map fun w => w.2.length) = [4103]) ∧
    ¬ StepsOk (parseUpdate openEnv) (MessagePhase3 openEnv (UpdatesFit openEnv)) (start openEnv)
      [longMessage] := by
  have hsent : ([longMessage].foldlM (parseUpdate openEnv) (start openEnv)).map
      (fun s => s.routing.egress.tx.written.map fun w => w.2.length) = .ok [4103] := by
    decide +kernel
  refine ⟨exists_of_map_eq_ok hsent, ?_⟩
  have hbuilt : longUpdate = .ok (true, 4103) := by decide +kernel
  intro hok
  rw [longUpdate, bind_eq_ok] at hbuilt
  obtain ⟨⟨route, s1⟩, hroute, hbuilt⟩ := hbuilt
  rw [bind_eq_ok] at hbuilt
  obtain ⟨⟨addrref, t⟩, hlookup, hbuilt⟩ := hbuilt
  rw [bind_eq_ok] at hbuilt
  obtain ⟨⟨s2, enters⟩, hstart, hbuilt⟩ := hbuilt
  rw [bind_eq_ok] at hbuilt
  obtain ⟨s3, hrun, hbuilt⟩ := hbuilt
  rw [bind_eq_ok] at hbuilt
  obtain ⟨r, hr, hbuilt⟩ := hbuilt
  obtain ⟨hvalues, hsize⟩ := Prod.mk.inj (Except.ok.inj hbuilt)
  obtain ⟨rfl, rfl, rfl, hblocks⟩ := of_decide_eq_true hvalues
  -- the one NLRI entry is the end of its block
  have hentries := (hok.1 (by decide) (by decide) largeStart s1 hroute).1
  have hannounced : longMessage.announced = [(8 <<< 32 ||| 10 <<< 24, true)] := by decide
  rw [hannounced] at hentries
  have hfits := hentries.1 0 t s2 hlookup (by decide) hstart
  have hmessage := (hfits false s3 _ hrun hblocks _ List.mem_cons_self (by decide)
    ⟨serializeIbgp, true⟩ List.mem_cons_self).message txInit.buffer r hr
  rw [hsize] at hmessage
  exact absurd hmessage (by decide)

end FastParse
