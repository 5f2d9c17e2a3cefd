import FastParse.Routes.Phase3Calls
import FastParse.Routes.RefCounts
import FastParse.Update.Rounds

namespace FastParse

open Framework

variable {env : Env} {e : Halt}

theorem alloc_avoids (he : e ≠ .assertion) {slab : Ptr} {s : Slab (Fin npeers)} {k : Fin npeers}
    (hfree : e = .segv → ∀ z, (s.cache k z).free ≠ null → InSlab slab (s.cache k z).free)
    (sz : Nat) : Avoids e (s.alloc slab k sz) := by
  have carve (s : Slab (Fin npeers)) (z : Size) (p : Ptr) : Avoids e (s.orCarve z p) :=
    Avoids.ite (((avoids_assert he _).bind fun _ => avoids_pure _).bind fun _ => avoids_pure _)
      (avoids_ok _)
  have line (z : Size) : Avoids e (s.allocCacheLine slab k z) := by
    refine Avoids.ite_cases ?_ fun _ => avoids_pure _
    intro hfull
    refine Avoids.ite_cases (fun _ => avoids_pure _) ?_
    intro hout hs
    exact hout (hfree (Except.error.inj hs).symm z hfull)
  have size (z : Size) : Avoids e (s.allocSize slab k z) :=
    (line z).bind fun _ => (carve _ _ _).bind fun _ =>
      (avoids_assert he _).bind fun _ => avoids_pure _
  exact (avoids_assert he _).bind fun _ => Avoids.ite (size _) (size _)

theorem lookupRib64_avoids (t : Bigtable) (la : Nat) : Avoids e (lookupRib64 t la) := by
  by_cases h : lengthOf la ≤ 24
  · rw [lookupRib64_short t h]
    exact avoids_ok _
  · rw [lookupRib64_long t (by omega)]
    exact avoids_ok _

namespace Routing

theorem Reachable.index_le {s : Routing} (h : s.Reachable env) (z : Size) :
    (s.slab.pools z).index ≤ z.max := by
  induction h with
  | start => cases z <;> exact Nat.zero_le _
  | @alloc s pn sz p slab r hs ha ih =>
    change (slab.pools z).index ≤ z.max
    cases (Slab.alloc_sized ha).2 with
    | inl hpop =>
      obtain ⟨_, _, rfl⟩ := hpop
      exact ih
    | inr hgrow =>
      have hlt := (hgrow.bufferAt hs.synced.placed).2
      obtain ⟨_, _, _, rfl⟩ := hgrow
      by_cases hz : z = Size.of sz
      · subst hz
        rw [Slab.grow_pools_self]
        exact hlt
      · rw [Slab.grow_pools_of_ne s.slab hz]
        exact ih
  | @call s s' t pn x route _ _ hcall ih =>
    have hpools : s'.slab.pools = s.slab.pools := by
      rw [(updateAdjRibIn_called hcall).slab, swapSlot]
      split_ifs <;> simp only [Slab.retain, Slab.setRoute, release_pools]
    rw [hpools]
    exact ih
  | flush _ hrun ih =>
    obtain ⟨_, _, _, _, rfl⟩ := schedulePhase3_ok hrun
    exact ih

/-- Where the counts are exact, the lines hold buffers of the slab. -/
theorem Sound.free_inSlab {n : Nat} {route : Ptr} {s : Routing} (h : s.Sound env.slab n route)
    (hs : s.Reachable env) (pn : Fin npeers) (z : Size) (hfree : (s.slab.cache pn z).free ≠ null) :
    InSlab env.slab (s.slab.cache pn z).free := by
  obtain ⟨⟨cells, hc⟩, _⟩ := h
  obtain ⟨l, hl, _⟩ := (hc.lists.chain (pn, z)).cases_ne hfree
  obtain ⟨y, i, hi, e⟩ := hc.carvedCells (pn, z) _ (by rw [hl]; exact List.mem_cons_self)
  rw [e]
  exact bufferAt_inSlab (Nat.lt_of_lt_of_le hi (hs.index_le y))

theorem locribUpdate_avoids (he : e ≠ .assertion) (tb : Ptr → Tiebreak) (rib : Rib)
    (addrref : Nat) (new : Ptr) (update junk : Bool) :
    Avoids e (locribUpdate tb rib addrref new update junk) :=
  Avoids.ite (avoids_pure _) (((avoids_assert he _).bind fun _ =>
    (avoids_assert he _).bind fun _ => avoids_pure _).bind fun _ => avoids_pure _)

theorem locribStart_avoids (he : e ≠ .assertion) (s : Routing) (x : Nat) (new : Ptr)
    (update : Bool) : Avoids e (s.locribStart env x new update) :=
  (locribUpdate_avoids he _ _ _ _ _ _).bind fun _ => avoids_pure _

theorem callStart_avoids (he : e ≠ .assertion) {x : Nat}
    (hindex : e = .bounds → x &&& lrIndexMask < big) (s : Routing) (pn : Fin npeers) (route : Ptr) :
    Avoids e (s.callStart env pn x route) :=
  (avoids_within hindex).bind fun _ => Avoids.ite (locribStart_avoids he _ _ _ _)
    (Avoids.ite (locribStart_avoids he _ _ _ _) (avoids_ok _))

/-- Sending what the journal holds touches nothing outside the arrays. -/
def BlocksContained (env : Env) (s : Routing) (t : Bigtable) : Prop :=
  ∀ b ∈ blocksOf s.rib.head s.rib.journal.queue, Contained env.outlet s.slab.heap t b

theorem Synced.phase3_avoids (he : e ≠ .assertion) (ho : env.outlet.Templated) {s : Routing}
    {t : Bigtable} (hs : s.Synced env) (hin : e ≠ .loop → BlocksContained env s t) (hard : Bool) :
    Avoids e (s.schedulePhase3 env t hard) := by
  rw [schedulePhase3, hs.gate]
  refine (schedulePhase3_avoids he ho hs.named hs.head_ne_emptyPtr ?_ hard s.egress).bind
    fun _ => avoids_pure _
  intro b hb
  refine ⟨?_, ?_⟩
  · rintro rfl
    exact (hin (by decide) b hb).buffer
  · rintro rfl
    exact (hin (by decide) b hb).path

theorem updateAdjRibIn_avoids (he : e ≠ .assertion) (ho : env.outlet.Templated) {s : Routing}
    {t : Bigtable} {pn : Fin npeers} {x : Nat} {route : Ptr} (hs : s.Synced env)
    (hroute : route = null ∨ InSlab env.slab route)
    (hindex : e = .bounds → x &&& lrIndexMask < big)
    (hin : e ≠ .loop → ∀ s1, s.callStart env pn x route = .ok (s1, true) →
      BlocksContained env s1 t) :
    Avoids e (s.updateAdjRibIn env t pn x route) := by
  rw [updateAdjRibIn_eq]
  refine (callStart_avoids he hindex s pn route).bind_ok fun out hout => ?_
  obtain ⟨s1, enters⟩ := out
  refine Avoids.ite_cases ?_ fun _ => avoids_ok _
  rintro rfl
  exact (hs.callStart hroute hout).1.phase3_avoids he ho (fun hl => hin hl s1 hout) false

end Routing

open Routing

namespace State

/-- A message that leaves the counts right, and none of whose steps touches anything outside the
arrays. -/
def MessageContained (env : Env) (s : State) (msg : Message) : Prop :=
  CountsKept env s msg ∧ CallsOk env (fun _ _ a _ => a < big) s msg ∧
    MessagePhase3 env (BlocksContained env) s msg

theorem entry_avoids (he : e ≠ .assertion) (ho : env.outlet.Templated) {pn : Fin npeers}
    {route : Ptr} {pass : State → Bigtable → State}
    {done : State → Nat × Bool → Bigtable → Routing → State}
    {step : State → Nat × Bool → Exec State} (hform : EntryForm env pn route pass done step)
    (hroute : route = null ∨ InSlab env.slab route) {s : State} {entry : Nat × Bool}
    (hs : s.routing.Synced env)
    (hin : e ≠ .loop → EntryOk (fun _ _ a _ => a < big) pn route s entry ∧
      EntryPhase3 env (BlocksContained env) pn route s entry) : Avoids e (step s entry) := by
  rw [hform]
  refine (lookupRib64_avoids _ _).bind_ok fun out hl => Avoids.ite_cases (fun _ => avoids_pure _) ?_
  obtain ⟨addrref, t⟩ := out
  intro hb
  refine (updateAdjRibIn_avoids he ho hs hroute ?_ ?_).bind fun _ => avoids_pure _
  · rintro rfl
    have hindex := (hin (by decide)).1
    simp only [EntryOk, hl] at hindex
    rw [entry_index]
    exact hindex hb
  · intro hloop s1 hstart
    exact (hin hloop).2 addrref t s1 hl hb hstart

theorem entries_avoid (he : e ≠ .assertion) (ho : env.outlet.Templated) {pn : Fin npeers}
    {route : Ptr} {pass : State → Bigtable → State}
    {done : State → Nat × Bool → Bigtable → Routing → State}
    {step : State → Nat × Bool → Exec State} (hform : EntryForm env pn route pass done step)
    (hcalls : EntryCalls env pn route step) (hroute : route = null ∨ InSlab env.slab route)
    {s : State} {entries : List (Nat × Bool)} (hs : s.routing.Reachable env)
    (hin : e ≠ .loop → StepsOk step (EntryOk (fun _ _ a _ => a < big) pn route) s entries ∧
      StepsOk step (EntryPhase3 env (BlocksContained env) pn route) s entries) :
    Avoids e (entries.foldlM step s) := by
  have keep : ∀ s entry s', s.routing.Reachable env → step s entry = .ok s' →
      s'.routing.Reachable env := fun _ _ _ hs h => entries_reachable hcalls hroute hs h
  by_cases hloop : e = .loop
  · refine run_avoids keep ?_ hs (stepsOk_true step s entries)
    intro s entry hs _
    exact entry_avoids he ho hform hroute hs.synced fun hne => absurd hloop hne
  · obtain ⟨hindex, hphase⟩ := hin hloop
    refine run_avoids keep ?_ hs (stepsOk_and hindex hphase)
    intro s entry hs hok
    exact entry_avoids he ho hform hroute hs.synced fun _ => hok

/-- The rest of `parse_update`, after the route of the message. -/
theorem parseUpdate_avoids (he : e ≠ .assertion) (ho : env.outlet.Templated) {s : State}
    {msg : Message} (hs : s.routing.Reachable env)
    (hroute : 4097 > msg.length →
      Avoids e (messageRoute env { s with msgCount := s.msgCount + 1 } msg))
    (hin : e ≠ .loop → MessageContained env s msg) : Avoids e (s.parseUpdate env msg) := by
  rw [parseUpdate, assert]
  refine Avoids.bind_ok (Avoids.ite_cases (fun _ => avoids_ok _) fun _ h => ?_) fun _ hlen => ?_
  · exact he (Except.error.inj h).symm
  have hlen : 4097 > msg.length := by
    by_contra hnot
    rw [if_neg hnot] at hlen
    cases hlen
  refine Avoids.ite_cases (fun _ => avoids_pure _) fun hskip => ?_
  refine (hroute hlen).bind_ok fun out hr => ?_
  obtain ⟨route, s1⟩ := out
  obtain ⟨hs1, hin1⟩ := messageRoute_reachable (s := { s with msgCount := s.msgCount + 1 }) hs hr
  have hall (hloop : e ≠ .loop) := hin hloop
  simp only [MessageContained, CallsOk, hr] at hall
  refine Avoids.bind_ok ?_ fun s2 ha => ?_
  · refine entries_avoid he ho (nlriStep_form msg.peer route) (nlriStep_entryCalls msg.peer route)
      hin1 hs1 fun hloop => ?_
    obtain ⟨_, hindex, hphase⟩ := hall hloop
    exact ⟨hindex.1, (hphase hlen hskip route s1 hr).1⟩
  · have hs2 : s2.routing.Reachable env :=
      run_keeps (I := fun s => s.routing.Reachable env)
        (fun _ _ _ hs hst => entries_reachable (nlriStep_entryCalls msg.peer route) hin1 hs hst)
        hs1 ha
    refine entries_avoid he ho (withdrawStep_form msg.peer) (withdrawStep_entryCalls msg.peer)
      (.inl rfl) hs2 fun hloop => ?_
    obtain ⟨_, hindex, hphase⟩ := hall hloop
    rw [ha] at hindex
    exact ⟨hindex.2, (hphase hlen hskip route s1 hr).2 s2 ha⟩

/-- The line of the peer is followed one step, and the attributes are parsed. -/
theorem messageRoute_avoids (he : e ≠ .assertion) (hloop : e ≠ .loop) {s : State} {msg : Message}
    (hs : s.routing.Reachable env) (hsound : s.routing.Sound env.slab 0 null) :
    Avoids e (messageRoute env s msg) := by
  refine Avoids.ite (Avoids.bind ?_ fun _ => ?_) (avoids_ok _)
  · exact alloc_avoids he (fun _ z hfree => hsound.free_inSlab hs msg.peer z hfree) _
  · exact (parseAttributes_avoids he hloop _ _ _ _).bind fun _ => avoids_pure _

theorem messageRoute_loop_iff {s : State} {msg : Message} (hlen : 4097 > msg.length) :
    messageRoute env s msg = .error .loop ↔ ¬ msg.PathsEnd env s := by
  rw [messageRoute]
  by_cases h : msg.pathattributesLength ≠ 0 ∧ msg.nlriLength ≠ 0
  · rw [if_pos h, newRoute, bind_eq_error]
    simp only [Message.PathsEnd, hlen, h.1, h.2, ne_eq, not_false_eq_true, forall_const]
    constructor
    · intro he
      rcases he with he | ⟨out, hout, he⟩
      · exact absurd he (@alloc_avoids .loop (by decide) _ _ _ (fun h => absurd h (by decide)) _)
      · rcases bind_eq_error.mp he with he | ⟨_, _, he⟩
        · exact fun hends => parseAttributes_loop_iff.mp he (hends ⟨out, hout⟩)
        · cases he
    · intro hnot
      push Not at hnot
      obtain ⟨⟨out, hout⟩, hnot⟩ := hnot
      exact .inr ⟨out, hout, bind_eq_error.mpr (.inl (parseAttributes_loop_iff.mpr hnot))⟩
  · rw [if_neg h]
    have hends : msg.PathsEnd env s := fun _ hp hn => absurd ⟨hp, hn⟩ h
    simp [hends]

theorem parseUpdate_loop_iff (ho : env.outlet.Templated) {s : State} {msg : Message}
    (hs : s.routing.Reachable env) :
    s.parseUpdate env msg = .error .loop ↔ ¬ msg.PathsEnd env s := by
  have hroute (hlen : 4097 > msg.length) :
      messageRoute env { s with msgCount := s.msgCount + 1 } msg = .error .loop ↔
        ¬ msg.PathsEnd env s :=
    messageRoute_loop_iff (s := { s with msgCount := s.msgCount + 1 }) hlen
  constructor
  · intro h hends
    refine parseUpdate_avoids (by decide) ho hs ?_ (fun hne => absurd rfl hne) h
    intro hlen hstuck
    exact (hroute hlen).mp hstuck hends
  · intro hnot
    have hnot' := hnot
    rw [Message.PathsEnd] at hnot'
    push Not at hnot'
    obtain ⟨hlen, _, hnlri, _⟩ := hnot'
    have hstuck := (hroute hlen).mpr hnot
    rw [parseUpdate, assert, if_pos hlen]
    change (if 0 = msg.nlriLength ∧ 0 = msg.withdrawLength then pure s else _) = _
    rw [if_neg fun hempty => hnlri hempty.1.symm, hstuck]
    rfl

end State

section
variable {m : Mem} {pn : Fin npeers} {limit ptr : Nat} {msgCount : UInt32} {s : State}

/-- At a message that is of length zero or keeps `parse_update` going, the loop never ends. -/
theorem dry_of_not_roundEnds (hmax : env.msgMax = 0) (ho : env.outlet.Templated)
    (hs : s.routing.Reachable env) (h : ¬ RoundEnds env m pn limit ptr msgCount s) (fuel : Nat) :
    loop .loop (messageRound env (State.parseUpdate env) m pn limit) fuel (ptr, msgCount, s) =
      .error .loop := by
  rw [RoundEnds] at h
  push Not at h
  obtain ⟨hlt, hmarker, htype, h⟩ := h
  by_cases hzero : getw16 m (ptr + 16) = 0
  · -- it is met again and again
    refine loop_dry (I := fun r => r.1 = ptr ∧ r.2.2 = s) ?_ ⟨rfl, rfl⟩ fuel
    rintro ⟨ptr', msgCount', s'⟩ ⟨rfl, rfl⟩
    refine ⟨(ptr', msgCount' + 1, s'), ?_, rfl, rfl⟩
    rw [messageRound_taken _ pn s' ⟨hlt, .inl hmax⟩ hmarker htype, hzero]
    rfl
  · obtain ⟨hlong, hspare, hnot⟩ := h hzero
    have hstuck := (State.parseUpdate_loop_iff ho hs).mpr hnot
    rw [messageAt] at hstuck
    cases fuel with
    | zero => rfl
    | succ fuel =>
      apply loop_error
      rw [messageRound_taken _ pn s ⟨hlt, .inl hmax⟩ hmarker htype, takeMessageWith,
        if_pos ⟨hlong, hspare⟩, hstuck]
      rfl

/-- Any other message, if it is got through, moves `ptr`. -/
theorem RoundEnds.moves (ho : env.outlet.Templated) (hs : s.routing.Reachable env)
    (h : RoundEnds env m pn limit ptr msgCount s) :
    messageRound env (State.parseUpdate env) m pn limit (ptr, msgCount, s) ≠ .error .loop ∧
      ∀ u, messageRound env (State.parseUpdate env) m pn limit (ptr, msgCount, s) = .ok (.inl u) →
        ptr < limit ∧ ptr < u.1 := by
  rcases messageRound_cases env (State.parseUpdate env) m pn limit ptr msgCount s with
    hround | hround | ⟨hgo, hmarker, htype⟩
  · simp [hround]
  · simp [hround]
  · obtain ⟨hzero, hpaths⟩ := h hgo.1 hmarker htype
    have hmoves : 0 < (getw16 m (ptr + 16)).toNat :=
      Nat.pos_of_ne_zero fun e => hzero (UInt16.toNat_inj.mp e)
    rw [messageRound_taken (State.parseUpdate env) pn s hgo hmarker htype]
    constructor
    · intro he
      rcases bind_eq_error.mp he with he | ⟨_, _, he⟩
      · rw [takeMessageWith] at he
        split_ifs at he with htake
        exact (State.parseUpdate_loop_iff ho hs).mp he (hpaths htake.1 htake.2)
      · cases he
    · intro u hu
      obtain ⟨s', _, hu⟩ := bind_eq_ok.mp hu
      cases hu
      exact ⟨hgo.1, Nat.lt_add_of_pos_right hmoves⟩

/-- The message at `ptr`, if it is handed to `parse_update`. -/
def RoundContained (env : Env) (m : Mem) (pn : Fin npeers) (limit ptr : Nat) (msgCount : UInt32)
    (s : State) : Prop :=
  ptr < limit → markerAt m ptr = true → getw8 m (ptr + 18) = 2 →
    getw16 m (ptr + 16) > 23 → env.spare ≤ msgCount →
      State.MessageContained env s (messageAt m pn ptr)

theorem RoundContained.avoids (he : e ≠ .assertion) (hloop : e ≠ .loop)
    (ho : env.outlet.Templated) (hs : s.routing.Reachable env)
    (hsound : s.routing.Sound env.slab 0 null)
    (h : RoundContained env m pn limit ptr msgCount s) :
    Avoids e (messageRound env (State.parseUpdate env) m pn limit (ptr, msgCount, s)) := by
  rcases messageRound_cases env (State.parseUpdate env) m pn limit ptr msgCount s with
    hround | hround | ⟨hgo, hmarker, htype⟩
  · simp [hround]
  · intro hstop
    exact he (Except.error.inj (hround.symm.trans hstop)).symm
  · rw [messageRound_taken (State.parseUpdate env) pn s hgo hmarker htype, takeMessageWith]
    refine (Avoids.ite_cases ?_ fun _ => avoids_pure _).bind fun _ => avoids_ok _
    intro htake
    exact State.parseUpdate_avoids he ho hs
      (fun _ => State.messageRoute_avoids (s := { s with msgCount := s.msgCount + 1 }) he hloop hs
        hsound)
      fun _ => h hgo.1 hmarker htype htake.1 htake.2

/-- A round that leads to the next one keeps the counts. -/
theorem RoundContained.next (hs : s.routing.Reachable env)
    (hsound : s.routing.Sound env.slab 0 null)
    (h : RoundContained env m pn limit ptr msgCount s) {u : Nat × UInt32 × State}
    (hu : messageRound env (State.parseUpdate env) m pn limit (ptr, msgCount, s) = .ok (.inl u)) :
    u.2.2.routing.Reachable env ∧ u.2.2.routing.Sound env.slab 0 null := by
  rcases messageRound_cases env (State.parseUpdate env) m pn limit ptr msgCount s with
    hround | hround | ⟨hgo, hmarker, htype⟩
  · cases hround.symm.trans hu
  · cases hround.symm.trans hu
  · rw [messageRound_taken (State.parseUpdate env) pn s hgo hmarker htype, takeMessageWith] at hu
    obtain ⟨s', hs', hu⟩ := bind_eq_ok.mp hu
    cases hu
    split_ifs at hs' with htake
    · exact ⟨reachable_parseUpdate hs hs',
        parseUpdate_sound hsound (h hgo.1 hmarker htype htake.1 htake.2).1 hs'⟩
    · cases hs'
      exact ⟨hs, hsound⟩

end

/-- Without a limit, and whatever the buffer holds: as long as the messages stay inside the
arrays and leave the counts right, the loop reaches the limit or stops on an assertion, after no
more rounds than there are bytes, exactly if every message that is reached moves `ptr` and lets
`parse_update` end. -/
theorem message_loop_ends_iff (env : Env) (hmax : env.msgMax = 0) (ho : env.outlet.Templated)
    (m : Mem) (pn : Fin npeers) (s : State) (hs : s.routing.Reachable env)
    (hsound : s.routing.Sound env.slab 0 null) (buf : Buf) (fuel : Nat)
    (hfuel : buf.length.toNat < fuel)
    (hin : ∀ ptr msgCount s', Reaches (messageRound env (State.parseUpdate env) m pn
          (buf.base + buf.length).toNat) (buf.base, 0, s) (ptr, msgCount, s') →
        RoundContained env m pn (buf.base + buf.length).toNat ptr msgCount s') :
    ((∃ out, bufParsePeer env m fuel s pn buf = .ok out) ∨
        bufParsePeer env m fuel s pn buf = .error .assertion) ↔
      ∀ ptr msgCount s', Reaches (messageRound env (State.parseUpdate env) m pn
          (buf.base + buf.length).toNat) (buf.base, 0, s) (ptr, msgCount, s') →
        RoundEnds env m pn (buf.base + buf.length).toNat ptr msgCount s' := by
  rw [bufParsePeer_with, bufParsePeerWith]
  generalize hlimit : (buf.base + buf.length).toNat = limit at hin ⊢
  have hkept : ∀ r, Reaches (messageRound env (State.parseUpdate env) m pn limit)
      (buf.base, 0, s) r → r.2.2.routing.Reachable env ∧ r.2.2.routing.Sound env.slab 0 null := by
    intro r hreach
    induction hreach with
    | refl => exact ⟨hs, hsound⟩
    | tail hreach hstep ih => exact (hin _ _ _ hreach).next ih.1 ih.2 hstep
  constructor
  · intro hends ptr msgCount s' hreach
    by_contra hnot
    have hdry := dry_of_reaches hreach
      (dry_of_not_roundEnds hmax ho (hkept _ hreach).1 hnot) fuel
    rw [hdry] at hends
    simp at hends
  · intro h
    have hloop : loop .loop (messageRound env (State.parseUpdate env) m pn limit) fuel
        (buf.base, 0, s) ≠ .error .loop := by
      apply loop_ends (μ := fun r : Nat × UInt32 × State => limit - r.1)
      · rintro ⟨ptr, msgCount, s'⟩ hreach
        obtain ⟨hne, hmoves⟩ := (h ptr msgCount s' hreach).moves ho (hkept _ hreach).1
        refine ⟨hne, ?_⟩
        intro u hu
        obtain ⟨hlt, hmore⟩ := hmoves u hu
        simp only
        omega
      · simp only
        omega
    have havoids (e : Halt) (he : e ≠ .assertion) (hne : e ≠ .loop) :
        Avoids e (loop .loop (messageRound env (State.parseUpdate env) m pn limit) fuel
          (buf.base, 0, s)) :=
      loop_avoids hne (fun r hreach => (hin _ _ _ hreach).avoids he hne ho (hkept r hreach).1
        (hkept r hreach).2) fuel
    cases hr : loop .loop (messageRound env (State.parseUpdate env) m pn limit) fuel
        (buf.base, 0, s) with
    | ok out => exact .inl ⟨out, rfl⟩
    | error e =>
      right
      cases e with
      | assertion => rfl
      | segv => exact absurd hr (havoids .segv (by decide) (by decide))
      | bounds => exact absurd hr (havoids .bounds (by decide) (by decide))
      | loop => exact absurd hr hloop

/-- Blocks with room under every serializer, and with a path in their route. -/
def RoomyBlocks (s : Routing) (t : Bigtable) : Prop :=
  ∀ b ∈ blocksOf s.rib.head s.rib.journal.queue,
    null ≠ b.route ∧
      (∀ kind ∈ [Kind.ibgp, .ebgp, .copy], 23 + exportLength kind (s.slab.heap b.route) +
        (b.indices.map fun i => nlriSize (t.bigtable i)).sum ≤ txBufferSize) ∧
      (foundPathLength (s.slab.heap b.route)).all (2 ≤ ·) = true

instance (s : Routing) (t : Bigtable) : Decidable (RoomyBlocks s t) := by
  unfold RoomyBlocks
  infer_instance

theorem RoomyBlocks.contained {s : Routing} {t : Bigtable} (h : RoomyBlocks s t) :
    BlocksContained env s t := by
  intro b hb
  obtain ⟨hne, hroom, hpath⟩ := h b hb
  refine ⟨?_, ?_⟩
  · rw [InTxBuffer, if_neg hne]
    intro pg _ kind _
    exact hroom kind (by cases kind <;> simp)
  · intro _ _ _ _ n hn
    rw [hn] at hpath
    exact of_decide_eq_true hpath

def announcedFrame : List UInt8 := frame (updateBody [] (plainAttributes 0 7) [8, 10])

theorem announcedFrame_rounds {r : Nat × UInt32 × State}
    (h : Reaches (messageRound (plainEnv true) (State.parseUpdate (plainEnv true))
      (bytesMem announcedFrame) 0 45) (0, 0, start (plainEnv true)) r) :
    r = (0, 0, start (plainEnv true)) ∨ ¬ r.1 < 45 := by
  refine h.keeps (I := fun r => r = (0, 0, start (plainEnv true)) ∨ ¬ r.1 < 45) ?_ (.inl rfl)
  rintro ⟨ptr, msgCount, s⟩ u hr hu
  right
  cases hr with
  | inl e =>
    cases e
    rw [messageRound_taken _ 0 _ ⟨by decide, .inl rfl⟩ (by decide) (by decide), bind_eq_ok] at hu
    obtain ⟨_, _, hu⟩ := hu
    cases hu
    have hnext : ¬ 0 + (getw16 (bytesMem announcedFrame) (0 + 16)).toNat < 45 := by decide
    exact hnext
  | inr hend =>
    rw [messageRound_stop _ _ 0 s fun htest => hend htest.1] at hu
    cases hu

def announcedCall : Exec (Bool × Bool) := do
  let (route, s1) ← State.messageRoute (plainEnv true)
    { start (plainEnv true) with msgCount := 0 + 1 } (messageAt (bytesMem announcedFrame) 0 0)
  let (addrref, t) ← lookupRib64 s1.tables (8 <<< 32 ||| 10 <<< 24)
  let (s2, enters) ← s1.routing.callStart (plainEnv true) 0 (addrref ||| lrEob) route
  return (enters, decide (RoomyBlocks s2 t))

theorem announcedFrame_phase3 :
    State.MessagePhase3 (plainEnv true) (BlocksContained (plainEnv true))
      (start (plainEnv true)) (messageAt (bytesMem announcedFrame) 0 0) := by
  have hcall : announcedCall = .ok (true, true) := by decide +kernel
  have hannounced : (messageAt (bytesMem announcedFrame) 0 0).announced =
      [(8 <<< 32 ||| 10 <<< 24, true)] := by decide
  have hwithdrawn : (messageAt (bytesMem announcedFrame) 0 0).withdrawals = [] := by decide
  intro _ _ route s1 hr
  rw [hannounced, hwithdrawn]
  refine ⟨⟨?_, ?_⟩, fun _ _ => trivial⟩
  · intro addrref t s2 hl _ hstart
    rw [announcedCall, bind_eq_ok] at hcall
    obtain ⟨out, hroute, hcall⟩ := hcall
    obtain rfl := Except.ok.inj (hr.symm.trans hroute)
    rw [bind_eq_ok] at hcall
    obtain ⟨out, hlookup, hcall⟩ := hcall
    obtain rfl := Except.ok.inj (hl.symm.trans hlookup)
    rw [bind_eq_ok] at hcall
    obtain ⟨out, hcalled, hcall⟩ := hcall
    obtain rfl := Except.ok.inj (hstart.symm.trans hcalled)
    exact (of_decide_eq_true (Prod.mk.inj (Except.ok.inj hcall)).2).contained
  · split <;> trivial

theorem message_loop_ends_one :
    (∃ out, bufParsePeer (plainEnv true) (bytesMem announcedFrame) 60 (start (plainEnv true)) 0
        ⟨0, 45⟩ = .ok out) ∨
      bufParsePeer (plainEnv true) (bytesMem announcedFrame) 60 (start (plainEnv true)) 0
        ⟨0, 45⟩ = .error .assertion := by
  have hkept : State.MessageContained (plainEnv true) (start (plainEnv true))
      (messageAt (bytesMem announcedFrame) 0 0) :=
    ⟨by decide +kernel, by decide +kernel, announcedFrame_phase3⟩
  have hstart : (messageAt (bytesMem announcedFrame) 0 0).pathAttributes = 23 := by decide
  have hlength : (messageAt (bytesMem announcedFrame) 0 0).pathattributesLength = 20 := by decide
  have hpath : (parseAttributes (bytesMem announcedFrame) 23 20
      (phase1 (peers 0) ⟨0, 0, 0, 0, 0, 0, 0, 0⟩)).map (fun _ => ()) = .ok () := by
    decide +kernel
  refine (message_loop_ends_iff (plainEnv true) rfl (fun pg hpg => ⟨.ibgp, ?_⟩)
    (bytesMem announcedFrame) 0 (start (plainEnv true)) .start (start_sound (plainEnv true))
    ⟨0, 45⟩ 60 (by decide) ?_).mpr ?_
  · rw [List.mem_singleton.mp hpg]
    rfl
  · intro ptr msgCount s' hreach
    cases announcedFrame_rounds hreach with
    | inl e =>
      cases e
      exact fun _ _ _ _ _ => hkept
    | inr hend => exact fun hlt => absurd hlt hend
  · intro ptr msgCount s' hreach
    cases announcedFrame_rounds hreach with
    | inl e =>
      cases e
      refine fun _ _ _ => ⟨by decide, fun _ _ _ _ _ _ => ?_⟩
      by_contra hnot
      rw [hstart, hlength] at hnot
      have hstuck := parseAttributes_loop_iff.mpr hnot
      obtain ⟨_, hends, _⟩ := exists_of_map_eq_ok hpath
      cases hends.symm.trans hstuck
    | inr hend => exact fun hlt => absurd hlt hend

def emptyHeader : List UInt8 := List.replicate 16 0xff ++ [0, 0, 2]

theorem message_loop_endless :
    ¬ ∃ fuel, (∃ out, bufParsePeer (plainEnv true) (bytesMem emptyHeader) fuel
          (start (plainEnv true)) 0 ⟨0, 19⟩ = .ok out) ∨
        bufParsePeer (plainEnv true) (bytesMem emptyHeader) fuel (start (plainEnv true)) 0 ⟨0, 19⟩ =
          .error .assertion := by
  rintro ⟨fuel, h⟩
  have hdry : bufParsePeer (plainEnv true) (bytesMem emptyHeader) fuel (start (plainEnv true)) 0
      ⟨0, 19⟩ = .error .loop := by
    rw [bufParsePeer_with, bufParsePeerWith]
    refine loop_dry (I := fun r => r.1 = 0 ∧ r.2.2 = start (plainEnv true)) ?_ ⟨rfl, rfl⟩ fuel
    rintro ⟨ptr, msgCount, s⟩ ⟨rfl, rfl⟩
    refine ⟨(0, msgCount + 1, start (plainEnv true)), ?_, rfl, rfl⟩
    rw [messageRound_taken _ 0 _ ⟨by decide, .inl rfl⟩ (by decide) (by decide)]
    rfl
  rw [hdry] at h
  simp at h

end FastParse
