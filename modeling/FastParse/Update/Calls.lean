import FastParse.Phase3.Drain
import FastParse.Update.Parse

namespace FastParse

open Framework

namespace Routing

variable {env : Env} {t : Bigtable}

theorem release_tiebreak (slab : Slab (Fin npeers)) (pn : Fin npeers) (p q : Ptr) :
    ((slab.release pn p).heap q).tiebreak = (slab.heap q).tiebreak := by
  rw [Slab.release_view (f := Route.tiebreak) fun _ _ => rfl]
  split_ifs with e
  · rw [e]
  · rfl

theorem release_pools (slab : Slab (Fin npeers)) (pn : Fin npeers) (p : Ptr) :
    (slab.release pn p).pools = slab.pools := by
  simp only [Slab.release, Slab.dalloc_eq, Slab.dallocCacheLine_eq]
  split_ifs <;> rfl

theorem retain_tiebreak (slab : Slab (Fin npeers)) (p q : Ptr) :
    ((slab.retain p).heap q).tiebreak = (slab.heap q).tiebreak := by
  by_cases e : q = p
  · simp [Slab.retain, Slab.setRoute, e]
  · simp [Slab.retain, Slab.setRoute, e]

theorem swapSlot_tiebreak (s : Routing) (pn : Fin npeers) (a : Nat) (route : Ptr) :
    (s.swapSlot pn a route).tiebreak = s.tiebreak := by
  funext q
  rw [swapSlot]
  split_ifs
  · exact release_tiebreak s.slab pn _ q
  · rfl

theorem swapSlot_adjRibIn (s : Routing) (pn : Fin npeers) (a : Nat) (route : Ptr) :
    (s.swapSlot pn a route).adjRibIn = Function.update s.adjRibIn (pn, a) route := by
  rw [swapSlot]
  split_ifs <;> rfl

theorem swapSlot_rib (s : Routing) (pn : Fin npeers) (a : Nat) (route : Ptr) :
    (s.swapSlot pn a route).rib = s.rib := by
  rw [swapSlot]
  split_ifs <;> rfl

theorem schedulePhase3_ok {s s' : Routing} {hard : Bool}
    (h : s.schedulePhase3 env t hard = .ok s') :
    ∃ gate rib e, FastParse.schedulePhase3 env.outlet s.slab.heap t hard s.gate s.rib s.egress =
      .ok (gate, rib, e) ∧ s' = { s with gate := gate, rib := rib, egress := e } := by
  rw [schedulePhase3, bind_eq_ok] at h
  obtain ⟨⟨gate, rib, e⟩, hp, h⟩ := h
  cases h
  exact ⟨gate, rib, e, hp, rfl⟩

section
variable (env : Env)

/-- `locrib` up to its last statement, and whether that calls `schedule_phase3`. -/
def locribStart (s : Routing) (extendedAddrref : Nat) (new : Ptr) (update : Bool) :
    Exec (Routing × Bool) := do
  let addrref := lrIndexMask &&& extendedAddrref
  let eobFlag := lrEob &&& extendedAddrref ≠ 0
  let headWrites :=
    if Pushes s.tiebreak (s.rib.locrib addrref) new update then addrref :: s.headWrites
    else s.headWrites
  let (rib, pushed) ←
    locribUpdate s.tiebreak s.rib addrref new update (env.junk s.receivedPrefixes)
  return ({ s with rib, headWrites }, decide (pushed = true ∧ eobFlag))

theorem locrib_eq (t : Bigtable) (s : Routing) (x : Nat) (new : Ptr) (update : Bool) :
    s.locrib env t x new update = (do
      let (s1, enters) ← s.locribStart env x new update
      if enters = true then s1.schedulePhase3 env t false else .ok s1) := by
  rw [locrib, locribStart]
  cases locribUpdate s.tiebreak s.rib (lrIndexMask &&& x) new update
      (env.junk s.receivedPrefixes) with
  | error halt => rfl
  | ok out =>
    obtain ⟨rib, pushed⟩ := out
    simp only [bind, Except.bind, pure, Except.pure, decide_eq_true_eq]

/-- `update_adj_rib_in` likewise. -/
def callStart (s : Routing) (pn : Fin npeers) (addrref : Nat) (route : Ptr) :
    Exec (Routing × Bool) := do
  let addrindex := addrref &&& lrIndexMask
  within (addrindex < big)
  let oldRoute := s.adjRibIn (pn, addrindex)
  let s := s.swapSlot pn addrindex route
  if route ≠ null then
    ({ s with slab := s.slab.retain route } : Routing).locribStart env addrref route true
  else if oldRoute ≠ null then s.locribStart env addrref route false
  else .ok (s, false)

theorem updateAdjRibIn_eq (t : Bigtable) (s : Routing) (pn : Fin npeers) (x : Nat)
    (route : Ptr) :
    s.updateAdjRibIn env t pn x route = (do
      let (s1, enters) ← s.callStart env pn x route
      if enters = true then s1.schedulePhase3 env t false else .ok s1) := by
  rw [updateAdjRibIn, callStart]
  by_cases hin : x &&& lrIndexMask < big
  · rw [within_bind hin, within_bind hin]
    simp only
    split_ifs
    · exact locrib_eq env t _ x route true
    · exact locrib_eq env t _ x route false
    · rfl
  · simp only [within, if_neg hin]
    rfl

end

/-- A call ends where its start does, or with the run of phase 3 that it enters. -/
theorem updateAdjRibIn_cases {s s' : Routing} {pn : Fin npeers} {x : Nat} {route : Ptr}
    (h : s.updateAdjRibIn env t pn x route = .ok s') :
    ∃ s1 enters, s.callStart env pn x route = .ok (s1, enters) ∧
      (s' = s1 ∨ s1.schedulePhase3 env t false = .ok s') := by
  rw [updateAdjRibIn_eq, bind_eq_ok] at h
  obtain ⟨⟨s1, enters⟩, hstart, h⟩ := h
  refine ⟨s1, enters, hstart, ?_⟩
  cases enters with
  | true => exact .inr h
  | false =>
    cases h
    exact .inl rfl

/-- Everything that `locrib` does before its last statement: the locked section and the
journal entry. -/
theorem locribStart_ok {s s1 : Routing} {x : Nat} {new : Ptr} {update enters : Bool}
    (h : s.locribStart env x new update = .ok (s1, enters)) :
    ∃ rib pushed,
      locribUpdate s.tiebreak s.rib (lrIndexMask &&& x) new update
        (env.junk s.receivedPrefixes) = .ok (rib, pushed) ∧
      s1 = { s with
        rib := rib
        headWrites :=
          if Pushes s.tiebreak (s.rib.locrib (lrIndexMask &&& x)) new update then
            (lrIndexMask &&& x) :: s.headWrites
          else s.headWrites } := by
  rw [locribStart, bind_eq_ok] at h
  obtain ⟨⟨rib, pushed⟩, hu, h⟩ := h
  cases h
  exact ⟨rib, pushed, hu, rfl⟩

theorem locribUpdate_head {tb : Ptr → Tiebreak} {rib rib' : Rib} {a : Nat} {new : Ptr}
    {update junk pushed : Bool} (h : locribUpdate tb rib a new update junk = .ok (rib', pushed)) :
    rib'.head =
      if Pushes tb (rib.locrib a) new update then Function.update rib.head a new
      else rib.head := by
  cases locribUpdate_cases h with
  | inl hc =>
    rw [if_pos hc.1]
    unfold Rib.head
    rw [hc.2.1]
    exact heads_update rib.locrib a ⟨new, true⟩
  | inr hc =>
    rw [if_neg hc.1]
    unfold Rib.head
    rw [hc.2.1]

theorem locribStart_frame {s s1 : Routing} {x : Nat} {new : Ptr} {update enters : Bool}
    (h : s.locribStart env x new update = .ok (s1, enters)) :
    s1.slab = s.slab ∧ s1.adjRibIn = s.adjRibIn ∧
    s1.head =
      if Pushes s.tiebreak (s.rib.locrib (lrIndexMask &&& x)) new update then
        Function.update s.head (lrIndexMask &&& x) new
      else s.head := by
  obtain ⟨rib, pushed, hu, rfl⟩ := locribStart_ok h
  exact ⟨rfl, rfl, locribUpdate_head hu⟩

/-- The end of a call in terms of its start: the slot holds the new route, the old one has
been released and the new one retained, and the head moves if the new route wins. A call
without a route never moves it. -/
structure Called (s : Routing) (pn : Fin npeers) (a : Nat) (route : Ptr) (s' : Routing) :
    Prop where
  adjRibIn : s'.adjRibIn = Function.update s.adjRibIn (pn, a) route
  slab : s'.slab =
    if route ≠ null then (s.swapSlot pn a route).slab.retain route
    else (s.swapSlot pn a route).slab
  head : s'.head =
    if route ≠ null ∧ (s.head a = null ∨ s.tiebreak route ≠ s.tiebreak (s.head a)) then
      Function.update s.head a route
    else s.head

theorem callStart_called {s s1 : Routing} {pn : Fin npeers} {addrref : Nat} {route : Ptr}
    {enters : Bool} (h : s.callStart env pn addrref route = .ok (s1, enters)) :
    Called s pn (addrref &&& lrIndexMask) route s1 := by
  rw [callStart, within_bind_ok] at h
  obtain ⟨_, h⟩ := h
  simp only at h
  rw [Nat.and_comm addrref] at h ⊢
  generalize ha : lrIndexMask &&& addrref = a at h ⊢
  split_ifs at h with hr ho
  · obtain ⟨hslab, hadj, hhead⟩ := locribStart_frame h
    rw [ha] at hhead
    refine ⟨?_, ?_, ?_⟩
    · rw [hadj]
      exact swapSlot_adjRibIn s pn a route
    · rw [hslab, if_pos hr]
    · generalize hs2 : ({ s.swapSlot pn a route with
        slab := (s.swapSlot pn a route).slab.retain route } : Routing) = s2 at hhead
      have htb : s2.tiebreak = s.tiebreak := by
        rw [← swapSlot_tiebreak s pn a route, ← hs2]
        funext q
        exact retain_tiebreak _ route q
      have hrib : s2.rib = s.rib := by
        rw [← swapSlot_rib s pn a route, ← hs2]
      have hh : s2.head = s.head := congrArg Rib.head hrib
      simp only [hhead, htb, hh, hrib, Pushes, tiebreaker_iff, if_true, hr, ne_eq,
        not_false_eq_true, true_and]
      rfl
  · obtain ⟨hslab, hadj, hhead⟩ := locribStart_frame h
    have hrnull : route = null := not_not.mp hr
    subst hrnull
    refine ⟨?_, ?_, ?_⟩
    · rw [hadj]
      exact swapSlot_adjRibIn s pn a null
    · rw [hslab, if_neg hr]
    · -- `current && current == new` with a `NULL` `new`
      have hp : ¬ Pushes (s.swapSlot pn a null).tiebreak
          ((s.swapSlot pn a null).rib.locrib (lrIndexMask &&& addrref)) null false := by
        intro hp
        exact hp.1 hp.2
      rw [hhead, if_neg hp, if_neg (fun hc => hr hc.1)]
      exact congrArg Rib.head (swapSlot_rib s pn a null)
  · have hrnull : route = null := not_not.mp hr
    subst hrnull
    cases h
    refine ⟨swapSlot_adjRibIn s pn a null, ?_, ?_⟩
    · rw [if_neg hr]
    · rw [if_neg (fun hc => hr hc.1)]
      exact congrArg Rib.head (swapSlot_rib s pn a null)

theorem updateAdjRibIn_called {s s' : Routing} {pn : Fin npeers} {addrref : Nat} {route : Ptr}
    (h : s.updateAdjRibIn env t pn addrref route = .ok s') :
    Called s pn (addrref &&& lrIndexMask) route s' := by
  obtain ⟨s1, enters, hstart, hc⟩ := updateAdjRibIn_cases h
  have hcalled := callStart_called hstart
  cases hc with
  | inl e => exact e ▸ hcalled
  | inr hrun =>
    obtain ⟨gate, rib, e, hp, rfl⟩ := schedulePhase3_ok hrun
    exact ⟨hcalled.adjRibIn, hcalled.slab, (schedulePhase3_head hp).trans hcalled.head⟩

end Routing

end FastParse
