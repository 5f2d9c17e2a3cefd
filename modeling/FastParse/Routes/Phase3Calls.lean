import FastParse.Routes.Reachable

namespace FastParse

open Framework

/-- A condition on entering `schedule_phase3`: the globals and the index tables. -/
abbrev Phase3Cond := Routing → Bigtable → Prop

namespace State

/-- If the entry leads into phase 3, the condition is met there. -/
def EntryPhase3 (env : Env) (P : Phase3Cond) (pn : Fin npeers) (route : Ptr) (s : State)
    (entry : Nat × Bool) : Prop :=
  ∀ addrref t s1, lookupRib64 s.tables entry.1 = .ok (addrref, t) → tooBig ≠ addrref →
    s.routing.callStart env pn (if entry.2 then addrref ||| lrEob else addrref) route =
      .ok (s1, true) → P s1 t

/-- All calls of phase 3 that a message leads to meet the condition. -/
def MessagePhase3 (env : Env) (P : Phase3Cond) (s : State) (msg : Message) : Prop :=
  4097 > msg.length → ¬ (0 = msg.nlriLength ∧ 0 = msg.withdrawLength) →
  ∀ route s1, messageRoute env { s with msgCount := s.msgCount + 1 } msg = .ok (route, s1) →
    StepsOk (nlriStep env msg.peer route) (EntryPhase3 env P msg.peer route) s1 msg.announced ∧
    ∀ s2, msg.announced.foldlM (nlriStep env msg.peer route) s1 = .ok s2 →
      StepsOk (withdrawStep env msg.peer) (EntryPhase3 env P msg.peer null) s2 msg.withdrawals

section
variable {env : Env} {P Q : Phase3Cond}

def SamePhase3 (env : Env) (P Q : Phase3Cond) : Prop :=
  ∀ s s' t, s.Synced env → s.schedulePhase3 env t false = .ok s' → (P s t ↔ Q s t)

theorem SamePhase3.symm (h : SamePhase3 env P Q) : SamePhase3 env Q P :=
  fun s s' t hs hrun => (h s s' t hs hrun).symm

theorem EntryPhase3.imp (h : SamePhase3 env P Q) {pn : Fin npeers} {route : Ptr}
    {step : State → Nat × Bool → Exec State} (hstep : EntryCalls env pn route step)
    (hroute : route = null ∨ InSlab env.slab route) {s s' : State} {entry : Nat × Bool}
    (hs : s.routing.Reachable env) (hrun : step s entry = .ok s')
    (hp : EntryPhase3 env P pn route s entry) : EntryPhase3 env Q pn route s entry := by
  intro addrref t s1 hl hb hstart
  obtain ⟨addrref', t', hl', hc⟩ := hstep s entry s' hrun
  obtain ⟨rfl, rfl⟩ := Prod.mk.inj (Except.ok.inj (hl.symm.trans hl'))
  have hcall := (hc.resolve_left fun e => hb e.1).2
  rw [Routing.updateAdjRibIn_eq, hstart] at hcall
  have hsynced := (hs.synced.callStart hroute hstart).1
  exact (h s1 _ t hsynced hcall).mp (hp addrref t s1 hl hb hstart)

theorem entryPhase3_congr (h : SamePhase3 env P Q) {pn : Fin npeers} {route : Ptr}
    {step : State → Nat × Bool → Exec State} (hstep : EntryCalls env pn route step)
    (hroute : route = null ∨ InSlab env.slab route) {s s' : State} {entry : Nat × Bool}
    (hs : s.routing.Reachable env) (hrun : step s entry = .ok s') :
    EntryPhase3 env P pn route s entry ↔ EntryPhase3 env Q pn route s entry :=
  ⟨EntryPhase3.imp h hstep hroute hs hrun, EntryPhase3.imp h.symm hstep hroute hs hrun⟩

theorem entries_reachable {pn : Fin npeers} {route : Ptr}
    {step : State → Nat × Bool → Exec State} (hstep : EntryCalls env pn route step)
    (hroute : route = null ∨ InSlab env.slab route) {s s' : State} {entry : Nat × Bool}
    (hs : s.routing.Reachable env) (hrun : step s entry = .ok s') : s'.routing.Reachable env := by
  obtain ⟨addrref, t, _, hc⟩ := hstep s entry s' hrun
  cases hc with
  | inl hc =>
    rw [hc.2]
    exact hs
  | inr hc => exact hs.call hroute hc.2

theorem messagePhase3_congr (h : SamePhase3 env P Q) {s s' : State} {msg : Message}
    (hs : s.routing.Reachable env) (hrun : s.parseUpdate env msg = .ok s') :
    MessagePhase3 env P s msg ↔ MessagePhase3 env Q s msg := by
  obtain ⟨_, hc⟩ := parseUpdate_cases hrun
  cases hc with
  | inl hc => exact ⟨fun _ _ hno => absurd hc.1 hno, fun _ _ hno => absurd hc.1 hno⟩
  | inr hc =>
    obtain ⟨hskip, r, s1, s2, hr, ha, hw⟩ := hc
    obtain ⟨hs1, hroute⟩ :=
      messageRoute_reachable (s := { s with msgCount := s.msgCount + 1 }) hs hr
    have hannounce : EntryCalls env msg.peer r _ := nlriStep_entryCalls msg.peer r
    have hwithdraw : EntryCalls env msg.peer null _ := withdrawStep_entryCalls msg.peer
    have hs2 : s2.routing.Reachable env :=
      run_keeps (I := fun s => s.routing.Reachable env)
        (fun _ _ _ hs hst => entries_reachable hannounce hroute hs hst) hs1 ha
    have hnlri := stepsOk_congr (I := fun s => s.routing.Reachable env)
      (fun _ _ _ hs hst => entries_reachable hannounce hroute hs hst)
      (fun _ _ _ hs hst => entryPhase3_congr h hannounce hroute hs hst) hs1 ha
    have hwithdrawn := stepsOk_congr (I := fun s => s.routing.Reachable env)
      (fun _ _ _ hs hst => entries_reachable hwithdraw (.inl rfl) hs hst)
      (fun _ _ _ hs hst => entryPhase3_congr h hwithdraw (.inl rfl) hs hst) hs2 hw
    have same : ∀ R : Phase3Cond, MessagePhase3 env R s msg ↔
        (4097 > msg.length →
          StepsOk (nlriStep env msg.peer r) (EntryPhase3 env R msg.peer r) s1 msg.announced ∧
          StepsOk (withdrawStep env msg.peer) (EntryPhase3 env R msg.peer null) s2
            msg.withdrawals) := by
      intro R
      constructor
      · intro hm hlen
        obtain ⟨h1, h2⟩ := hm hlen hskip r s1 hr
        exact ⟨h1, h2 s2 ha⟩
      · intro hm hlen _ r' s1' hr'
        obtain ⟨rfl, rfl⟩ := Prod.mk.inj (Except.ok.inj (hr.symm.trans hr'))
        refine ⟨(hm hlen).1, ?_⟩
        intro s2' ha'
        obtain rfl := Except.ok.inj (ha.symm.trans ha')
        exact (hm hlen).2
    rw [same P, same Q, hnlri, hwithdrawn]

theorem runPhase3_congr (h : SamePhase3 env P Q) {msgs : List Message} {s : State}
    (hr : msgs.foldlM (parseUpdate env) (start env) = .ok s) :
    StepsOk (parseUpdate env) (MessagePhase3 env P) (start env) msgs ↔
      StepsOk (parseUpdate env) (MessagePhase3 env Q) (start env) msgs :=
  stepsOk_congr (I := fun s => s.routing.Reachable env)
    (fun _ _ _ hs hst => reachable_parseUpdate hs hst)
    (fun _ _ _ hs hst => messagePhase3_congr h hs hst) .start hr

end

end State

end FastParse
