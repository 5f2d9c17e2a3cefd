import FastParse.Update.Calls

namespace FastParse

open Framework

/-- A condition on a call: the tables before it, the peer, the index and the route. -/
abbrev CallCond := Routing → Fin npeers → Nat → Ptr → Prop

theorem eob_index (x : Nat) : (x ||| lrEob) &&& lrIndexMask = x &&& lrIndexMask := by
  rw [Nat.and_or_distrib_right]
  have h : lrEob &&& lrIndexMask = 0 := by decide
  rw [h, Nat.or_zero]

/-- The record of a message's route, in a buffer that held `attributes`. -/
def Message.stored (msg : Message) (unique : Nat) (tb : Tiebreak) (attributes : Mem) : Route :=
  ⟨unique, 0, msg.pathattributesLength, tb,
    memcpy attributes 0 msg.mem msg.pathAttributes msg.pathattributesLength.toNat⟩

namespace State

/-- The call an entry leads to, if any, meets the condition. -/
def EntryOk (ok : CallCond) (pn : Fin npeers) (route : Ptr) (s : State) (entry : Nat × Bool) :
    Prop :=
  match lookupRib64 s.tables entry.1 with
  | .ok (addrref, _) => tooBig ≠ addrref → ok s.routing pn (addrref &&& lrIndexMask) route
  | .error _ => True

def CallsOk (env : Env) (ok : CallCond) (s : State) (msg : Message) : Prop :=
  match messageRoute env { s with msgCount := s.msgCount + 1 } msg with
  | .error _ => True
  | .ok (route, s1) =>
    StepsOk (nlriStep env msg.peer route) (EntryOk ok msg.peer route) s1 msg.announced ∧
    match msg.announced.foldlM (nlriStep env msg.peer route) s1 with
    | .error _ => True
    | .ok s2 =>
      StepsOk (withdrawStep env msg.peer) (EntryOk ok msg.peer null) s2 msg.withdrawals

theorem callsOk_true (env : Env) (s : State) (msg : Message) :
    CallsOk env (fun _ _ _ _ => True) s msg := by
  have entry (pn : Fin npeers) (route : Ptr) :
      EntryOk (fun _ _ _ _ => True) pn route = fun _ _ => True := by
    funext s e
    simp only [EntryOk, implies_true]
    split <;> rfl
  simp only [CallsOk, entry]
  split
  · trivial
  · refine ⟨stepsOk_true _ _ _, ?_⟩
    split
    · trivial
    · exact stepsOk_true _ _ _

section
variable (ok : CallCond) [∀ s pn a route, Decidable (ok s pn a route)]

instance (pn : Fin npeers) (route : Ptr) (s : State) (entry : Nat × Bool) :
    Decidable (EntryOk ok pn route s entry) := by
  unfold EntryOk
  split <;> infer_instance

instance (env : Env) (s : State) (msg : Message) : Decidable (CallsOk env ok s msg) := by
  unfold CallsOk
  split
  · infer_instance
  · refine @instDecidableAnd _ _ inferInstance ?_
    split <;> infer_instance

end

section
variable {env : Env}

/-- A message without attributes or without NLRI gets no route; for any other its attributes are
parsed and a buffer from `alloc` is filled in. -/
theorem messageRoute_inv {s s' : State} {msg : Message} {r : Ptr}
    (h : messageRoute env s msg = .ok (r, s')) :
    ¬ (msg.pathattributesLength ≠ 0 ∧ msg.nlriLength ≠ 0) ∧ r = null ∧ s' = s ∨
    ∃ slab tb, s.routing.slab.alloc env.slab msg.peer (msg.length.toNat + sizeofRoute) =
        .ok (r, slab) ∧
      parseAttributes msg.mem msg.pathAttributes msg.pathattributesLength
        (phase1 (peers msg.peer) ⟨0, 0, 0, 0, 0, 0, 0, 0⟩) = .ok tb ∧
      s' = { s with
        routing := { s.routing with
          slab := slab.setRoute r (msg.stored s.unique tb (slab.heap r).attributes) }
        unique := (s.unique + 1) % 2 ^ 64 } := by
  rw [messageRoute] at h
  split_ifs at h with hm
  · right
    rw [newRoute, bind_eq_ok] at h
    obtain ⟨⟨r1, slab⟩, ha, h⟩ := h
    obtain ⟨tb, htb, h⟩ := bind_eq_ok.mp h
    cases h
    exact ⟨slab, tb, ha, htb, rfl⟩
  · cases h
    exact .inl ⟨hm, rfl, rfl⟩

theorem messageRoute_cases {s s' : State} {msg : Message} {r : Ptr}
    (h : messageRoute env s msg = .ok (r, s')) :
    r = null ∧ s' = s ∨
    ∃ slab, s.routing.slab.alloc env.slab msg.peer (msg.length.toNat + sizeofRoute) =
        .ok (r, slab) ∧
      ∃ rec : Route, rec.useCount = 0 ∧
        s'.routing = { s.routing with slab := slab.setRoute r rec } := by
  cases messageRoute_inv h with
  | inl hc => exact .inl hc.2
  | inr hc =>
    obtain ⟨slab, tb, ha, _, rfl⟩ := hc
    exact .inr ⟨slab, ha, _, rfl, rfl⟩

/-- An entry either is passed over or is one call of `update_adj_rib_in`. -/
def EntryStep (env : Env) (pn : Fin npeers) (route : Ptr)
    (step : State → Nat × Bool → Exec State) : Prop :=
  ∀ s entry s', step s entry = .ok s' →
    ∃ addrref t, lookupRib64 s.tables entry.1 = .ok (addrref, t) ∧
      (tooBig = addrref ∧ s'.routing = s.routing ∨
        tooBig ≠ addrref ∧ ∃ x, x &&& lrIndexMask = addrref &&& lrIndexMask ∧
          s.routing.updateAdjRibIn env t pn x route = .ok s'.routing)

theorem entry_index (entry : Nat × Bool) (addrref : Nat) :
    (if entry.2 = true then addrref ||| lrEob else addrref) &&& lrIndexMask =
      addrref &&& lrIndexMask := by
  split_ifs
  · exact eob_index addrref
  · rfl

/-- The same with the index as it is handed on, the flag of the last entry included. -/
def EntryCalls (env : Env) (pn : Fin npeers) (route : Ptr)
    (step : State → Nat × Bool → Exec State) : Prop :=
  ∀ s entry s', step s entry = .ok s' →
    ∃ addrref t, lookupRib64 s.tables entry.1 = .ok (addrref, t) ∧
      (tooBig = addrref ∧ s'.routing = s.routing ∨
        tooBig ≠ addrref ∧ s.routing.updateAdjRibIn env t pn
          (if entry.2 then addrref ||| lrEob else addrref) route = .ok s'.routing)

theorem EntryCalls.entryStep {pn : Fin npeers} {route : Ptr}
    {step : State → Nat × Bool → Exec State} (h : EntryCalls env pn route step) :
    EntryStep env pn route step := by
  intro s entry s' hs
  obtain ⟨addrref, t, hl, hc⟩ := h s entry s' hs
  refine ⟨addrref, t, hl, ?_⟩
  cases hc with
  | inl hc => exact .inl hc
  | inr hc => exact .inr ⟨hc.1, _, entry_index entry addrref, hc.2⟩

def EntryLookup (step : State → Nat × Bool → Exec State) : Prop :=
  ∀ s entry s', step s entry = .ok s' →
    ∃ addrref, lookupRib64 s.tables entry.1 = .ok (addrref, s'.tables)

/-- A round of both loops: look the prefix up, pass over a long one and call
`update_adj_rib_in` for any other. They differ in the counters they keep. -/
def EntryForm (env : Env) (pn : Fin npeers) (route : Ptr) (pass : State → Bigtable → State)
    (done : State → Nat × Bool → Bigtable → Routing → State)
    (step : State → Nat × Bool → Exec State) : Prop :=
  ∀ s entry, step s entry = do
    let (addrref, t) ← lookupRib64 s.tables entry.1
    if tooBig = addrref then return pass s t
    else
      let r ← s.routing.updateAdjRibIn env t pn (if entry.2 then addrref ||| lrEob else addrref)
        route
      return done s entry t r

section
variable {pn : Fin npeers} {route : Ptr} {pass : State → Bigtable → State}
  {done : State → Nat × Bool → Bigtable → Routing → State}
  {step : State → Nat × Bool → Exec State} {s s' : State} {entry : Nat × Bool}

theorem EntryForm.cases (hform : EntryForm env pn route pass done step)
    (h : step s entry = .ok s') :
    ∃ addrref t, lookupRib64 s.tables entry.1 = .ok (addrref, t) ∧
      (tooBig = addrref ∧ s' = pass s t ∨
        tooBig ≠ addrref ∧ ∃ r, s.routing.updateAdjRibIn env t pn
          (if entry.2 then addrref ||| lrEob else addrref) route = .ok r ∧
          s' = done s entry t r) := by
  rw [hform, bind_eq_ok] at h
  obtain ⟨⟨addrref, t⟩, hl, h⟩ := h
  refine ⟨addrref, t, hl, ?_⟩
  by_cases hb : tooBig = addrref
  · simp only [if_pos hb] at h
    cases h
    exact .inl ⟨hb, rfl⟩
  · simp only [if_neg hb, bind_eq_ok] at h
    obtain ⟨r, hu, h⟩ := h
    cases h
    exact .inr ⟨hb, r, hu, rfl⟩

theorem EntryForm.frame {τ : Type} (hform : EntryForm env pn route pass done step)
    (f : State → τ) (hpass : ∀ s t, f (pass s t) = f s)
    (hdone : ∀ s entry t r, f (done s entry t r) = f s) (h : step s entry = .ok s') :
    f s' = f s := by
  obtain ⟨addrref, t, _, hc⟩ := hform.cases h
  cases hc with
  | inl hc =>
    rw [hc.2]
    exact hpass s t
  | inr hc =>
    obtain ⟨_, r, _, e⟩ := hc
    rw [e]
    exact hdone s entry t r

theorem EntryForm.calls (hform : EntryForm env pn route pass done step)
    (hpass : ∀ s t, (pass s t).routing = s.routing ∧ (pass s t).tables = t)
    (hdone : ∀ s entry t r, (done s entry t r).routing = r ∧ (done s entry t r).tables = t) :
    EntryCalls env pn route step ∧ EntryLookup step := by
  constructor
  · intro s entry s' h
    obtain ⟨addrref, t, hl, hc⟩ := hform.cases h
    refine ⟨addrref, t, hl, ?_⟩
    cases hc with
    | inl hc =>
      rw [hc.2]
      exact .inl ⟨hc.1, (hpass s t).1⟩
    | inr hc =>
      obtain ⟨hb, r, hu, e⟩ := hc
      rw [e, (hdone s entry t r).1]
      exact .inr ⟨hb, hu⟩
  · intro s entry s' h
    obtain ⟨addrref, t, hl, hc⟩ := hform.cases h
    have htables : s'.tables = t := by
      cases hc with
      | inl hc =>
        rw [hc.2]
        exact (hpass s t).2
      | inr hc =>
        obtain ⟨_, r, _, e⟩ := hc
        rw [e]
        exact (hdone s entry t r).2
    exact ⟨addrref, htables ▸ hl⟩

end

theorem nlriStep_form (pn : Fin npeers) (route : Ptr) :
    EntryForm env pn route (fun s t => { s with tables := t, tooLong := s.tooLong + 1 })
      (fun s entry t r => { s with
        routing := r
        tables := t
        updates := if entry.2 then s.updates + 1 else s.updates
        updatePrefixes := s.updatePrefixes + 1 })
      (nlriStep env pn route) := fun _ _ => rfl

theorem withdrawStep_form (pn : Fin npeers) :
    EntryForm env pn null (fun s t => { s with tables := t, tooLong := s.tooLong + 1 })
      (fun s _ t r => { s with routing := r, tables := t }) (withdrawStep env pn) :=
  fun _ _ => rfl

theorem nlriStep_entry (pn : Fin npeers) (route : Ptr) :
    EntryCalls env pn route (nlriStep env pn route) ∧ EntryLookup (nlriStep env pn route) :=
  (nlriStep_form pn route).calls (fun _ _ => ⟨rfl, rfl⟩) (fun _ _ _ _ => ⟨rfl, rfl⟩)

theorem withdrawStep_entry (pn : Fin npeers) :
    EntryCalls env pn null (withdrawStep env pn) ∧ EntryLookup (withdrawStep env pn) :=
  (withdrawStep_form pn).calls (fun _ _ => ⟨rfl, rfl⟩) (fun _ _ _ _ => ⟨rfl, rfl⟩)

theorem nlriStep_entryCalls (pn : Fin npeers) (route : Ptr) :
    EntryCalls env pn route (nlriStep env pn route) := (nlriStep_entry pn route).1

theorem withdrawStep_entryCalls (pn : Fin npeers) :
    EntryCalls env pn null (withdrawStep env pn) := (withdrawStep_entry pn).1

theorem nlriStep_entryStep (pn : Fin npeers) (route : Ptr) :
    EntryStep env pn route (nlriStep env pn route) := (nlriStep_entryCalls pn route).entryStep

theorem withdrawStep_entryStep (pn : Fin npeers) :
    EntryStep env pn null (withdrawStep env pn) := (withdrawStep_entryCalls pn).entryStep

/-- An invariant that may depend on how many entries are still to come. -/
theorem entries_keep {I : Nat → Routing → Prop} {ok : CallCond} {pn : Fin npeers} {route : Ptr}
    {step : State → Nat × Bool → Exec State} (hstep : EntryStep env pn route step)
    (less : ∀ n s, I (n + 1) s → I n s)
    (call : ∀ n t s s' x, I (n + 1) s → ok s pn (x &&& lrIndexMask) route →
      s.updateAdjRibIn env t pn x route = .ok s' → I n s')
    {entries : List (Nat × Bool)} {s s' : State} (hs : I entries.length s.routing)
    (hok : StepsOk step (EntryOk ok pn route) s entries)
    (h : entries.foldlM step s = .ok s') : I 0 s'.routing := by
  refine run_counted (I := fun n s => I n s.routing) ?_ hs hok h
  intro n s entry u hs hentry hu
  obtain ⟨addrref, t, hl, hc⟩ := hstep s entry u hu
  cases hc with
  | inl hc =>
    rw [hc.2]
    exact less n _ hs
  | inr hc =>
    obtain ⟨hb, x, hx, hcall⟩ := hc
    have hcond : ok s.routing pn (addrref &&& lrIndexMask) route := by
      simpa [EntryOk, hl, hb] using hentry
    exact call n t _ _ x hs (hx ▸ hcond) hcall

/-- The section is at most 65535 bytes long, and every entry takes one of them. -/
theorem announced_length (msg : Message) : msg.announced.length ≤ 65535 := by
  have h := nlriWalk_length msg.mem msg.nlri (msg.nlri + msg.nlriLength.toNat)
  have hlt := msg.nlriLength.toNat_lt
  rw [Message.announced]
  omega

private theorem keep_fewer {P : Nat → Prop} (less : ∀ n, P (n + 1) → P n) {m n : Nat}
    (hmn : m ≤ n) (h : P n) : P m := by
  induction hmn with
  | refl => exact h
  | step _ ih => exact ih (less _ h)

/-- Everything `parse_update` can do: pass over an empty message, or a route and two loops. -/
theorem parseUpdate_cases {s s' : State} {msg : Message} (h : s.parseUpdate env msg = .ok s') :
    4097 > msg.length ∧
      ((0 = msg.nlriLength ∧ 0 = msg.withdrawLength) ∧ s' = s ∨
        ¬ (0 = msg.nlriLength ∧ 0 = msg.withdrawLength) ∧ ∃ r s1 s2,
          messageRoute env { s with msgCount := s.msgCount + 1 } msg = .ok (r, s1) ∧
          msg.announced.foldlM (nlriStep env msg.peer r) s1 = .ok s2 ∧
          msg.withdrawals.foldlM (withdrawStep env msg.peer) s2 = .ok s') := by
  rw [parseUpdate, assert_bind_ok] at h
  obtain ⟨hlen, h⟩ := h
  refine ⟨hlen, ?_⟩
  split_ifs at h with hskip
  · cases h
    exact .inl ⟨hskip, rfl⟩
  · rw [bind_eq_ok] at h
    obtain ⟨⟨r, s1⟩, hr, h⟩ := h
    rw [bind_eq_ok] at h
    obtain ⟨s2, ha, hw⟩ := h
    exact .inr ⟨hskip, r, s1, s2, hr, ha, hw⟩

/-- The rule for messages. `I n route` is the invariant while `route` is the route of the
message in progress and at most `n` of its entries are still to come. -/
theorem parseUpdate_keeps {I : Nat → Ptr → Routing → Prop} {ok : CallCond} {msg : Message}
    (less : ∀ n route s, I (n + 1) route s → I n route s)
    (drop : ∀ m n route s, I n route s → I m null s)
    (call : ∀ n t r s s' x, I (n + 1) r s → ok s msg.peer (x &&& lrIndexMask) r →
      s.updateAdjRibIn env t msg.peer x r = .ok s' → I n r s')
    {s s' : State} (hs : I 0 null s.routing)
    (route : ∀ r s1, messageRoute env { s with msgCount := s.msgCount + 1 } msg = .ok (r, s1) →
      I 65535 r s1.routing)
    (hok : CallsOk env ok s msg) (h : s.parseUpdate env msg = .ok s') :
    I 0 null s'.routing := by
  obtain ⟨_, hc⟩ := parseUpdate_cases h
  cases hc with
  | inl hc =>
    rw [hc.2]
    exact hs
  | inr hc =>
    obtain ⟨_, r, s1, s2, hr, ha, hw⟩ := hc
    simp only [CallsOk, hr, ha] at hok
    have h1 : I msg.announced.length r s1.routing :=
      keep_fewer (P := fun n => I n r s1.routing) (fun n => less n r _) (announced_length msg)
        (route r s1 hr)
    have h2 : I 0 r s2.routing :=
      entries_keep (I := fun n => I n r) (nlriStep_entryStep msg.peer r) (fun n => less n r)
        (fun n t => call n t r) h1 hok.1 ha
    have h3 : I msg.withdrawals.length null s2.routing := drop _ 0 r _ h2
    exact entries_keep (I := fun n => I n null) (withdrawStep_entryStep msg.peer)
      (fun n => less n null) (fun n t => call n t null) h3 hok.2 hw

end

end State

def bytesMem (bytes : List UInt8) : Mem := fun i => bytes.getD i 0

def lengthBytes (bytes : List UInt8) : List UInt8 :=
  [UInt8.ofNat (bytes.length / 256), UInt8.ofNat bytes.length]

def updateBody (withdrawn attributes nlri : List UInt8) : List UInt8 :=
  lengthBytes withdrawn ++ withdrawn ++ lengthBytes attributes ++ attributes ++ nlri

def updateMessage (pn : Fin npeers) (withdrawn attributes nlri : List UInt8) : Message :=
  let body := updateBody withdrawn attributes nlri
  ⟨pn, bytesMem body, 0, UInt16.ofNat body.length⟩

/-- The default build writing to no file, its slab mapped at `2^46`. -/
def plainEnv (junk : Bool) : Env :=
  ⟨2 ^ 46, by decide, by decide, fun _ => junk, ⟨peergroups, fun _ => true⟩, 0, 0⟩

/-- ORIGIN, an AS_PATH of one AS, NEXT_HOP. -/
def plainAttributes (origin as : UInt8) : List UInt8 :=
  [0x40, 1, 1, origin] ++ [0x40, 2, 6, 2, 1, 0, 0, 0, as] ++ [0x40, 3, 4, 10, 0, 0, 1]

end FastParse
