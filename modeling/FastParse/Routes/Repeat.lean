import FastParse.Routes.Dissemination

namespace FastParse

open Framework State

section
variable (env : Env) (m : Mem) (fuel base length : Nat)

/-- `k` calls of `buf_parse`, and the state each of them ends in. -/
def bufParses : Nat → State → Exec (List State)
  | 0, _ => return []
  | k + 1, s => do
    let (_, s) ← bufParse env m fuel s base length
    let rest ← bufParses k s
    return s :: rest

end

def routeContent (s : State) (p : Ptr) : Option (UInt16 × Tiebreak × List UInt8) :=
  if p = null then none
  else
    let r := s.routing.slab.heap p
    some (r.useCount, r.tiebreak, (List.range r.updateLength.toNat).map r.attributes)

/-- Two passes ended alike: the same routes in the slots and as heads, the same index tables,
and the same messages sent. -/
structure SameOutcome (s s' : State) : Prop where
  adjRibIn : ∀ i, routeContent s (s.routing.adjRibIn i) = routeContent s' (s'.routing.adjRibIn i)
  tables : s.tables = s'.tables
  heads : ∀ a, routeContent s (s.routing.head a) = routeContent s' (s'.routing.head a)
  messages : s.routing.egress.tx.written = s'.routing.egress.tx.written

theorem SameOutcome.refl (s : State) : SameOutcome s s := ⟨fun _ => rfl, rfl, fun _ => rfl, rfl⟩

/-- `k` passes after `init` all complete, and each ends as the first one. -/
def PassesIndependent (env : Env) (m : Mem) (fuel base length k : Nat) : Prop :=
  ∃ passes, bufParses env m fuel base length k (init env) = .ok passes ∧
    ∀ first ∈ passes.head?, ∀ s ∈ passes, SameOutcome first s

variable {env : Env}

theorem messageRoute_ready {s s' : State} {msg : Message} {r : Ptr}
    (h : messageRoute env s msg = .ok (r, s')) : s'.locribReady = s.locribReady := by
  cases messageRoute_inv h with
  | inl hc => rw [hc.2.2]
  | inr hc =>
    obtain ⟨slab, tb, _, _, rfl⟩ := hc
    rfl

theorem entries_ready {step : State → Nat × Bool → Exec State}
    (hstep : ∀ s entry s', step s entry = .ok s' → s'.locribReady = s.locribReady)
    {s s' : State} {entries : List (Nat × Bool)} (h : entries.foldlM step s = .ok s') :
    s'.locribReady = s.locribReady :=
  run_keeps (I := fun t => t.locribReady = s.locribReady)
    (fun t entry t' ht hst => (hstep t entry t' hst).trans ht) rfl h

theorem nlriStep_ready (pn : Fin npeers) (route : Ptr) (s : State) (entry : Nat × Bool)
    (s' : State) (h : nlriStep env pn route s entry = .ok s') :
    s'.locribReady = s.locribReady :=
  (nlriStep_form pn route).frame locribReady (fun _ _ => rfl) (fun _ _ _ _ => rfl) h

theorem withdrawStep_ready (pn : Fin npeers) (s : State) (entry : Nat × Bool) (s' : State)
    (h : withdrawStep env pn s entry = .ok s') : s'.locribReady = s.locribReady :=
  (withdrawStep_form pn).frame locribReady (fun _ _ => rfl) (fun _ _ _ _ => rfl) h

theorem parseUpdate_ready {s s' : State} {msg : Message} (h : s.parseUpdate env msg = .ok s') :
    s'.locribReady = s.locribReady := by
  obtain ⟨_, hc⟩ := parseUpdate_cases h
  cases hc with
  | inl hc => rw [hc.2]
  | inr hc =>
    obtain ⟨_, r, s1, s2, hr, ha, hw⟩ := hc
    have hroute := messageRoute_ready hr
    have hroute : s1.locribReady = s.locribReady := hroute
    rw [entries_ready (withdrawStep_ready msg.peer) hw,
      entries_ready (nlriStep_ready msg.peer r) ha, hroute]

theorem messageLoop_ready {m : Mem} {pn : Fin npeers} {limit fuel ptr : Nat} {msgCount n : UInt32}
    {s s' : State} (h : messageLoop env m pn limit fuel ptr msgCount s = .ok (n, s')) :
    s'.locribReady = s.locribReady := by
  induction fuel generalizing ptr msgCount s with
  | zero => simp [messageLoop] at h
  | succ fuel ih =>
    rw [messageLoop] at h
    split_ifs at h
    · rw [assert_bind_ok] at h
      obtain ⟨_, h⟩ := h
      rw [assert_bind_ok, bind_eq_ok] at h
      obtain ⟨_, s1, ht, h⟩ := h
      rw [ih h]
      rw [takeMessage] at ht
      split_ifs at ht
      · exact parseUpdate_ready ht
      · cases ht
        rfl
    · cases h
      rfl

theorem peers_ready {m : Mem} {fuel : Nat} {chunks : List (Fin npeers × Buf)} {n n' : UInt32}
    {s s' : State}
    (h : chunks.foldlM (fun (_, s) (pn, buf) => bufParsePeer env m fuel s pn buf) (n, s) =
      .ok (n', s')) : s'.locribReady = s.locribReady := by
  induction chunks generalizing n s with
  | nil =>
    cases h
    rfl
  | cons chunk chunks ih =>
    rw [List.foldlM_cons, bind_eq_ok] at h
    obtain ⟨⟨n1, s1⟩, h1, h⟩ := h
    rw [ih h]
    exact messageLoop_ready h1

/-- `LOCRIB` is there after a pass, and nothing frees it. -/
theorem bufParse_ready {m : Mem} {fuel base length : Nat} {n : UInt32} {s s' : State}
    (h : bufParse env m fuel s base length = .ok (n, s')) : s'.locribReady = true := by
  rw [bufParse] at h
  obtain ⟨s0, hinit, h⟩ := bind_eq_ok.mp h
  obtain ⟨bufs, _, h⟩ := bind_eq_ok.mp h
  obtain ⟨⟨n1, s1⟩, hpeers, h⟩ := bind_eq_ok.mp h
  obtain ⟨routing, _, h⟩ := bind_eq_ok.mp h
  cases h
  rw [reinit, assert_bind_ok] at hinit
  obtain ⟨_, hinit⟩ := hinit
  cases hinit
  exact peers_ready hpeers

/-- The assertion of `locrib_init` stops every pass after the first. -/
theorem bufParse_again {m : Mem} {fuel base length : Nat} {s : State}
    (h : s.locribReady = true) : bufParse env m fuel s base length = .error .assertion := by
  rw [bufParse, reinit, h]
  rfl

theorem bufParses_again {m : Mem} {fuel base length : Nat} {n : UInt32} {s s' : State}
    (h : bufParse env m fuel s base length = .ok (n, s')) (k : Nat) :
    bufParses env m fuel base length (k + 2) s = .error .assertion := by
  rw [bufParses, h]
  change (do
    let rest ← bufParses env m fuel base length (k + 1) s'
    return s' :: rest) = _
  rw [bufParses, bufParse_again (bufParse_ready h)]
  rfl

/-- On every input whose first pass completes, `k` passes are independent exactly for
`k = 1`. -/
theorem repeated_passes (env : Env) (m : Mem) (fuel base length k : Nat) (hk : 1 ≤ k)
    (h : ∃ n s, bufParse env m fuel (init env) base length = .ok (n, s)) :
    PassesIndependent env m fuel base length k ↔ k = 1 := by
  obtain ⟨n, s, hs⟩ := h
  obtain ⟨k, rfl⟩ : ∃ j, k = j + 1 := ⟨k - 1, by omega⟩
  constructor
  · intro hp
    obtain ⟨passes, hpasses, _⟩ := hp
    cases k with
    | zero => rfl
    | succ k =>
      rw [bufParses_again hs k] at hpasses
      cases hpasses
  · intro e
    have hzero : k = 0 := by omega
    subst hzero
    refine ⟨[s], ?_, ?_⟩
    · rw [bufParses, hs]
      rfl
    · intro first hfirst s' hs'
      cases hfirst
      rw [List.mem_singleton] at hs'
      exact hs' ▸ SameOutcome.refl s

theorem repeated_passes_once :
    PassesIndependent (plainEnv false) (bytesMem threeMessages) 3 0 threeMessages.length 1 := by
  have hr : (bufParse (plainEnv false) (bytesMem threeMessages) 3 (init (plainEnv false)) 0
      threeMessages.length).map (fun _ => ()) = .ok () := by decide +kernel
  obtain ⟨⟨n, s⟩, hs, _⟩ := exists_of_map_eq_ok hr
  exact (repeated_passes (plainEnv false) (bytesMem threeMessages) 3 0 threeMessages.length 1
    (Nat.le_refl 1) ⟨n, s, hs⟩).mpr rfl

/-- The first pass over three messages completes and the second one aborts. -/
theorem second_pass_aborts :
    (∃ n s, bufParse (plainEnv false) (bytesMem threeMessages) 3 (init (plainEnv false)) 0
      threeMessages.length = .ok (n, s)) ∧
    ¬ PassesIndependent (plainEnv false) (bytesMem threeMessages) 3 0 threeMessages.length 2 := by
  have hr : (bufParse (plainEnv false) (bytesMem threeMessages) 3 (init (plainEnv false)) 0
      threeMessages.length).map (fun _ => ()) = .ok () := by decide +kernel
  obtain ⟨⟨n, s⟩, hs, _⟩ := exists_of_map_eq_ok hr
  refine ⟨⟨n, s, hs⟩, ?_⟩
  intro hp
  obtain ⟨passes, hpasses, _⟩ := hp
  rw [bufParses_again hs 0] at hpasses
  cases hpasses

end FastParse
