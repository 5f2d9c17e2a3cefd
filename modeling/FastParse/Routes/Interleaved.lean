import FastParse.Framework.Unwinding
import FastParse.Routes.Twins
import FastParse.Table.Indices

namespace FastParse

open Framework State

/-- The prefixes that a message announces with a route. -/
def Message.routeWords (msg : Message) : List Nat :=
  if msg.HasRoute then words (msg.announced.map Prod.fst) else []

namespace State

/-- A call that keeps its counts, for a prefix that keeps its place. -/
def EntryKept (pn : Fin npeers) (route : Ptr) (s : State) (entry : Nat × Bool) : Prop :=
  EntryOk Routing.KeepsCount pn route s entry ∧ s.tables.KeepsPlace entry.1

/-- The two loops of a message that was not passed over. -/
structure Parsed (env : Env) (s : State) (msg : Message) (s' : State) (r : Ptr) (s1 s2 : State) :
    Prop where
  fits : msg.Fits s
  route : messageRoute env { s with msgCount := s.msgCount + 1 } msg = .ok (r, s1)
  announcedOk : StepsOk (nlriStep env msg.peer r) (EntryKept msg.peer r) s1 msg.announced
  announced : msg.announced.foldlM (nlriStep env msg.peer r) s1 = .ok s2
  withdrawnOk : StepsOk (withdrawStep env msg.peer) (EntryKept msg.peer null) s2 msg.withdrawals
  withdrawn : msg.withdrawals.foldlM (withdrawStep env msg.peer) s2 = .ok s'

end State

def RoutesKept (env : Env) (s : State) (msg : Message) : Prop :=
  CountsKept env s msg ∧ PlacesKept env s msg

instance (env : Env) (s : State) (msg : Message) : Decidable (RoutesKept env s msg) :=
  inferInstanceAs (Decidable (_ ∧ _))

section
variable {env : Env} {pn : Fin npeers} {own : Nat → Prop} {msg : Message}

theorem parseUpdate_parsed {s s' : State} (hok : RoutesKept env s msg)
    (h : s.parseUpdate env msg = .ok s') :
    (0 = msg.nlriLength ∧ 0 = msg.withdrawLength) ∧ s' = s ∨
      ¬ (0 = msg.nlriLength ∧ 0 = msg.withdrawLength) ∧
        ∃ r s1 s2, Parsed env s msg s' r s1 s2 := by
  obtain ⟨_, hc⟩ := parseUpdate_cases h
  cases hc with
  | inl hc => exact .inl hc
  | inr hc =>
    obtain ⟨hskip, r, s1, s2, hr, ha, hw⟩ := hc
    obtain ⟨⟨hfits, hcalls⟩, hplaces⟩ := hok
    simp only [CallsOk, hr, ha] at hcalls
    simp only [PlacesKept, hr, ha] at hplaces
    exact .inr ⟨hskip, r, s1, s2, hfits, hr, stepsOk_and hcalls.1 hplaces.1, ha,
      stepsOk_and hcalls.2 hplaces.2, hw⟩

theorem keepsCount_of_entry {s : State} {route : Ptr} {entry : Nat × Bool} {a : Nat} {t : Bigtable}
    (h : EntryKept pn route s entry) (hl : lookupRib64 s.tables entry.1 = .ok (a, t))
    (ha : tooBig ≠ a) (hmask : a &&& lrIndexMask = a) : s.routing.KeepsCount pn a route := by
  have h := h.1
  simp only [EntryOk, hl] at h
  rw [← hmask]
  exact h ha

/-- Both runs are in the midst of a message of the peer, with `n` calls to come at most. -/
def Together (env : Env) (pn : Fin npeers) (own : Nat → Prop) (r r' : Ptr) (n : Nat)
    (s t : State) : Prop :=
  ∃ cells cells' ρ, s.routing.SoundOn env.slab n r cells ∧
    t.routing.SoundOn env.slab n r' cells' ∧ s.Filing ∧ t.Filing ∧
    Twin env pn own s t cells cells' ρ ∧ Matched ρ null null r r'

/-- One entry: the call for a short prefix, and nothing to speak of for a long one. -/
theorem entry_kept {r : Ptr} {step : State → Nat × Bool → Exec State}
    (hstep : EntryCalls env pn r step ∧ EntryLookup step) {n : Nat} {s s' : State}
    {entry : Nat × Bool} {cells : Fin npeers × Size → List Ptr}
    (hsound : s.routing.SoundOn env.slab (n + 1) r cells) (hf : s.Filing)
    (hok : EntryKept pn r s entry) (hs : step s entry = .ok s') :
    s'.Filing ∧
      (lengthOf entry.1 ≤ 24 ∧ (∃ a, s.CalledAt pn (prefixWord entry.1) r a s' ∧
          s'.routing.SoundOn env.slab n r (s.routing.swapCells pn a cells)) ∨
        ¬ lengthOf entry.1 ≤ 24 ∧ s'.routing.SoundOn env.slab n r cells ∧
          s'.routing = s.routing ∧ s'.slotOf = s.slotOf ∧ s'.headOf = s.headOf) := by
  by_cases hshort : lengthOf entry.1 ≤ 24
  · obtain ⟨hfs, a, hl, ha, hmask, hcall⟩ := entry_short hstep hf hok.2 hshort hs
    refine ⟨hfs, .inl ⟨hshort, a, hcall, ?_⟩⟩
    exact hsound.called (keepsCount_of_entry hok hl ha hmask) hcall.called
  · obtain ⟨hrouting, htables⟩ := entry_long hstep (Nat.lt_of_not_le hshort) hs
    obtain ⟨hfs, hviews⟩ := hf.congr htables (by rw [hrouting]) (by rw [hrouting])
    refine ⟨hfs, .inr ⟨hshort, ?_, hrouting, hviews⟩⟩
    rw [hrouting]
    exact hsound.less

theorem together_entry {r r' : Ptr} {step step' : State → Nat × Bool → Exec State}
    (hstep : EntryCalls env pn r step ∧ EntryLookup step)
    (hstep' : EntryCalls env pn r' step' ∧ EntryLookup step') {n : Nat} {s t s' t' : State}
    {entry : Nat × Bool} (h : Together env pn own r r' (n + 1) s t)
    (hok : EntryKept pn r s entry) (hok' : EntryKept pn r' t entry)
    (hs : step s entry = .ok s') (ht : step' t entry = .ok t') :
    Together env pn own r r' n s' t' := by
  obtain ⟨cells, cells', ρ, hsound, hsound', hf, hf', htwin, hr⟩ := h
  obtain ⟨hfs, hc⟩ := entry_kept hstep hsound hf hok hs
  obtain ⟨hft, hc'⟩ := entry_kept hstep' hsound' hf' hok' ht
  cases hc with
  | inl hc =>
    obtain ⟨hshort, a, hcall, hn⟩ := hc
    obtain ⟨_, b, hcall', hn'⟩ := hc'.resolve_right fun e => e.1 hshort
    exact ⟨_, _, ρ, hn, hn', hfs, hft,
      htwin.called hsound.1.placed hsound'.1.placed hr hcall hcall', hr⟩
  | inr hc =>
    obtain ⟨hlong, hn, hsame⟩ := hc
    obtain ⟨_, hn', hsame'⟩ := hc'.resolve_left fun e => hlong e.1
    exact ⟨cells, cells', ρ, hn, hn', hfs, hft, htwin.same hsame hsame', hr⟩

theorem together_entries {r r' : Ptr} {step step' : State → Nat × Bool → Exec State}
    (hstep : EntryCalls env pn r step ∧ EntryLookup step)
    (hstep' : EntryCalls env pn r' step' ∧ EntryLookup step') {s t s' t' : State}
    {entries : List (Nat × Bool)} (h : Together env pn own r r' entries.length s t)
    (hok : StepsOk step (EntryKept pn r) s entries)
    (hok' : StepsOk step' (EntryKept pn r') t entries) (hs : entries.foldlM step s = .ok s')
    (ht : entries.foldlM step' t = .ok t') : Together env pn own r r' 0 s' t' := by
  refine run_lockstep (R := Together env pn own r r') ?_ h hok hok' hs ht
  intro n s t entry s' t' h ho ho' hst hst'
  exact together_entry hstep hstep' h ho ho' hst hst'

/-- One run is in the midst of a message of another peer. -/
def Apart (env : Env) (pn : Fin npeers) (own : Nat → Prop) (r : Ptr) (n : Nat)
    (s t : State) : Prop :=
  ∃ cells cells' ρ, s.routing.SoundOn env.slab n r cells ∧
    t.routing.SoundOn env.slab 0 null cells' ∧ s.Filing ∧ t.Filing ∧
    Twin env pn own s t cells cells' ρ ∧ ∀ q, ¬ ρ r q

theorem apart_entry {rn : Fin npeers} (hrn : rn ≠ pn) {r : Ptr}
    {step : State → Nat × Bool → Exec State}
    (hstep : EntryCalls env rn r step ∧ EntryLookup step) {n : Nat} {s t s' : State}
    {entry : Nat × Bool} (h : Apart env pn own r (n + 1) s t) (hok : EntryKept rn r s entry)
    (hown : r ≠ null → lengthOf entry.1 ≤ 24 → ¬ own (prefixWord entry.1))
    (hs : step s entry = .ok s') : Apart env pn own r n s' t := by
  obtain ⟨cells, cells', ρ, hsound, hsound', hf, hf', htwin, hr⟩ := h
  obtain ⟨hfs, hc⟩ := entry_kept hstep hsound hf hok hs
  cases hc with
  | inl hc =>
    obtain ⟨hshort, a, hcall, hn⟩ := hc
    exact ⟨_, cells', ρ, hn, hsound', hfs, hf',
      htwin.otherCalled hrn hr (fun hne => hown hne hshort) hcall, hr⟩
  | inr hc =>
    obtain ⟨_, hn, hsame⟩ := hc
    exact ⟨cells, cells', ρ, hn, hsound', hfs, hf', htwin.same hsame ⟨rfl, rfl, rfl⟩, hr⟩

theorem apart_entries {rn : Fin npeers} (hrn : rn ≠ pn) {r : Ptr}
    {step : State → Nat × Bool → Exec State}
    (hstep : EntryCalls env rn r step ∧ EntryLookup step) {s t s' : State}
    {entries : List (Nat × Bool)} (h : Apart env pn own r entries.length s t)
    (hok : StepsOk step (EntryKept rn r) s entries)
    (hown : ∀ entry ∈ entries, r ≠ null → lengthOf entry.1 ≤ 24 → ¬ own (prefixWord entry.1))
    (hs : entries.foldlM step s = .ok s') : Apart env pn own r 0 s' t := by
  have hok := stepsOk_and hok (stepsOk_of_forall (fun entry he _ => hown entry he) s)
  refine run_counted (I := fun n s => Apart env pn own r n s t) ?_ h hok hs
  intro n s entry s' h ho hst
  exact apart_entry hrn hstep h ho.1 ho.2 hst

def Alike (env : Env) (pn : Fin npeers) (own : Nat → Prop) (s t : State) : Prop :=
  ∃ cells cells' ρ, s.routing.SoundOn env.slab 0 null cells ∧
    t.routing.SoundOn env.slab 0 null cells' ∧ s.Filing ∧ t.Filing ∧
    Twin env pn own s t cells cells' ρ

theorem Alike.symm {s t : State} (h : Alike env pn own s t) : Alike env pn own t s := by
  obtain ⟨cells, cells', ρ, hs, ht, hf, hf', htwin⟩ := h
  exact ⟨cells', cells, _, ht, hs, hf', hf, htwin.symm⟩

theorem start_alike (env : Env) (pn : Fin npeers) (own : Nat → Prop) :
    Alike env pn own (start env) (start env) := by
  obtain ⟨cells, hsound⟩ := Routing.sound_iff.mp (start_sound env)
  have hf := start_filing env
  have hempty : ∀ k, cells k = [] := by
    intro k
    have hc := hsound.1.lists.chain k
    cases hl : cells k with
    | nil => rfl
    | cons p l =>
      rw [hl] at hc
      exact absurd hc.1.symm hc.2.1
  have hblank : ∀ f : Nat → Ptr, (∀ i, f i = null) →
      ∀ w, (start env).tables.slots.read null f w = null := by
    intro f hnone w
    rw [SlotTable.read]
    split_ifs
    · exact hnone _
    · rfl
  refine ⟨cells, cells, fun _ _ => False, hsound, hsound, hf, hf, ?_⟩
  refine ⟨fun _ _ _ _ h => h.elim, fun _ _ h => h.elim, fun _ _ h => h.elim,
    fun _ _ h => h.elim, fun _ _ h => h.elim, ?_, ?_, ?_⟩
  · intro z
    rw [hempty]
    exact .nil
  · intro w
    have e := hblank (fun i => (start env).routing.adjRibIn (pn, i)) (fun _ => rfl) w
    exact .inl ⟨e, e⟩
  · intro w _
    have e := hblank (start env).routing.head (fun _ => rfl) w
    exact .inl ⟨e, e⟩

theorem Together.alike {r r' : Ptr} {n : Nat} {s t : State}
    (h : Together env pn own r r' n s t) : Alike env pn own s t := by
  obtain ⟨cells, cells', ρ, hsound, hsound', hf, hf', htwin, _⟩ := h
  exact ⟨cells, cells', ρ, hsound.drop, hsound'.drop, hf, hf', htwin⟩

theorem Apart.alike {r : Ptr} {n : Nat} {s t : State} (h : Apart env pn own r n s t) :
    Alike env pn own s t := by
  obtain ⟨cells, cells', ρ, hsound, hsound', hf, hf', htwin, _⟩ := h
  exact ⟨cells, cells', ρ, hsound.drop, hsound', hf, hf', htwin⟩

theorem Alike.together {s t : State} (h : Alike env pn own s t) (n : Nat) :
    Together env pn own null null n s t := by
  obtain ⟨cells, cells', ρ, hsound, hsound', hf, hf', htwin⟩ := h
  exact ⟨cells, cells', ρ, hsound.drop, hsound'.drop, hf, hf', htwin, .inl ⟨rfl, rfl⟩⟩

theorem Alike.apart {s t : State} (h : Alike env pn own s t) (n : Nat) :
    Apart env pn own null n s t := by
  obtain ⟨cells, cells', ρ, hsound, hsound', hf, hf', htwin⟩ := h
  exact ⟨cells, cells', ρ, hsound.drop, hsound', hf, hf', htwin,
    fun q hq => (htwin.ne_null null q hq).1 rfl⟩

/-- The number of messages received is not part of it. -/
theorem Alike.counted {s t : State} (h : Alike env pn own s t) (n : Nat) :
    Alike env pn own { s with msgCount := n } t := by
  obtain ⟨cells, cells', ρ, hsound, hsound', hf, hf', htwin⟩ := h
  exact ⟨cells, cells', ρ, hsound, hsound', hf.counted n, hf', htwin.counted n⟩

/-- Both runs get a route for the same message of the peer, or neither. -/
theorem Alike.together_start {s t s' t' s1 s2 t1 t2 : State} {r r' : Ptr}
    (h : Alike env msg.peer own s t) (hparse : Parsed env s msg s' r s1 s2)
    (hparse' : Parsed env t msg t' r' t1 t2) :
    Together env msg.peer own r r' msg.announced.length s1 t1 := by
  have h := ((h.counted (s.msgCount + 1)).symm.counted (t.msgCount + 1)).symm
  by_cases hroute : msg.HasRoute
  · obtain ⟨cells, cells', ρ, hsound, hsound', hf, hf', htwin⟩ := h
    obtain ⟨cells₁, hn, hr⟩ := messageRoute_taken hsound hparse.fits hroute hparse.route
    obtain ⟨cells₁', hn', hr'⟩ := messageRoute_taken hsound' hparse'.fits hroute hparse'.route
    obtain ⟨ρ', htwin', hpair⟩ := htwin.taken rfl hsound.1.placed hsound'.1.placed hr hr'
    have hle := announced_length msg
    exact ⟨cells₁, cells₁', ρ', hn.room hle, hn'.room hle, hr.filing hf, hr'.filing hf', htwin',
      .inr hpair⟩
  · obtain ⟨rfl, rfl⟩ := messageRoute_none hroute hparse.route
    obtain ⟨rfl, rfl⟩ := messageRoute_none hroute hparse'.route
    exact h.together _

theorem Alike.ownMessage {s t s' t' : State} (h : Alike env pn own s t) (hm : msg.peer = pn)
    (hok : RoutesKept env s msg) (hok' : RoutesKept env t msg)
    (hs : s.parseUpdate env msg = .ok s') (ht : t.parseUpdate env msg = .ok t') :
    Alike env pn own s' t' := by
  subst hm
  cases parseUpdate_parsed hok hs with
  | inl hc =>
    obtain ⟨hskip, rfl⟩ := hc
    obtain ⟨_, rfl⟩ := (parseUpdate_parsed hok' ht).resolve_right fun e => e.1 hskip
    exact h
  | inr hc =>
    obtain ⟨hskip, r, s1, s2, hparse⟩ := hc
    obtain ⟨_, r', t1, t2, hparse'⟩ :=
      (parseUpdate_parsed hok' ht).resolve_left fun e => hskip e.1
    have hstart := h.together_start hparse hparse'
    have hannounced := together_entries (nlriStep_entry msg.peer r) (nlriStep_entry msg.peer r')
      hstart hparse.announcedOk hparse'.announcedOk hparse.announced hparse'.announced
    have hwithdrawn := together_entries (withdrawStep_entry msg.peer)
      (withdrawStep_entry msg.peer) (hannounced.alike.together _) hparse.withdrawnOk
      hparse'.withdrawnOk hparse.withdrawn hparse'.withdrawn
    exact hwithdrawn.alike

theorem not_own_of_entry {entry : Nat × Bool} (hroute : msg.HasRoute)
    (hwords : ∀ w ∈ msg.routeWords, ¬ own w) (he : entry ∈ msg.announced)
    (hshort : lengthOf entry.1 ≤ 24) : ¬ own (prefixWord entry.1) := by
  apply hwords
  rw [Message.routeWords, if_pos hroute, words, List.mem_map]
  refine ⟨entry.1, ?_, rfl⟩
  rw [List.mem_filter]
  exact ⟨List.mem_map_of_mem he, by simpa using hshort⟩

/-- One run gets a route for a message of another peer. -/
theorem Alike.apart_start {s t s' s1 s2 : State} {r : Ptr} (h : Alike env pn own s t)
    (hm : msg.peer ≠ pn) (hparse : Parsed env s msg s' r s1 s2) :
    Apart env pn own r msg.announced.length s1 t ∧ (r ≠ null → msg.HasRoute) := by
  have h := h.counted (s.msgCount + 1)
  by_cases hroute : msg.HasRoute
  · obtain ⟨cells, cells', ρ, hsound, hsound', hf, hf', htwin⟩ := h
    obtain ⟨cells₁, hn, hr⟩ := messageRoute_taken hsound hparse.fits hroute hparse.route
    obtain ⟨htwin', hnew⟩ := htwin.otherTaken hm hr
    exact ⟨⟨cells₁, cells', ρ, hn.room (announced_length msg), hsound', hr.filing hf, hf',
      htwin', hnew⟩, fun _ => hroute⟩
  · obtain ⟨rfl, rfl⟩ := messageRoute_none hroute hparse.route
    exact ⟨h.apart _, fun hne => absurd rfl hne⟩

/-- One run takes a message of another peer that announces none of the prefixes. -/
theorem Alike.otherMessage {s t s' : State} (h : Alike env pn own s t) (hm : msg.peer ≠ pn)
    (hok : RoutesKept env s msg) (hwords : ∀ w ∈ msg.routeWords, ¬ own w)
    (hs : s.parseUpdate env msg = .ok s') : Alike env pn own s' t := by
  cases parseUpdate_parsed hok hs with
  | inl hc =>
    obtain ⟨_, rfl⟩ := hc
    exact h
  | inr hc =>
    obtain ⟨_, r, s1, s2, hparse⟩ := hc
    obtain ⟨hstart, hroute⟩ := h.apart_start hm hparse
    have hannounced := apart_entries hm (nlriStep_entry msg.peer r) hstart hparse.announcedOk
      (fun entry he hne => not_own_of_entry (hroute hne) hwords he) hparse.announced
    have hwithdrawn := apart_entries hm (withdrawStep_entry msg.peer)
      (hannounced.alike.apart _) hparse.withdrawnOk (fun _ _ hne => absurd rfl hne)
      hparse.withdrawn
    exact hwithdrawn.alike

/-- The peer has the same view of two runs in which its messages come in the same order and
nobody else announces its prefixes. -/
theorem alike_unwinds (env : Env) (pn : Fin npeers) (own : Nat → Prop) :
    Unwinds (parseUpdate env)
      (fun s msg => RoutesKept env s msg ∧ (msg.peer ≠ pn → ∀ w ∈ msg.routeWords, ¬ own w))
      (fun msg => msg.peer = pn) (Alike env pn own) where
  symm := fun _ _ h => h.symm
  own := fun _ _ _ _ _ h hm ho ho' hs ht => h.ownMessage hm ho.1 ho'.1 hs ht
  other := fun _ _ _ _ h hm ho hs => h.otherMessage hm ho.1 (ho.2 hm) hs

end

end FastParse
