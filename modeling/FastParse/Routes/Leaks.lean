import FastParse.Routes.Contents

namespace FastParse

open Framework State

namespace Routing

/-- Every buffer that `alloc` has taken from a pool can be reached on a cache line or from a
slot. -/
def NoLeak (slab : Ptr) (s : Routing) : Prop :=
  ∀ p, s.slab.Carved slab p →
    (∃ pn z, Linked s.slab.link null (s.slab.cache pn z).free p) ∨ ∃ i, s.adjRibIn i = p

/-- The same with the lists made explicit, and but for the route of the message in progress. -/
def Held (slab : Ptr) (cells : Fin npeers × Size → List Ptr) (s : Routing) (route : Ptr) : Prop :=
  ∀ p, s.slab.Carved slab p → (∃ k, p ∈ cells k) ∨ (∃ i, s.adjRibIn i = p) ∨ p = route

/-- The buffer can be reached from nowhere. -/
structure Lost (slab : Ptr) (cells : Fin npeers × Size → List Ptr) (s : Routing) (p : Ptr) :
    Prop where
  carved : s.slab.Carved slab p
  notFree : ∀ k, p ∉ cells k
  notHeld : ∀ i, s.adjRibIn i ≠ p

section
variable {slab : Nat} {n : Nat} {s s' : Routing} {route p : Ptr} {pn : Fin npeers} {a : Nat}
  {cells : Fin npeers × Size → List Ptr}

theorem carved_ne_null (hslab : 0 < slab) (h : s.slab.Carved slab p) : p ≠ null := by
  obtain ⟨z, i, _, rfl⟩ := h
  have hle : slab ≤ bufferAt slab z i := by
    cases z with
    | small =>
      rw [bufferAt_small]
      omega
    | large =>
      rw [bufferAt_large]
      omega
  change @Ne Nat _ 0
  omega

theorem SoundOn.noLeak_iff (hslab : 0 < slab) (h : s.SoundOn slab n route cells) :
    s.NoLeak slab ↔ s.Held slab cells null := by
  apply forall_congr'
  intro p
  apply imp_congr_right
  intro hp
  have hne := carved_ne_null hslab hp
  have hlist : (∃ pn z, Linked s.slab.link null (s.slab.cache pn z).free p) ↔
      ∃ k, p ∈ cells k := by
    simp only [← h.1.lists.linked_iff, Prod.exists]
  rw [hlist]
  simp [hne]

theorem Lost.leaks (hs : s.SoundOn slab n route cells) (hslab : 0 < slab)
    (h : s.Lost slab cells p) : ¬ s.NoLeak slab := by
  rw [hs.noLeak_iff hslab]
  intro hheld
  cases hheld p h.carved with
  | inl hfree =>
    obtain ⟨k, hk⟩ := hfree
    exact h.notFree k hk
  | inr hrest =>
    cases hrest with
    | inl hslot =>
      obtain ⟨i, hi⟩ := hslot
      exact h.notHeld i hi
    | inr hnull => exact carved_ne_null hslab h.carved hnull

theorem Held.weaken (hslab : 0 < slab) (h : s.Held slab cells null) (route : Ptr) :
    s.Held slab cells route := by
  intro p hp
  cases h p hp with
  | inl hfree => exact .inl hfree
  | inr hrest => exact .inr (.inl (hrest.resolve_right (carved_ne_null hslab hp)))

theorem mem_swapCells (hp : ∃ k, p ∈ cells k) : ∃ k, p ∈ s.swapCells pn a cells k := by
  obtain ⟨k, hk⟩ := hp
  refine ⟨k, ?_⟩
  rw [swapCells, Counted.releaseCells]
  split_ifs
  · rw [Counted.onLine]
    by_cases e : k = (pn, s.slab.sizeClass (s.adjRibIn (pn, a)))
    · subst e
      rw [Function.update_self]
      exact List.mem_cons_of_mem _ hk
    · rw [Function.update_of_ne e]
      exact hk
  · exact hk
  · exact hk

/-- The route that leaves a slot goes to a line with its last reference, and is in another slot
before that. -/
theorem SoundOn.swapped_out (h : s.SoundOn slab n route cells) (hold : s.adjRibIn (pn, a) ≠ null) :
    (∃ k, s.adjRibIn (pn, a) ∈ s.swapCells pn a cells k) ∨
      ∃ i, Function.update s.adjRibIn (pn, a) route i = s.adjRibIn (pn, a) := by
  by_cases hone : (s.slab.heap (s.adjRibIn (pn, a))).useCount = 1
  · left
    refine ⟨(pn, s.slab.sizeClass (s.adjRibIn (pn, a))), ?_⟩
    rw [swapCells, if_pos hold, Counted.releaseCells, if_pos hone, Counted.onLine,
      Function.update_self]
    exact List.mem_cons_self
  · right
    by_contra hnone
    have hzero : refs (Function.update s.adjRibIn (pn, a) route) (s.adjRibIn (pn, a)) = 0 :=
      refs_eq_zero.mpr (not_exists.mp hnone)
    have hne : route ≠ s.adjRibIn (pn, a) := by
      intro e
      apply hnone
      exact ⟨(pn, a), by rw [Function.update_self, e]⟩
    have hcount := h.1.counts _ hold
    rw [← refs_update_old s.adjRibIn (pn, a) hne, hzero, if_neg hold, Nat.add_zero, zero_add]
      at hcount
    apply hone
    apply UInt16.toNat_inj.mp
    exact_mod_cast hcount.symm

/-- A call puts the route of its message into a slot. -/
theorem Held.called (hslab : 0 < slab) (hs : s.SoundOn slab n route cells)
    (h : s.Held slab cells route) (hd : s.Called pn a route s') :
    s'.Held slab (s.swapCells pn a cells) null := by
  intro p hp
  have hcarved : s.slab.Carved slab p := by
    rw [Slab.Carved, ← hd.pools]
    exact hp
  rw [hd.adjRibIn]
  cases h p hcarved with
  | inl hfree => exact .inl (mem_swapCells hfree)
  | inr hrest =>
    cases hrest with
    | inl hslot =>
      obtain ⟨i, rfl⟩ := hslot
      by_cases e : i = (pn, a)
      · subst e
        cases hs.swapped_out (carved_ne_null hslab hcarved) with
        | inl hfree => exact .inl hfree
        | inr hkept => exact .inr (.inl hkept)
      · exact .inr (.inl ⟨i, Function.update_of_ne e _ _⟩)
    | inr hcur =>
      rw [hcur]
      exact .inr (.inl ⟨(pn, a), Function.update_self _ _ _⟩)

/-- Nothing finds a lost buffer again but a call that stores it. -/
theorem Lost.called (h : s.Lost slab cells p) (hne : route ≠ p) (hd : s.Called pn a route s') :
    s'.Lost slab (s.swapCells pn a cells) p := by
  refine ⟨?_, ?_, ?_⟩
  · rw [Slab.Carved, hd.pools]
    exact h.carved
  · intro k hk
    rw [swapCells, Counted.releaseCells] at hk
    split_ifs at hk
    · cases FreeLists.mem_push hk with
      | inl e => exact h.notHeld (pn, a) e.1.symm
      | inr hk => exact h.notFree k hk
    · exact h.notFree k hk
    · exact h.notFree k hk
  · intro i
    rw [hd.adjRibIn]
    by_cases e : i = (pn, a)
    · rw [e, Function.update_self]
      exact hne
    · rw [Function.update_of_ne e]
      exact h.notHeld i

end

end Routing

def Message.AnnouncesShort (msg : Message) : Prop := ∃ entry ∈ msg.announced, lengthOf entry.1 ≤ 24

instance (msg : Message) : Decidable msg.AnnouncesShort := inferInstanceAs (Decidable (∃ _ ∈ _, _))

theorem lookupRib64_next_le {t t' : Bigtable} {la a : Nat} (h : lookupRib64 t la = .ok (a, t')) :
    t.bigtableIndex ≤ t'.bigtableIndex := by
  by_cases hshort : lengthOf la ≤ 24
  · rw [lookupRib64_short _ hshort] at h
    cases h
    exact SlotTable.next_le_lookup t.slots (prefixWord la)
  · rw [lookupRib64_long _ (Nat.lt_of_not_le hshort)] at h
    cases h
    exact Nat.le_refl _

theorem lookupRib64_linked {t t' : Bigtable} {la a : Nat} (ht : t.slots.Linked)
    (h : lookupRib64 t la = .ok (a, t')) :
    t'.slots.Linked ∧ (lengthOf la ≤ 24 → a < t'.bigtableIndex) := by
  by_cases hshort : lengthOf la ≤ 24
  · rw [lookupRib64_short _ hshort] at h
    cases h
    exact ⟨ht.lookup _, fun _ => (ht.index (prefixWord la)).1⟩
  · rw [lookupRib64_long _ (Nat.lt_of_not_le hshort)] at h
    cases h
    exact ⟨ht, fun hle => absurd hle hshort⟩

namespace State

variable {env : Env} {s s' s1 : State} {msg : Message} {n : Nat} {r exc : Ptr}

theorem EntryLookup.next_le {step : State → Nat × Bool → Exec State} (h : EntryLookup step) :
    ∀ s entry t, step s entry = .ok t → s.tables.bigtableIndex ≤ t.tables.bigtableIndex := by
  intro s entry t ht
  obtain ⟨_, hl⟩ := h s entry t ht
  exact lookupRib64_next_le hl

/-- Nothing but `exc` is lost in the midst of a message with route `r`. -/
def Tracked (env : Env) (r exc : Ptr) (n : Nat) (s : State) : Prop :=
  s.tables.slots.Linked ∧
    ∃ cells, s.routing.SoundOn env.slab n r cells ∧ s.routing.Held env.slab cells exc

theorem Tracked.weaken (h : Tracked env r null n s) : Tracked env r r n s := by
  obtain ⟨hl, cells, hs, hheld⟩ := h
  exact ⟨hl, cells, hs, hheld.weaken env.slab_pos r⟩

theorem Tracked.room {m : Nat} (h : Tracked env r exc n s) (hmn : m ≤ n) :
    Tracked env r exc m s := by
  obtain ⟨hl, cells, hs, hheld⟩ := h
  exact ⟨hl, cells, hs.room hmn, hheld⟩

theorem Tracked.drop {m : Nat} (h : Tracked env r exc n s) : Tracked env null exc m s := by
  obtain ⟨hl, cells, hs, hheld⟩ := h
  exact ⟨hl, cells, hs.drop, hheld⟩

theorem Tracked.noLeak (h : Tracked env r null n s) : s.routing.NoLeak env.slab := by
  obtain ⟨_, cells, hs, hheld⟩ := h
  exact (hs.noLeak_iff env.slab_pos).mpr hheld

section
variable {pn : Fin npeers} {step : State → Nat × Bool → Exec State} {entry : Nat × Bool}

/-- The call of an entry whose prefix gets an index. -/
theorem entry_called (hstep : EntryCalls env pn r step)
    (hok : EntryOk Routing.KeepsCount pn r s entry) (h : step s entry = .ok s') :
    s'.routing = s.routing ∧ (∃ t, lookupRib64 s.tables entry.1 = .ok (tooBig, t)) ∨
      ∃ a, s.routing.KeepsCount pn a r ∧ s.routing.Called pn a r s'.routing := by
  obtain ⟨addrref, t, hl, hc⟩ := hstep s entry s' h
  cases hc with
  | inl hc => exact .inl ⟨hc.2, t, hc.1 ▸ hl⟩
  | inr hc =>
    have hcalled := Routing.updateAdjRibIn_called hc.2
    rw [entry_index] at hcalled
    simp only [EntryOk, hl] at hok
    exact .inr ⟨_, hok hc.1, hcalled⟩

theorem tracked_entry (hstep : EntryCalls env pn r step ∧ EntryLookup step)
    (h : Tracked env r r (n + 1) s) (hok : EntryOk Routing.KeepsCount pn r s entry)
    (hs : step s entry = .ok s') :
    (Tracked env r r n s' ∧ (Tracked env r null (n + 1) s → Tracked env r null n s')) ∧
      (lengthOf entry.1 ≤ 24 → s'.tables.bigtableIndex ≤ big → Tracked env r null n s') := by
  obtain ⟨hl, cells, hsound, hheld⟩ := h
  obtain ⟨a, hlookup⟩ := hstep.2 s entry s' hs
  obtain ⟨hlinked, hindex⟩ := lookupRib64_linked hl hlookup
  cases entry_called hstep.1 hok hs with
  | inl hc =>
    obtain ⟨hrouting, t, hlong⟩ := hc
    refine ⟨⟨⟨hlinked, cells, ?_, ?_⟩, ?_⟩, ?_⟩
    · rw [hrouting]
      exact hsound.less
    · rw [hrouting]
      exact hheld
    · rintro ⟨_, cells', hsound', hheld'⟩
      rw [Tracked, hrouting]
      exact ⟨hlinked, cells', hsound'.less, hheld'⟩
    · -- an index below `BIG` is not taken for `TOO_BIG`
      intro hshort hbig
      have hlt := hindex hshort
      obtain ⟨rfl, _⟩ := Prod.mk.inj (Except.ok.inj (hlookup.symm.trans hlong))
      rw [tooBig] at hlt
      omega
  | inr hc =>
    obtain ⟨b, hkeeps, hcalled⟩ := hc
    have hdone : Tracked env r null n s' :=
      ⟨hlinked, _, hsound.called hkeeps hcalled, hheld.called env.slab_pos hsound hcalled⟩
    exact ⟨⟨hdone.weaken, fun _ => hdone⟩, fun _ _ => hdone⟩

/-- The route is in a slot or released once one entry has been looked up. -/
theorem tracked_entries (hstep : EntryCalls env pn r step ∧ EntryLookup step)
    {entries : List (Nat × Bool)} (h : Tracked env r r entries.length s)
    (hok : StepsOk step (EntryOk Routing.KeepsCount pn r) s entries)
    (hs : entries.foldlM step s = .ok s') (hroom : s'.tables.bigtableIndex ≤ big)
    (hused : ∃ entry ∈ entries, lengthOf entry.1 ≤ 24) : Tracked env r null 0 s' := by
  obtain ⟨entry, hmem, hshort⟩ := hused
  obtain ⟨_, hbelow⟩ := stepsOk_below hstep.2.next_le hs hroom
  refine run_reaches_counted (I := Tracked env r r) (G := Tracked env r null) ?_ ?_ hmem h
    (stepsOk_and hok hbelow) hs
  · intro n s entry t hI ho ht
    exact (tracked_entry hstep hI ho.1 ht).1
  · intro n s t hI ho ht
    exact (tracked_entry hstep hI ho.1 ht).2 hshort (ho.2 t ht)

theorem tracked_null (hstep : EntryCalls env pn null step ∧ EntryLookup step)
    {entries : List (Nat × Bool)} (h : Tracked env null null n s)
    (hok : StepsOk step (EntryOk Routing.KeepsCount pn null) s entries)
    (hs : entries.foldlM step s = .ok s') : Tracked env null null 0 s' := by
  refine run_counted (I := Tracked env null null) ?_ h.drop hok hs
  intro n s entry t hI ho ht
  exact (tracked_entry hstep hI ho ht).1.1

end

/-- The buffer taken for a message is on no line and in no slot yet. -/
theorem messageRoute_tracked (h : Tracked env null null 0 s) (hfit : msg.Fits s)
    (hm : msg.HasRoute) (hr : messageRoute env s msg = .ok (r, s1)) :
    Tracked env r r 65535 s1 ∧
      ∃ cells, s1.routing.SoundOn env.slab 65535 r cells ∧
        s1.routing.Lost env.slab cells r := by
  obtain ⟨hl, cells, hsound, hheld⟩ := h
  obtain ⟨cells', hsound', htaken⟩ := messageRoute_taken hsound hfit hm hr
  have hne := htaken.mine.ne_null
  obtain ⟨slab, ha, rec, huse, hrouting⟩ :=
    (messageRoute_cases hr).resolve_left fun e => hne e.1
  refine ⟨⟨htaken.tables ▸ hl, cells', hsound', ?_⟩, cells', hsound', ?_⟩
  · intro p hp
    have hp : slab.Carved env.slab p := by
      rw [hrouting] at hp
      exact hp
    have hmem (k : Fin npeers × Size) (hk : p ∈ cells k) : p ∈ cells' k ∨ p = r := by
      cases htaken.taken with
      | inl hpop =>
        obtain ⟨l, hcells, rfl⟩ := hpop
        by_cases e : k = (msg.peer, Size.of (msg.length.toNat + sizeofRoute))
        · subst e
          rw [Function.update_self]
          rw [hcells] at hk
          exact (List.mem_cons.mp hk).symm
        · rw [Function.update_of_ne e]
          exact .inl hk
      | inr hgrow => exact .inl (hgrow.2.1 ▸ hk)
    cases Slab.carved_of_alloc hsound.1.placed ha hp with
    | inl hold =>
      cases hheld p hold with
      | inl hfree =>
        obtain ⟨k, hk⟩ := hfree
        cases hmem k hk with
        | inl hk => exact .inl ⟨k, hk⟩
        | inr hcur => exact .inr (.inr hcur)
      | inr hrest =>
        right
        left
        rw [htaken.adjRibIn]
        exact hrest.resolve_right (Routing.carved_ne_null env.slab_pos hold)
    | inr hcur => exact .inr (.inr hcur)
  · refine ⟨htaken.mine.carved, (hsound'.1.cur hne).2, ?_⟩
    intro i hi
    have hpos := hsound'.1.useCount_pos (i := i) (by rw [hi]; exact hne)
    rw [hi, hrouting] at hpos
    simp [Slab.setRoute, huse] at hpos

/-- A message leaves nothing behind if its route gets into a slot. -/
theorem parseUpdate_tracked (hs : Tracked env null null 0 s) (hok : CountsKept env s msg)
    (hm : msg.HasRoute → msg.AnnouncesShort) (h : s.parseUpdate env msg = .ok s')
    (hroom : s'.tables.bigtableIndex ≤ big) : Tracked env null null 0 s' := by
  obtain ⟨_, hc⟩ := parseUpdate_cases h
  cases hc with
  | inl hc =>
    rw [hc.2]
    exact hs
  | inr hc =>
    obtain ⟨_, r, s1, s2, hr, ha, hw⟩ := hc
    obtain ⟨hfit, hcalls⟩ := hok
    simp only [CallsOk, hr, ha] at hcalls
    have hannounced : Tracked env r null 0 s2 := by
      by_cases hroute : msg.HasRoute
      · obtain ⟨htracked, _⟩ :=
          messageRoute_tracked (s := { s with msgCount := s.msgCount + 1 }) hs hfit hroute hr
        have hbelow := (stepsOk_below (withdrawStep_entry msg.peer).2.next_le hw hroom).1
        exact tracked_entries (nlriStep_entry msg.peer r)
          (htracked.room (announced_length msg)) hcalls.1 ha hbelow (hm hroute)
      · obtain ⟨rfl, rfl⟩ := messageRoute_none hroute hr
        exact tracked_null (s := { s with msgCount := s.msgCount + 1 })
          (nlriStep_entry msg.peer null) hs hcalls.1 ha
    exact tracked_null (withdrawStep_entry msg.peer) (hannounced.drop (m := 0)) hcalls.2 hw

/-- If no prefix is looked up, no slot ever points to the route. -/
theorem parseUpdate_leaks (hs : Tracked env null null 0 s) (hok : CountsKept env s msg)
    (hm : msg.HasRoute) (hnone : ¬ msg.AnnouncesShort) (h : s.parseUpdate env msg = .ok s') :
    ¬ s'.routing.NoLeak env.slab := by
  obtain ⟨_, hc⟩ := parseUpdate_cases h
  have hsome : ¬ (0 = msg.nlriLength ∧ 0 = msg.withdrawLength) := fun e => hm.2 e.1.symm
  obtain ⟨_, r, s1, s2, hr, ha, hw⟩ := hc.resolve_left fun e => hsome e.1
  obtain ⟨hfit, hcalls⟩ := hok
  simp only [CallsOk, hr, ha] at hcalls
  obtain ⟨_, cells, hsound, hlost⟩ :=
    messageRoute_tracked (s := { s with msgCount := s.msgCount + 1 }) hs hfit hm hr
  have hlong : ∀ entry ∈ msg.announced, ∀ _ : State, 24 < lengthOf entry.1 := by
    intro entry he _
    exact Nat.lt_of_not_le fun hle => hnone ⟨entry, he, hle⟩
  have hsame : s2.routing = s1.routing := by
    refine run_invariant (I := fun t => t.routing = s1.routing) ?_ rfl
      (stepsOk_of_forall hlong s1) ha
    intro t entry u ht hentry hu
    exact (entry_long (nlriStep_entry msg.peer r) hentry hu).1.trans ht
  have hend : ∃ cells, s'.routing.SoundOn env.slab 0 null cells ∧
      s'.routing.Lost env.slab cells r := by
    refine run_counted (I := fun n t => ∃ cells, t.routing.SoundOn env.slab n null cells ∧
      t.routing.Lost env.slab cells r) ?_ ⟨cells, ?_, ?_⟩ hcalls.2 hw
    · rintro n t entry u ⟨cells, hsound, hlost⟩ hentry hu
      cases entry_called (withdrawStep_entryCalls msg.peer) hentry hu with
      | inl hc =>
        rw [hc.1]
        exact ⟨cells, hsound.less, hlost⟩
      | inr hc =>
        obtain ⟨a, hkeeps, hcalled⟩ := hc
        have hne := Routing.carved_ne_null env.slab_pos hlost.carved
        exact ⟨_, hsound.called hkeeps hcalled, hlost.called hne.symm hcalled⟩
    · rw [hsame]
      exact hsound.drop
    · rw [hsame]
      exact hlost
  obtain ⟨cells', hsound', hlost'⟩ := hend
  exact hlost'.leaks hsound' env.slab_pos

theorem start_tracked (env : Env) : Tracked env null null 0 (start env) := by
  obtain ⟨cells, hsound⟩ := Routing.sound_iff.mp (start_sound env)
  refine ⟨(start_filing env).linked, cells, hsound, ?_⟩
  rintro p ⟨z, i, hi, _⟩
  cases z with
  | small => exact absurd hi (Nat.not_lt_zero _)
  | large => exact absurd hi (Nat.not_lt_zero _)

theorem messageRoute_tables (h : messageRoute env s msg = .ok (r, s1)) : s1.tables = s.tables := by
  cases messageRoute_inv h with
  | inl hc => rw [hc.2.2]
  | inr hc =>
    obtain ⟨slab, tb, _, _, rfl⟩ := hc
    rfl

theorem parseUpdate_next_le (h : s.parseUpdate env msg = .ok s') :
    s.tables.bigtableIndex ≤ s'.tables.bigtableIndex := by
  obtain ⟨_, hc⟩ := parseUpdate_cases h
  cases hc with
  | inl hc => rw [hc.2]
  | inr hc =>
    obtain ⟨_, r, s1, s2, hr, ha, hw⟩ := hc
    have hannounced := (stepsOk_below (nlriStep_entry msg.peer r).2.next_le ha (Nat.le_refl _)).1
    have hwithdrawn := (stepsOk_below (withdrawStep_entry msg.peer).2.next_le hw (Nat.le_refl _)).1
    rw [messageRoute_tables hr] at hannounced
    exact hannounced.trans hwithdrawn

end State

/-- In every run whose counts are kept and whose indices stay inside the tables. -/
theorem no_leak_iff (env : Env) (msgs : List Message) (s : State)
    (hok : StepsOk (parseUpdate env) (CountsKept env) (start env) msgs)
    (hr : msgs.foldlM (parseUpdate env) (start env) = .ok s)
    (hroom : s.tables.bigtableIndex ≤ big) :
    (∀ pre post u, msgs = pre ++ post → pre.foldlM (parseUpdate env) (start env) = .ok u →
        u.routing.NoLeak env.slab) ↔
      ∀ msg ∈ msgs, msg.HasRoute → msg.AnnouncesShort := by
  obtain ⟨_, hbelow⟩ := stepsOk_below (f := fun s => s.tables.bigtableIndex)
    (fun _ _ _ => parseUpdate_next_le) hr hroom
  refine @run_tracks_iff Halt State Unit Message (parseUpdate env) _ (fun _ _ => ())
    (fun _ => Tracked env null null 0) (fun _ u => u.routing.NoLeak env.slab)
    (fun msg => msg.HasRoute → msg.AnnouncesShort) (fun _ _ h => h.noLeak) ?_ ()
    (start env) s msgs (start_tracked env) (stepsOk_and hok hbelow) hr
  rintro _ s msg t hs ⟨hcounts, hroom⟩ hst
  constructor
  · intro hno hroute
    by_contra hnone
    exact parseUpdate_leaks hs hcounts hroute hnone hst hno
  · intro hm
    exact parseUpdate_tracked hs hcounts hm hst (hroom t hst)

/-- A replacement, its withdrawal, and a prefix that is too long beside one that is not. -/
def someTooLong : List Message :=
  replaceAndWithdraw ++ [updateMessage 0 [] (plainAttributes 0 9) [25, 12, 0, 0, 0, 8, 12]]

theorem no_leak_some_too_long :
    ∃ s, someTooLong.foldlM (parseUpdate (plainEnv true)) (start (plainEnv true)) = .ok s ∧
      ∀ pre post u, someTooLong = pre ++ post →
        pre.foldlM (parseUpdate (plainEnv true)) (start (plainEnv true)) = .ok u →
          u.routing.NoLeak (2 ^ 46) := by
  have hr : (someTooLong.foldlM (parseUpdate (plainEnv true)) (start (plainEnv true))).map
      (fun s => decide (s.tables.bigtableIndex ≤ big)) = .ok true := by decide +kernel
  obtain ⟨s, hs, hroom⟩ := exists_of_map_eq_ok hr
  refine ⟨s, hs, ?_⟩
  exact (no_leak_iff (plainEnv true) someTooLong s (by decide +kernel) hs
    (of_decide_eq_true hroom)).mpr (by decide +kernel)

def onlyTooLong : Message := updateMessage 0 [] (plainAttributes 0 7) [25, 10, 0, 0, 0]

theorem route_leaks :
    ∃ s, [onlyTooLong].foldlM (parseUpdate (plainEnv true)) (start (plainEnv true)) = .ok s ∧
      ¬ s.routing.NoLeak (2 ^ 46) := by
  have hr : ((start (plainEnv true)).parseUpdate (plainEnv true) onlyTooLong).map
      (fun _ => ()) = .ok () := by decide +kernel
  obtain ⟨s, hs, _⟩ := exists_of_map_eq_ok hr
  refine ⟨s, ?_, ?_⟩
  · rw [List.foldlM_cons, hs]
    rfl
  · exact parseUpdate_leaks (start_tracked (plainEnv true)) (by decide +kernel)
      (by decide +kernel) (by decide +kernel) hs

end FastParse
