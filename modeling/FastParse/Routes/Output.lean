import FastParse.Framework.Assign
import FastParse.Routes.Announcements
import FastParse.Routes.Exportable
import FastParse.Update.Sections

namespace FastParse

open Framework State

/-- The message announces the prefix filed under the word `w`, with a route. -/
def Message.Announces (msg : Message) (w : Nat) : Prop :=
  msg.HasRoute ∧ w ∈ words (msg.announced.map Prod.fst)

/-- The message has a route, `parse_update` has let it through, and the route holds its attributes
and what they are parsed to. -/
structure Message.Made (msg : Message) (route : Route) : Prop where
  hasRoute : msg.HasRoute
  short : 4097 > msg.length
  length : route.updateLength = msg.pathattributesLength
  attributes : slice route.attributes 0 route.updateLength.toNat = msg.attributeBytes
  tiebreak : msg.tiebreak = .ok route.tiebreak

/-- One of the messages has made the route. -/
def Heard (msgs : List Message) (route : Route) : Prop := ∃ msg ∈ msgs, msg.Made route

section
variable {msg : Message} {msgs : List Message} {route route' : Route}

theorem Message.Made.congr (h : msg.Made route) (he : route'.exported = route.exported) :
    msg.Made route' := by
  obtain ⟨hlen, he⟩ := Prod.mk.inj he
  obtain ⟨htb, hattributes⟩ := Prod.mk.inj he
  refine ⟨h.hasRoute, h.short, hlen.trans h.length, ?_, ?_⟩
  · rw [hlen, hattributes]
    exact h.attributes
  · rw [htb]
    exact h.tiebreak

theorem Heard.congr (h : Heard msgs route) (he : route'.exported = route.exported) :
    Heard msgs route' := by
  obtain ⟨msg, hmsg, hmade⟩ := h
  exact ⟨msg, hmsg, hmade.congr he⟩

theorem Message.Made.accepted (h : msg.Made route) : route.Accepted := by
  refine ⟨msg.mem, msg.pathAttributes, ?_, phase1 (peers msg.peer) ⟨0, 0, 0, 0, 0, 0, 0, 0⟩,
    route.tiebreak, ?_⟩
  · rw [h.attributes, h.length]
    rfl
  · rw [h.length]
    exact h.tiebreak

theorem Message.Made.length_le (h : msg.Made route) (hsections : msg.SectionsAddUp) :
    route.updateLength.toNat ≤ 4096 := by
  have hshort : msg.length.toNat < 4097 := h.short
  rw [h.length]
  rw [SectionsAddUp] at hsections
  omega

theorem messageRoute_made {env : Env} {s s1 : State} {r : Ptr} (hshort : 4097 > msg.length)
    (hr : messageRoute env s msg = .ok (r, s1)) (hnull : r ≠ null) :
    msg.Made (s1.routing.slab.heap r) ∧
      ∀ p, p ≠ r → s1.routing.slab.heap p = s.routing.slab.heap p := by
  have hm : msg.HasRoute := by
    by_contra hno
    exact hnull (messageRoute_none hno hr).1
  obtain ⟨_, tb, attributes, htb, hheap⟩ := messageRoute_stored hm hr
  have hstored : s1.routing.slab.heap r = msg.stored s.unique tb attributes := by
    rw [hheap, Function.update_self]
  refine ⟨?_, ?_⟩
  · rw [hstored]
    exact ⟨hm, hshort, rfl, stored_slice msg s.unique tb attributes, htb⟩
  · intro p hp
    rw [hheap, Function.update_of_ne hp]

end

theorem lookup_grows {t t' : Bigtable} {la i : Nat} (h : lookupRib64 t la = .ok (i, t')) :
    t.bigtableIndex ≤ t'.bigtableIndex ∧
      ∀ j < t.bigtableIndex, t'.bigtable j = t.bigtable j := by
  by_cases hshort : lengthOf la ≤ 24
  · rw [lookupRib64_short t hshort] at h
    cases h
    exact ⟨SlotTable.next_le_lookup t.slots _,
      fun j hj => SlotTable.key_stable t.slots [prefixWord la] hj⟩
  · rw [lookupRib64_long t (Nat.lt_of_not_le hshort)] at h
    cases h
    exact ⟨Nat.le_refl _, fun _ _ => rfl⟩

/-- Every index in use holds the word of a prefix of length at most 24. -/
def Worded (t : Bigtable) : Prop :=
  t.slots.Linked ∧ ∀ i < t.bigtableIndex, 1 ≤ t.bigtable i ∧ t.bigtable i < 2 ^ 25

theorem Worded.lookup {t t' : Bigtable} {la i : Nat} (h : Worded t)
    (hl : lookupRib64 t la = .ok (i, t')) : Worded t' := by
  by_cases hshort : lengthOf la ≤ 24
  · rw [lookupRib64_short t hshort] at hl
    cases hl
    refine ⟨h.1.lookup _, ?_⟩
    intro j hj
    change j < (t.slots.lookup (prefixWord la)).2.next at hj
    change 1 ≤ (t.slots.lookup (prefixWord la)).2.key j ∧
      (t.slots.lookup (prefixWord la)).2.key j < 2 ^ 25
    by_cases hz : t.slots.slot (prefixWord la) = 0
    · rw [SlotTable.lookup_new hz] at hj ⊢
      by_cases e : j = t.slots.next
      · simp only [e, Function.update_self]
        exact ⟨Nat.le_add_right_of_le (Nat.two_pow_pos (lengthOf la)), prefixWord_lt la hshort⟩
      · simp only [Function.update_of_ne e]
        exact h.2 j (Nat.lt_of_le_of_ne (Nat.lt_succ_iff.mp hj) e)
    · rw [SlotTable.lookup_old hz] at hj ⊢
      exact h.2 j hj
  · rw [lookupRib64_long t (Nat.lt_of_not_le hshort)] at hl
    cases hl
    exact h

def lastDispatch (ds : List Dispatch) : Nat → Option Dispatch :=
  ds.foldl (fun last d => assign d.indices (some d) last) fun _ => none

theorem lastDispatch_concat (ds : List Dispatch) (d : Dispatch) :
    lastDispatch (ds ++ [d]) = assign d.indices (some d) (lastDispatch ds) := by
  simp [lastDispatch]

theorem mem_of_lastDispatch {ds : List Dispatch} {a : Nat} {d : Dispatch}
    (h : lastDispatch ds a = some d) : d ∈ ds ∧ a ∈ d.indices := by
  induction ds using List.reverseRecOn with
  | nil => simp [lastDispatch] at h
  | append_singleton ds d' ih =>
    rw [lastDispatch_concat] at h
    by_cases ha : a ∈ d'.indices
    · rw [assign_of_mem ha] at h
      cases h
      exact ⟨by simp, ha⟩
    · rw [assign_of_notMem ha] at h
      obtain ⟨hd, had⟩ := ih h
      exact ⟨List.mem_append_left _ hd, had⟩

def dispatchOf (heap : Ptr → Route) (b : Block) : Dispatch := ⟨heap b.route, b.indices⟩

/-- The indices of the blocks go out with what their heads say. -/
theorem lastDispatch_blocks {head : Nat → Ptr} (heap : Ptr → Route) {ds : List Dispatch}
    {bs : List Block} (hroute : ∀ b ∈ bs, ∀ a ∈ b.indices, b.route = head a) (a : Nat) :
    (lastDispatch (ds ++ bs.map (dispatchOf heap)) a).map Dispatch.route =
      if a ∈ (bs.map Block.indices).flatten then some (heap (head a))
      else (lastDispatch ds a).map Dispatch.route := by
  induction bs generalizing ds with
  | nil => simp
  | cons b bs ih =>
    have hsplit : ds ++ (b :: bs).map (dispatchOf heap) =
        ds ++ [dispatchOf heap b] ++ bs.map (dispatchOf heap) := by simp
    rw [hsplit, ih fun c hc => hroute c (List.mem_cons_of_mem b hc), lastDispatch_concat]
    simp only [List.map_cons, List.flatten_cons, List.mem_append]
    by_cases hrest : a ∈ (bs.map Block.indices).flatten
    · rw [if_pos hrest, if_pos (.inr hrest)]
    · rw [if_neg hrest]
      by_cases hb : a ∈ b.indices
      · rw [@assign_of_mem _ _ _ (dispatchOf heap b).indices a hb, if_pos (.inl hb),
          ← hroute b List.mem_cons_self a hb]
        rfl
      · rw [@assign_of_notMem _ _ _ (dispatchOf heap b).indices a hb, if_neg (by simp [hb, hrest])]

section
variable {β : Type} (g : UInt16 × Tiebreak × Mem → β)

/-- An index that has a head and is not waiting in the journal went out last with what, as far as
`g` can tell, the head says now. -/
def Routing.Told (ds : List Dispatch) (s : Routing) : Prop :=
  ∀ a, s.head a ≠ null → a ∉ s.rib.journal.queue →
    ((lastDispatch ds a).map Dispatch.route).map (fun route => g route.exported) =
      some (g (s.slab.heap (s.head a)).exported)

/-- Either a message was too long, or what has been written is one message for each block and
file, with routes that were heard, and up to date. -/
def Routing.Streamed (pgs : List Peergroup) (t : Bigtable) (msgs : List Message) (s : Routing) :
    Prop :=
  s.egress.tx.overLengthDetected = true ∨
    ∃ ds, Stream pgs t (Heard msgs) s.egress ds ∧ s.Told g ds

end

theorem emitBlock_overlong {o : Outlet} {heap : Ptr → Route} {t : Bigtable} {b : Block}
    {e e' : Egress} (hroute : b.route ≠ null)
    (hemit : emitBlock o heap t b.route b.indices e = .ok e')
    (h : e.tx.overLengthDetected = true) : e'.tx.overLengthDetected = true := by
  rw [emitBlock, bind_eq_ok] at hemit
  obtain ⟨tx, htx, hemit⟩ := hemit
  cases hemit
  rw [emitMessages, if_neg hroute.symm, emitUpdate] at htx
  refine run_keeps (I := fun tx : Tx => tx.overLengthDetected = true) ?_ (by exact h) htx
  intro tx x tx' htx hstep
  simp only [emitUpdateTo_eq, bind_eq_ok] at hstep
  obtain ⟨_, _, _, _, tx1, hwrite, hstep⟩ := hstep
  cases hstep
  rw [(writeFile_buffer hwrite).2, htx]
  rfl

namespace Routing

variable {β : Type} {g : UInt16 × Tiebreak × Mem → β} {env : Env} {msgs : List Message}
  {t t' : Bigtable} {s s' : Routing} {r : Ptr} {pn : Fin npeers} {a : Nat}

/-- `LOCRIB` names prefixes and routes that were heard, the route in hand was, and so was all
that has been written. -/
structure Sourced (g : UInt16 × Tiebreak × Mem → β) (env : Env) (msgs : List Message) (r : Ptr)
    (t : Bigtable) (s : Routing) : Prop where
  served : s.Served
  worded : Worded t
  heads : ∀ a, s.head a ≠ null → a < t.bigtableIndex ∧
    (∃ msg ∈ msgs, msg.Announces (t.bigtable a)) ∧ Heard msgs (s.slab.heap (s.head a))
  current : r ≠ null → Heard msgs (s.slab.heap r)
  stream : s.Streamed g env.outlet.peergroups t msgs

theorem Sourced.lookup {la i : Nat} (h : s.Sourced g env msgs r t)
    (hl : lookupRib64 t la = .ok (i, t')) : s.Sourced g env msgs r t' := by
  obtain ⟨hnext, hword⟩ := lookup_grows hl
  refine ⟨h.served, h.worded.lookup hl, ?_, h.current, ?_⟩
  · intro a ha
    obtain ⟨hlt, hmsg, hheard⟩ := h.heads a ha
    rw [hword a hlt]
    exact ⟨hlt.trans_le hnext, hmsg, hheard⟩
  · refine h.stream.imp id ?_
    rintro ⟨ds, hds, htold⟩
    exact ⟨ds, hds.grow hnext hword, htold⟩

/-- A call that sets a head puts its index in the journal, and no call touches what the routes
say. -/
theorem Told.callStart {ds : List Dispatch} {s1 : Routing} {x : Nat} {enters : Bool}
    (h : s.Told g ds) (hs : s.Synced env) (hroute : r = null ∨ InSlab env.slab r)
    (hstart : s.callStart env pn x r = .ok (s1, enters)) : s1.Told g ds := by
  have hd := callStart_called hstart
  obtain ⟨_, hqueue⟩ := callStart_queue hs hstart
  have hwaits := (hs.callStart hroute hstart).2.2
  have hkept : ∀ a ∈ s.rib.journal.queue, a ∈ s1.rib.journal.queue := by
    intro a ha
    cases hqueue with
    | inl hq => rwa [hq]
    | inr hq =>
      rw [hq.1]
      exact List.mem_append_left _ ha
  intro b hb hfree
  rw [hd.exported]
  cases update_if_cases hd.head b with
  | inl hc =>
    obtain ⟨rfl, hwin, _⟩ := hc
    exact absurd (hwaits hwin.1 hwin.2) hfree
  | inr hc =>
    rw [hc.2] at hb ⊢
    exact h b hb fun hq => hfree (hkept b hq)

/-- A call for a prefix that one of the messages announces, if it has a route. -/
theorem Sourced.callStart {s1 : Routing} {x : Nat} {enters : Bool}
    (h : s.Sourced g env msgs r t) (hs : s.Synced env) (hroute : r = null ∨ InSlab env.slab r)
    (hlt : x &&& lrIndexMask < t.bigtableIndex)
    (hannounced : r ≠ null → ∃ msg ∈ msgs, msg.Announces (t.bigtable (x &&& lrIndexMask)))
    (hstart : s.callStart env pn x r = .ok (s1, enters)) : s1.Sourced g env msgs r t := by
  have hd := callStart_called hstart
  have hheard {p : Ptr} (hp : Heard msgs (s.slab.heap p)) : Heard msgs (s1.slab.heap p) :=
    hp.congr (hd.exported p)
  refine ⟨h.served.callStart hs hstart, h.worded, ?_, fun hr => hheard (h.current hr), ?_⟩
  · intro b hb
    cases update_if_cases hd.head b with
    | inl hc =>
      obtain ⟨rfl, hwin, hset⟩ := hc
      rw [hset]
      exact ⟨hlt, hannounced hwin.1, hheard (h.current hwin.1)⟩
    | inr hc =>
      rw [hc.2] at hb ⊢
      obtain ⟨hb1, hb2, hb3⟩ := h.heads b hb
      exact ⟨hb1, hb2, hheard hb3⟩
  · rw [Streamed, (callStart_queue hs hstart).1]
    refine h.stream.imp id ?_
    rintro ⟨ds, hds, htold⟩
    exact ⟨ds, hds, htold.callStart hs hroute hstart⟩

/-- What has gone out when the blocks `bs` have followed `ds`. -/
def Dispatched (env : Env) (msgs : List Message) (t : Bigtable) (s : Routing) (ds : List Dispatch)
    (e : Egress) : Prop :=
  e.tx.overLengthDetected = true ∨ ∃ bs : List Block, e.blocks = bs.reverse ++ s.egress.blocks ∧
    Stream env.outlet.peergroups t (Heard msgs) e (ds ++ bs.map (dispatchOf s.slab.heap))

theorem Sourced.keeps {ds : List Dispatch} (hpgs : Templated env)
    (hsections : ∀ msg ∈ msgs, msg.SectionsAddUp) (h : s.Sourced g env msgs r t) {b : Block}
    (hb : b ∈ blocksOf s.rib.head s.rib.journal.queue) :
    Keeps env.outlet s.slab.heap t (s.Dispatched env msgs t ds) b := by
  intro hroom e e' hemit he
  obtain ⟨hroute, hne, hall⟩ := h.served.block hb
  obtain ⟨a, ha⟩ := List.exists_mem_of_ne_nil _ hne
  have hheard : Heard msgs (s.slab.heap b.route) := by
    rw [(hall a ha).1]
    exact (h.heads a (hall a ha).2).2.2
  have hin : ∀ i ∈ b.indices, i < t.bigtableIndex := fun i hi => (h.heads i (hall i hi).2).1
  obtain ⟨msg, hmsg, hmade⟩ := hheard
  cases he with
  | inl he => exact .inl (emitBlock_overlong hroute hemit he)
  | inr he =>
    obtain ⟨bs, hblocks, hds⟩ := he
    refine (hds.emit hpgs hroute hne hroom hin (fun i hi => h.worded.2 i (hin i hi))
      hmade.accepted (hmade.length_le (hsections msg hmsg)) ⟨msg, hmsg, hmade⟩ hemit).imp id ?_
    intro hds'
    refine ⟨bs ++ [b], ?_, ?_⟩
    · rw [(emitBlock_ok hemit).2, hblocks]
      simp
    · simpa [dispatchOf] using hds'

/-- A flush sends every index of the journal with what its head says. -/
theorem Sourced.streamed {hard : Bool} (hpgs : Templated env)
    (hsections : ∀ msg ∈ msgs, msg.SectionsAddUp) (h : s.Sourced g env msgs r t)
    (hs : s.Synced env) (hrun : s.schedulePhase3 env t hard = .ok s') :
    s'.Streamed g env.outlet.peergroups t msgs := by
  obtain ⟨_, _, hformed, _⟩ := hs.phase3 hrun
  cases h.stream with
  | inl hlong =>
    have hkeep : ∀ b ∈ blocksOf s.rib.head s.rib.journal.queue, Keeps env.outlet s.slab.heap t
        (fun e => e.tx.overLengthDetected = true) b :=
      fun b hb _ _ _ hemit he => emitBlock_overlong (h.served.block hb).1 hemit he
    exact .inl (schedulePhase3_keeps hs hkeep hlong hrun)
  | inr hstream =>
    obtain ⟨ds, hds, htold⟩ := hstream
    have hstart : s.Dispatched env msgs t ds s.egress := .inr ⟨[], rfl, by simpa using hds⟩
    have hend := schedulePhase3_keeps hs (fun b hb => h.keeps hpgs hsections hb) hstart hrun
    refine hend.imp id ?_
    rintro ⟨bs, hblocks, hds'⟩
    have hbs : bs = blocksOf s.rib.head s.rib.journal.queue := by
      rw [hformed] at hblocks
      exact (List.reverse_injective (List.append_cancel_right hblocks)).symm
    refine ⟨_, hds', ?_⟩
    have hp := blocksOf_partition s.rib.head s.rib.journal.queue
    have hhead := schedulePhase3_heads hrun
    obtain ⟨gate, rib, e, _, rfl⟩ := schedulePhase3_ok hrun
    intro a ha _
    rw [hhead] at ha ⊢
    rw [hbs, lastDispatch_blocks s.slab.heap hp.route, hp.flatten]
    split_ifs with hq
    · rfl
    · exact htold a ha hq

theorem Sourced.flush {hard : Bool} (hpgs : Templated env)
    (hsections : ∀ msg ∈ msgs, msg.SectionsAddUp) (h : s.Sourced g env msgs r t)
    (hs : s.Synced env) (hrun : s.schedulePhase3 env t hard = .ok s') :
    s'.Sourced g env msgs r t := by
  have hserved := h.served.flush hs hrun
  have hstream := h.streamed hpgs hsections hs hrun
  have hhead := schedulePhase3_heads hrun
  obtain ⟨gate, rib, e, _, rfl⟩ := schedulePhase3_ok hrun
  refine ⟨hserved, h.worded, ?_, h.current, hstream⟩
  intro a ha
  rw [hhead] at ha ⊢
  exact h.heads a ha

end Routing

section
variable {β : Type} {g : UInt16 × Tiebreak × Mem → β} {env : Env} {msgs : List Message}
  {s s' s1 : State} {msg : Message} {r : Ptr} {pn : Fin npeers}
  {step : State → Nat × Bool → Exec State}

def Followed (g : UInt16 × Tiebreak × Mem → β) (env : Env) (msgs : List Message) (r : Ptr)
    (s : State) : Prop :=
  s.routing.Reachable env ∧
    (big < s.tables.bigtableIndex ∨ s.routing.Sourced g env msgs r s.tables)

theorem Followed.drop (h : Followed g env msgs r s) : Followed g env msgs null s :=
  ⟨h.1, h.2.imp id fun hs => ⟨hs.served, hs.worded, hs.heads, fun hne => absurd rfl hne, hs.stream⟩⟩

theorem lookup_short_index {t t' : Bigtable} {la i : Nat} (hl : lookupRib64 t la = .ok (i, t'))
    (hlinked : t.slots.Linked) (hroom : t'.bigtableIndex ≤ big) (hi : tooBig ≠ i) :
    lengthOf la ≤ 24 ∧ i < t'.bigtableIndex ∧ t'.bigtable i = prefixWord la ∧
      i &&& lrIndexMask = i := by
  by_cases hshort : lengthOf la ≤ 24
  · rw [lookupRib64_short t hshort] at hl
    cases hl
    obtain ⟨hlt, hkey⟩ := hlinked.index (prefixWord la)
    exact ⟨hshort, hlt, hkey, index_of_lt (hlt.trans_le hroom)⟩
  · rw [lookupRib64_long t (Nat.lt_of_not_le hshort)] at hl
    cases hl
    exact absurd rfl hi

theorem Followed.entry (hpgs : Templated env) (hsections : ∀ msg ∈ msgs, msg.SectionsAddUp)
    (hroute : r = null ∨ InSlab env.slab r)
    (hstep : EntryCalls env pn r step ∧ EntryLookup step) (h : Followed g env msgs r s)
    {entry : Nat × Bool}
    (hentry : r ≠ null → lengthOf entry.1 ≤ 24 →
      ∃ msg ∈ msgs, msg.Announces (prefixWord entry.1))
    (hrun : step s entry = .ok s') : Followed g env msgs r s' := by
  obtain ⟨hreach, hs⟩ := h
  refine ⟨entries_reachable hstep.1 hroute hreach hrun, ?_⟩
  obtain ⟨addrref, t, hl, hc⟩ := hstep.1 s entry s' hrun
  obtain ⟨addrref', hl'⟩ := hstep.2 s entry s' hrun
  obtain ⟨rfl, rfl⟩ := Prod.mk.inj (Except.ok.inj (hl.symm.trans hl'))
  cases hs with
  | inl hfull => exact .inl (hfull.trans_le (lookup_grows hl).1)
  | inr hs =>
    by_cases hroom : s'.tables.bigtableIndex ≤ big
    · right
      have hgrown := hs.lookup hl
      cases hc with
      | inl hc =>
        rw [hc.2]
        exact hgrown
      | inr hc =>
        obtain ⟨hb, hcall⟩ := hc
        obtain ⟨hshort, hlt, hkey, hmask⟩ := lookup_short_index hl hs.worded.1 hroom hb
        obtain ⟨s1, enters, hstart, hend⟩ := Routing.updateAdjRibIn_cases hcall
        obtain ⟨hsynced, _, _⟩ := hreach.synced.callStart hroute hstart
        have hindex := entry_index entry addrref
        rw [hmask] at hindex
        have hstarted := hgrown.callStart hreach.synced hroute (by rw [hindex]; exact hlt)
          (by rw [hindex, hkey]; exact fun hr => hentry hr hshort) hstart
        cases hend with
        | inl e =>
          rw [e]
          exact hstarted
        | inr hflush => exact hstarted.flush hpgs hsections hsynced hflush
    · exact .inl (Nat.lt_of_not_le hroom)

/-- Filling in the route of the message is not noticed under `g` by any head. -/
def Unseen (g : UInt16 × Tiebreak × Mem → β) (env : Env) (s : State) (msg : Message) : Prop :=
  ∀ r s1, messageRoute env { s with msgCount := s.msgCount + 1 } msg = .ok (r, s1) →
    ∀ a, s.routing.head a ≠ null →
      g (s1.routing.slab.heap (s.routing.head a)).exported =
        g (s.routing.slab.heap (s.routing.head a)).exported

/-- The route of a message is filled in, even if `LOCRIB` still points to the buffer. -/
theorem Followed.route (hmsg : msg ∈ msgs) (hshort : 4097 > msg.length)
    (hseen : Unseen g env s msg) (h : Followed g env msgs null s)
    (hr : messageRoute env { s with msgCount := s.msgCount + 1 } msg = .ok (r, s1)) :
    Followed g env msgs r s1 ∧ (r = null ∨ InSlab env.slab r) := by
  obtain ⟨hreach, hs⟩ := h
  obtain ⟨hreach1, hroute⟩ :=
    messageRoute_reachable (s := { s with msgCount := s.msgCount + 1 }) hreach hr
  refine ⟨⟨hreach1, ?_⟩, hroute⟩
  have hsame := hseen r s1 hr
  by_cases hnull : r = null
  · have hm : ¬ msg.HasRoute := by
      intro hm
      obtain ⟨_, _, ha, _, _⟩ := (messageRoute_inv hr).resolve_left fun e => e.1 hm
      exact (Slab.alloc_cases ha).1 hnull
    obtain ⟨rfl, rfl⟩ := messageRoute_none hm hr
    exact hs
  · obtain ⟨hmade, hheap⟩ := messageRoute_made hshort hr hnull
    obtain ⟨slab, tb, _, _, rfl⟩ := (messageRoute_inv hr).resolve_left fun e => e.1 hmade.hasRoute
    refine hs.imp id fun hs => ?_
    refine ⟨⟨hs.served.slots, hs.served.queued, hs.served.blocks⟩, hs.worded, ?_,
      fun _ => ⟨msg, hmsg, hmade⟩, hs.stream.imp id ?_⟩
    · intro a ha
      obtain ⟨hlt, hannounced, hheard⟩ := hs.heads a ha
      refine ⟨hlt, hannounced, ?_⟩
      by_cases e : s.routing.head a = r
      · exact ⟨msg, hmsg, e ▸ hmade⟩
      · exact hheap _ e ▸ hheard
    · rintro ⟨ds, hds, htold⟩
      refine ⟨ds, hds, ?_⟩
      intro a ha hfree
      rw [htold a ha hfree]
      exact congrArg some (hsame a ha).symm

theorem Followed.parseUpdate (hpgs : Templated env) (hsections : ∀ msg ∈ msgs, msg.SectionsAddUp)
    (hmsg : msg ∈ msgs) (hseen : Unseen g env s msg) (h : Followed g env msgs null s)
    (hrun : s.parseUpdate env msg = .ok s') : Followed g env msgs null s' := by
  obtain ⟨hshort, hc⟩ := parseUpdate_cases hrun
  cases hc with
  | inl hc =>
    rw [hc.2]
    exact h
  | inr hc =>
    obtain ⟨_, r, s1, s2, hr, ha, hw⟩ := hc
    obtain ⟨hs1, hroute⟩ := h.route hmsg hshort hseen hr
    have hannounced : ∀ entry ∈ msg.announced, r ≠ null → lengthOf entry.1 ≤ 24 →
        ∃ msg ∈ msgs, msg.Announces (prefixWord entry.1) := by
      intro entry hentry hne hlen
      refine ⟨msg, hmsg, (messageRoute_made hshort hr hne).1.hasRoute, ?_⟩
      rw [words, List.mem_map]
      refine ⟨entry.1, ?_, rfl⟩
      simp only [List.mem_filter, decide_eq_true_eq]
      exact ⟨List.mem_map_of_mem hentry, hlen⟩
    have hs2 : Followed g env msgs r s2 := by
      refine @run_invariant Halt State (Nat × Bool) (nlriStep env msg.peer r)
        (fun _ entry => r ≠ null → lengthOf entry.1 ≤ 24 →
          ∃ msg ∈ msgs, msg.Announces (prefixWord entry.1))
        (Followed g env msgs r) ?_ s1 s2 msg.announced hs1 ?_ ha
      · intro u entry v hu hentry hst
        exact hu.entry hpgs hsections hroute (nlriStep_entry msg.peer r) hentry hst
      · exact stepsOk_of_forall (fun entry hentry _ => hannounced entry hentry) s1
    exact run_keeps (I := Followed g env msgs null)
      (fun _ _ _ hs hst => hs.entry hpgs hsections (.inl rfl) (withdrawStep_entry msg.peer)
        (fun hne => absurd rfl hne) hst) hs2.drop hw

theorem start_followed (g : UInt16 × Tiebreak × Mem → β) (hpgs : Templated env)
    (msgs : List Message) : Followed g env msgs null (start env) := by
  refine ⟨.start, .inr ⟨(Routing.Reachable.start.announcing hpgs).1, ⟨?_, ?_⟩, ?_, ?_,
    .inr ⟨[], Stream.start _ _ _, ?_⟩⟩⟩
  · intro k hk
    exact absurd rfl hk
  · intro i hi
    exact absurd hi (Nat.not_lt_zero i)
  · intro a ha
    exact absurd rfl ha
  · intro hne
    exact absurd rfl hne
  · intro a ha
    exact absurd rfl ha

theorem run_followed (hpgs : Templated env) (hsections : ∀ msg ∈ msgs, msg.SectionsAddUp)
    (hr : msgs.foldlM (State.parseUpdate env) (start env) = .ok s) :
    Followed (fun _ => ()) env msgs null s := by
  refine @run_invariant Halt State Message (State.parseUpdate env) (fun _ msg => msg ∈ msgs)
    (Followed (fun _ => ()) env msgs null) ?_ (start env) s msgs (start_followed _ hpgs msgs) ?_ hr
  · intro u msg v hu hmsg hst
    exact hu.parseUpdate hpgs hsections hmsg (fun _ _ _ _ _ => rfl) hst
  · exact stepsOk_of_forall (fun msg hmsg _ => hmsg) (start env)

end

/-- What there is to say when everything has gone out as the blocks `ds`. -/
structure Delivered {β : Type} (g : UInt16 × Tiebreak × Mem → β) (env : Env) (msgs : List Message)
    (t : Bigtable) (r : Routing) (ds : List Dispatch) : Prop where
  sourced : r.Sourced g env msgs null t
  stream : Stream env.outlet.peergroups t (Heard msgs) r.egress ds
  told : r.Told g ds
  queue : r.rib.journal.queue = []
  count : ds.length = r.egress.blocks.length
  heads : ∀ d ∈ ds, ∀ i ∈ d.indices, r.head i ≠ null

section
variable {β : Type} {g : UInt16 × Tiebreak × Mem → β} {env : Env} {msgs : List Message}
  {t : Bigtable} {s : State} {r : Routing} {ds : List Dispatch}

theorem Followed.delivered {hard : Bool} (h : Followed g env msgs null s) (hpgs : Templated env)
    (hsections : ∀ msg ∈ msgs, msg.SectionsAddUp)
    (hflush : s.routing.schedulePhase3 env s.tables hard = .ok r)
    (hroom : s.tables.bigtableIndex ≤ big) (hclean : r.egress.tx.overLengthDetected = false) :
    ∃ ds, Delivered g env msgs s.tables r ds := by
  obtain ⟨hreach, hs⟩ := h
  have hend := (hs.resolve_left (Nat.not_lt.mpr hroom)).flush hpgs hsections hreach.synced hflush
  obtain ⟨ds, hds, htold⟩ :=
    hend.stream.resolve_left (by rw [hclean]; exact Bool.false_ne_true)
  refine ⟨ds, hend, hds, htold, (hreach.synced.phase3 hflush).2.1, ?_, ?_⟩
  · have e := congrArg List.length hds.blocks
    rw [List.length_map, List.length_map, List.length_reverse] at e
    exact e.symm
  · intro d hd i hi
    have hmem : d.indices ∈ r.egress.blocks.reverse.map Block.indices := by
      rw [hds.blocks]
      exact List.mem_map_of_mem hd
    obtain ⟨b, hb, hbd⟩ := List.mem_map.mp hmem
    exact (hend.served.blocks b (List.mem_reverse.mp hb)).2 i (hbd ▸ hi)

theorem Delivered.encoded (h : Delivered g env msgs t r ds) : ∀ d ∈ ds, Encoded t d.indices :=
  fun d hd i hi => h.sourced.worded.2 i ((h.stream.indices d hd).2 i hi)

theorem Delivered.announced (h : Delivered g env msgs t r ds) {d : Dispatch} (hd : d ∈ ds) {i : Nat}
    (hi : i ∈ d.indices) : ∃ msg ∈ msgs, msg.Announces (t.bigtable i) :=
  (h.sourced.heads i (h.heads d hd i hi)).2.1

end

/-- The program has worked through the messages and flushed: every prefix has a place in the index
tables, no small buffer lies in the large pool, no message was too long, and an `int` is enough to
count them. -/
structure Worked (env : Env) (msgs : List Message) (hard : Bool) (s : State) (r : Routing) :
    Prop where
  parsed : msgs.foldlM (State.parseUpdate env) (start env) = .ok s
  flushed : s.routing.schedulePhase3 env s.tables hard = .ok r
  room : s.tables.bigtableIndex ≤ big
  apart : (s.routing.slab.pools .small).index ≤ smallRoom
  clean : r.egress.tx.overLengthDetected = false
  few : r.egress.blocks.length < 2 ^ 31

/-- The file of each peer group is a buffer that `buf_parse_peer` takes apart into one UPDATE for
each block that was formed, in order: nothing is withdrawn, the attributes are those the serializer
makes of a route that one of the messages has brought, and the prefixes are those of the block, each
announced by one of the messages. -/
theorem output_is_input (env : Env) (hpgs : Templated env) (msgs : List Message)
    (hsections : ∀ msg ∈ msgs, msg.SectionsAddUp) (s : State) (r : Routing) (hard : Bool)
    (hworked : Worked env msgs hard s r) :
    ∃ ds : List Dispatch,
      ds.map Dispatch.indices = r.egress.blocks.reverse.map Block.indices ∧
      (∀ d ∈ ds, Heard msgs d.route ∧
        ∀ i ∈ d.indices, ∃ msg ∈ msgs, msg.Announces (s.tables.bigtable i)) ∧
      ∀ pg pix, (pg, pix) ∈ openGroups env.outlet.peergroups → ∀ (m : Mem) (base : Nat),
        slice m base (fileOf r.egress.tx pix).length = fileOf r.egress.tx pix →
        ∀ (reader : Env) (pn : Fin npeers), ∃ calls, List.Forall₂ (ReadAs s.tables pg) ds calls ∧
          ∀ (σ : Type) (parse : σ → Message → Exec σ) (s0 : σ) (fuel : Nat), ds.length < fuel →
            bufParsePeerWith reader parse m pn fuel s0
              ⟨base, ((fileOf r.egress.tx pix).length : Nat)⟩ = do
                let s1 ← (takenFrom reader 0 calls).foldlM parse s0
                return (UInt32.ofNat (countUpTo reader ds.length), s1) := by
  obtain ⟨ds, hend⟩ := (run_followed hpgs hsections hworked.parsed).delivered hpgs hsections
    hworked.flushed hworked.room hworked.clean
  refine ⟨ds, hend.stream.blocks.symm, ?_, ?_⟩
  · intro d hd
    exact ⟨hend.stream.route d hd, fun i hi => hend.announced hd hi⟩
  · intro pg pix hopen m base hm reader pn
    exact hend.stream.read hend.encoded hopen hm (hend.count ▸ hworked.few) reader pn

instance (msg : Message) : Decidable msg.SectionsAddUp := inferInstanceAs (Decidable (_ = _))

/-- Two peers announce; the second one also takes back what it never had. -/
def announceTwo : List Message :=
  [updateMessage 0 [] (plainAttributes 0 7) [8, 10, 8, 11],
    updateMessage 1 [8, 11] (plainAttributes 0 9) [8, 12]]

theorem output_is_input_two :
    ∃ (s : State) (r : Routing) (ds : List Dispatch) (calls : List Message),
      announceTwo.foldlM (State.parseUpdate openEnv) (start openEnv) = .ok s ∧
      s.routing.schedulePhase3 openEnv s.tables true = .ok r ∧
      ds.map Dispatch.indices = [[0, 1], [2]] ∧ (∀ d ∈ ds, Heard announceTwo d.route) ∧
      List.Forall₂ (ReadAs s.tables ⟨serializeIbgp, true⟩) ds calls ∧
      bufParsePeerWith openEnv recordMessage (bytesMem (fileOf r.egress.tx 0)) 1 3 []
        ⟨0, ((fileOf r.egress.tx 0).length : Nat)⟩ = do
          let s1 ← (takenFrom openEnv 0 calls).foldlM recordMessage []
          return (UInt32.ofNat (countUpTo openEnv ds.length), s1) := by
  have hr : (announceTwo.foldlM (State.parseUpdate openEnv) (start openEnv) >>= fun s =>
      (s.routing.schedulePhase3 openEnv s.tables true).map fun r =>
        (s.tables.bigtableIndex, (s.routing.slab.pools .small).index,
          r.egress.tx.overLengthDetected, r.egress.blocks.reverse.map Block.indices)) =
      .ok (3, 2, false, [[0, 1], [2]]) := by decide +kernel
  obtain ⟨s, hs, hr⟩ := bind_eq_ok.mp hr
  obtain ⟨r, hflush, e⟩ := exists_of_map_eq_ok hr
  obtain ⟨hnext, e⟩ := Prod.mk.inj e
  obtain ⟨hsmall, e⟩ := Prod.mk.inj e
  obtain ⟨hclean, hblocks⟩ := Prod.mk.inj e
  have hcount : r.egress.blocks.length = 2 := by
    have hlen := congrArg List.length hblocks
    rwa [List.length_map, List.length_reverse] at hlen
  obtain ⟨ds, hds, hheard, hread⟩ := output_is_input openEnv openEnv_templated announceTwo
    (by decide +kernel) s r true ⟨hs, hflush, by rw [hnext]; decide, by rw [hsmall]; decide,
      hclean, by rw [hcount]; decide⟩
  have hlength : ds.length = 2 := by
    have hlen := congrArg List.length (hds.trans hblocks)
    rwa [List.length_map] at hlen
  obtain ⟨calls, hcalls, hparse⟩ := hread ⟨serializeIbgp, true⟩ 0 List.mem_cons_self
    (bytesMem (fileOf r.egress.tx 0)) 0 (slice_bytesMem _) openEnv 1
  exact ⟨s, r, ds, calls, hs, hflush, hds.trans hblocks, fun d hd => (hheard d hd).1, hcalls,
    hparse _ recordMessage [] 3 (by rw [hlength]; decide)⟩

end FastParse
