import FastParse.Routes.Neighbours
import FastParse.Routes.Selection

namespace FastParse

open Framework State

/-- The last message that announces each prefix with a route. -/
def latest (msgs : List Message) : Nat → Option Message :=
  msgs.foldl (fun last msg => assign msg.routeWords (some msg) last) fun _ => none

def Bigtable.Alone (t : Bigtable) (a : Nat) : Prop :=
  ∀ b < t.bigtableIndex, t.bigtable b = t.bigtable a → b = a

/-- The head of an index against the last announcement of its prefix. -/
def Elected (heap : Ptr → Route) (p : Ptr) : Option Message → Prop
  | none => p = null
  | some msg => p ≠ null ∧ msg.Made (heap p)

theorem Elected.congr {heap heap' : Ptr → Route} {p : Ptr} {last : Option Message}
    (h : Elected heap p last) (he : p ≠ null → (heap' p).exported = (heap p).exported) :
    Elected heap' p last := by
  cases last with
  | none => exact h
  | some msg => exact ⟨h.1, h.2.congr (he h.1)⟩

section
variable {msgs : List Message} {msg : Message} {w : Nat}

theorem Message.mem_routeWords : w ∈ msg.routeWords ↔ msg.Announces w := by
  rw [routeWords, Announces]
  split_ifs with hm
  · simp [hm]
  · simp [hm]

theorem latest_concat (msgs : List Message) (msg : Message) :
    latest (msgs ++ [msg]) = assign msg.routeWords (some msg) (latest msgs) := by
  simp [latest]

theorem latest_ne_none : latest msgs w ≠ none ↔ ∃ msg ∈ msgs, msg.Announces w := by
  induction msgs using List.reverseRecOn with
  | nil => simp [latest]
  | append_singleton msgs msg ih =>
    have hsplit : (∃ msg' ∈ msgs ++ [msg], msg'.Announces w) ↔
        (∃ msg' ∈ msgs, msg'.Announces w) ∨ w ∈ msg.routeWords := by
      simp [or_and_right, exists_or, Message.mem_routeWords]
    rw [hsplit, ← ih, latest_concat]
    by_cases hw : w ∈ msg.routeWords
    · simp [assign_of_mem hw, hw]
    · simp [assign_of_notMem hw, hw]

end

namespace Routing

/-- Every head is in the slot of the peer that its record names. -/
def HeadsOwned (s : Routing) : Prop :=
  ∀ a, s.head a ≠ null → ∃ pn, s.adjRibIn (pn, a) = s.head a ∧
    (s.tiebreak (s.head a)).peerAddress = (peers pn).peerAddress

theorem HeadsOwned.held {s : Routing} (h : s.HeadsOwned) : s.HeadsHeld := by
  intro a ha
  obtain ⟨pn, hslot, _⟩ := h a ha
  exact ⟨pn, hslot⟩

section
variable {s s' : Routing} {pn : Fin npeers} {a : Nat} {route : Ptr}

theorem Called.sameTiebreak (h : s.Called pn a route s') (q : Ptr) :
    s'.tiebreak q = s.tiebreak q :=
  congrArg (fun e : UInt16 × Tiebreak × Mem => e.2.1) (h.exported q)

/-- Only the peer itself can have a record equal to that of the head, and then it would let go of
the head; so the route of a call becomes the head. -/
theorem HeadsOwned.head_called (h : s.HeadsOwned) (hok : s.KeepsHead pn a route)
    (hnamed : (s.tiebreak route).peerAddress = (peers pn).peerAddress) (hroute : route ≠ null)
    (hc : s.Called pn a route s') : s'.head a = route := by
  rw [hc.head]
  split_ifs with hwin
  · rw [Function.update_self]
  · have hlose := not_or.mp fun e => hwin ⟨hroute, e⟩
    have hsame : s.tiebreak route = s.tiebreak (s.head a) := not_not.mp hlose.2
    obtain ⟨qn, hslot, hqn⟩ := h a hlose.1
    have hpeer : qn = pn := by
      by_contra hne
      apply peerAddress_ne hne
      rw [← hqn, ← hsame, hnamed]
    subst hpeer
    by_contra hne
    exact hok ⟨hlose.1, hslot, fun e => hne e.symm, .inr hsame⟩

theorem HeadsOwned.called (h : s.HeadsOwned) (hok : s.KeepsHead pn a route)
    (hnamed : route ≠ null → (s.tiebreak route).peerAddress = (peers pn).peerAddress)
    (hc : s.Called pn a route s') : s'.HeadsOwned := by
  intro b hb
  rw [hc.sameTiebreak]
  cases update_if_cases hc.head b with
  | inl hw =>
    obtain ⟨rfl, hwin, e⟩ := hw
    rw [e]
    refine ⟨pn, ?_, hnamed hwin.1⟩
    rw [hc.adjRibIn, Function.update_self]
  | inr hk =>
    rw [hk.2] at hb ⊢
    obtain ⟨qn, hslot, hqn⟩ := h b hb
    refine ⟨qn, ?_, hqn⟩
    by_cases hi : (qn, b) = (pn, a)
    · cases hi
      rw [hc.adjRibIn, Function.update_self]
      by_cases hroute : route = null
      · exact absurd ⟨hb, hslot, hroute ▸ hb.symm, .inl hroute⟩ hok
      · rw [← h.head_called hok (hnamed hroute) hroute hc, hk.2]
    · rw [hc.adjRibIn, Function.update_of_ne hi, hslot]

end

/-- Every prefix that was announced has an index, and where no other index holds it the head is
the route of its last announcement. -/
structure Leading (last : Nat → Option Message) (t : Bigtable) (s : Routing) : Prop where
  owned : s.HeadsOwned
  linked : t.slots.Linked
  filed : ∀ a, s.head a ≠ null → a < t.bigtableIndex
  known : ∀ w, last w ≠ none → ∃ a < t.bigtableIndex, t.bigtable a = w
  elected : ∀ a < t.bigtableIndex, t.Alone a →
    Elected s.slab.heap (s.head a) (last (t.bigtable a))

section
variable {last : Nat → Option Message} {t t' : Bigtable} {s s' : Routing} {pn : Fin npeers}
  {a : Nat} {route : Ptr} {msg : Message}

theorem Leading.lookup {la i : Nat} (h : s.Leading last t) (hl : lookupRib64 t la = .ok (i, t')) :
    s.Leading last t' := by
  obtain ⟨hnext, hword⟩ := lookup_grows hl
  have hknown : ∀ w, last w ≠ none → ∃ a < t.bigtableIndex, t'.bigtable a = w := by
    intro w hw
    obtain ⟨a, ha, e⟩ := h.known w hw
    exact ⟨a, ha, (hword a ha).trans e⟩
  refine ⟨h.owned, (lookupRib64_linked h.linked hl).1,
    fun a ha => (h.filed a ha).trans_le hnext, ?_, ?_⟩
  · intro w hw
    obtain ⟨a, ha, e⟩ := hknown w hw
    exact ⟨a, ha.trans_le hnext, e⟩
  · intro a ha halone
    by_cases hold : a < t.bigtableIndex
    · rw [hword a hold]
      apply h.elected a hold
      intro b hb e
      apply halone b (hb.trans_le hnext)
      rw [hword b hb, hword a hold, e]
    · -- a fresh index: nobody has announced its prefix, and it has no head
      have hnone : last (t'.bigtable a) = none := by
        by_contra hsome
        obtain ⟨b, hb, e⟩ := hknown _ hsome
        exact hold (halone b (hb.trans_le hnext) e ▸ hb)
      rw [hnone]
      by_contra hhead
      exact hold (h.filed a hhead)

theorem Leading.withdrawn (h : s.Leading last t) (hok : s.KeepsHead pn a null)
    (hc : s.Called pn a null s') : s'.Leading last t := by
  have hhead : s'.head = s.head := by
    rw [hc.head, if_neg fun e => e.1 rfl]
  refine ⟨h.owned.called hok (fun hne => absurd rfl hne) hc, h.linked, ?_, h.known, ?_⟩
  · rw [hhead]
    exact h.filed
  · intro b hb halone
    rw [hhead]
    exact (h.elected b hb halone).congr fun _ => hc.exported _

theorem Leading.announced (h : s.Leading last t) (ha : a < t.bigtableIndex)
    (hok : s.KeepsHead pn a route) (hroute : route ≠ null) (hpeer : msg.peer = pn)
    (hmade : msg.Made (s.slab.heap route)) (hc : s.Called pn a route s') :
    s'.Leading (Function.update last (t.bigtable a) (some msg)) t := by
  have hnamed : (s.tiebreak route).peerAddress = (peers pn).peerAddress :=
    hpeer ▸ message_peerAddress hmade.tiebreak
  have hset := h.owned.head_called hok hnamed hroute hc
  have hrest (b : Nat) (hb : b ≠ a) : s'.head b = s.head b := by
    rw [hc.head]
    split_ifs
    · rw [Function.update_of_ne hb]
    · rfl
  refine ⟨h.owned.called hok (fun _ => hnamed) hc, h.linked, ?_, ?_, ?_⟩
  · intro b hb
    by_cases e : b = a
    · exact e ▸ ha
    · rw [hrest b e] at hb
      exact h.filed b hb
  · intro w hw
    by_cases e : w = t.bigtable a
    · exact ⟨a, ha, e.symm⟩
    · rw [Function.update_of_ne e] at hw
      exact h.known w hw
  · intro b hb halone
    by_cases e : b = a
    · subst e
      rw [Function.update_self, hset]
      exact ⟨hroute, hmade.congr (hc.exported route)⟩
    · have hword : t.bigtable b ≠ t.bigtable a := fun hw => e (halone a ha hw.symm).symm
      rw [Function.update_of_ne hword, hrest b e]
      exact (h.elected b hb halone).congr fun _ => hc.exported _

theorem Leading.congr (h : s.Leading last t) (hadj : s'.adjRibIn = s.adjRibIn)
    (hhead : s'.head = s.head)
    (hheap : ∀ a, s.head a ≠ null →
      (s'.slab.heap (s.head a)).exported = (s.slab.heap (s.head a)).exported) :
    s'.Leading last t := by
  refine ⟨?_, h.linked, ?_, h.known, ?_⟩
  · intro a ha
    rw [hhead] at ha ⊢
    obtain ⟨pn, hslot, hpn⟩ := h.owned a ha
    refine ⟨pn, by rw [hadj, hslot], ?_⟩
    have htiebreak : s'.tiebreak (s.head a) = s.tiebreak (s.head a) :=
      congrArg (fun e : UInt16 × Tiebreak × Mem => e.2.1) (hheap a ha)
    rw [htiebreak, hpn]
  · rw [hhead]
    exact h.filed
  · intro a ha halone
    rw [hhead]
    exact (h.elected a ha halone).congr (hheap a)

end

end Routing

section
variable {env : Env} {last : Nat → Option Message} {s s' s1 : State} {msg : Message} {r : Ptr}
  {step : State → Nat × Bool → Exec State}

def Led (last : Nat → Option Message) (s : State) : Prop :=
  big < s.tables.bigtableIndex ∨ s.routing.Leading last s.tables

def InHand (msg : Message) (r : Ptr) (s : State) : Prop :=
  r ≠ null → msg.Made (s.routing.slab.heap r)

/-- The words that an entry, or a section, makes known. -/
def toldWords (r : Ptr) (las : List Nat) : List Nat := if r = null then [] else words las

theorem entry_led (hstep : EntryCalls env msg.peer r step ∧ EntryLookup step) (h : Led last s)
    (hmade : InHand msg r s) {entry : Nat × Bool}
    (hok : EntryOk Routing.KeepsRoute msg.peer r s entry) (hs : step s entry = .ok s') :
    Led (assign (toldWords r [entry.1]) (some msg) last) s' ∧ InHand msg r s' := by
  obtain ⟨i, t, hl, hc⟩ := hstep.1 s entry s' hs
  obtain ⟨i', hl'⟩ := hstep.2 s entry s' hs
  obtain ⟨rfl, rfl⟩ := Prod.mk.inj (Except.ok.inj (hl.symm.trans hl'))
  constructor
  · cases h with
    | inl hfull => exact .inl (hfull.trans_le (lookup_grows hl).1)
    | inr h =>
      by_cases hroom : s'.tables.bigtableIndex ≤ big
      · right
        have hgrown := h.lookup hl
        by_cases hlong : tooBig = i
        · -- a prefix that is too long: nothing happens
          have hrouting := (hc.resolve_right fun hc => hc.1 hlong).2
          have hwords : toldWords r [entry.1] = [] := by
            have hlength : ¬ lengthOf entry.1 ≤ 24 := by
              intro hshort
              have hlt := (lookupRib64_linked h.linked hl).2 hshort
              rw [← hlong] at hlt
              exact absurd (hlt.trans_le hroom) (by decide)
            rw [toldWords, words_cons_long (Nat.lt_of_not_le hlength)]
            exact ite_self _
          rw [hwords, assign_nil, hrouting]
          exact hgrown
        · obtain ⟨hshort, hlt, hkey, hmask⟩ := lookup_short_index hl h.linked hroom hlong
          have hcall := Routing.updateAdjRibIn_called (hc.resolve_left fun hc => hlong hc.1).2
          rw [entry_index entry i, hmask] at hcall
          have hkeeps : s.routing.KeepsHead msg.peer i r := by
            simp only [EntryOk, hl, hmask] at hok
            exact (hok hlong).2
          by_cases hr : r = null
          · subst hr
            rw [toldWords, if_pos rfl, assign_nil]
            exact hgrown.withdrawn hkeeps hcall
          · have hwords : toldWords r [entry.1] = [s'.tables.bigtable i] := by
              rw [toldWords, if_neg hr, words_cons_short hshort, hkey]
              rfl
            rw [hwords, assign_singleton]
            exact hgrown.announced hlt hkeeps hr rfl (hmade hr) hcall
      · exact .inl (Nat.lt_of_not_le hroom)
  · intro hr
    cases hc with
    | inl hc =>
      rw [hc.2]
      exact hmade hr
    | inr hc => exact (hmade hr).congr ((Routing.updateAdjRibIn_called hc.2).exported r)

theorem toldWords_cons (r : Ptr) (la : Nat) (las : List Nat) :
    toldWords r (la :: las) = toldWords r [la] ++ toldWords r las := by
  have happend := words_append [la] las
  rw [List.singleton_append] at happend
  rw [toldWords, toldWords, toldWords]
  split_ifs
  · rfl
  · exact happend

theorem section_led (hstep : EntryCalls env msg.peer r step ∧ EntryLookup step) (h : Led last s)
    (hmade : InHand msg r s) {entries : List (Nat × Bool)}
    (hok : StepsOk step (EntryOk Routing.KeepsRoute msg.peer r) s entries)
    (hs : entries.foldlM step s = .ok s') :
    Led (assign (toldWords r (entries.map Prod.fst)) (some msg) last) s' := by
  induction entries generalizing s last with
  | nil =>
    cases hs
    have hwords : toldWords r [] = [] := ite_self _
    rw [List.map_nil, hwords, assign_nil]
    exact h
  | cons entry entries ih =>
    rw [List.foldlM_cons, bind_eq_ok] at hs
    obtain ⟨u, hu, hs⟩ := hs
    obtain ⟨hentry, hrest⟩ := stepsOk_cons hok hu
    obtain ⟨hled, hmade⟩ := entry_led hstep h hmade hentry hu
    rw [List.map_cons, toldWords_cons, assign_append]
    exact ih hled hmade hrest hs

/-- The route of a message goes into a buffer that no head points to. -/
theorem route_led (h : Led last s) (hsound : s.routing.Sound env.slab 0 null)
    (hheads : s.routing.HeadsHeld) (hfit : msg.Fits s) (hshort : 4097 > msg.length)
    (hr : messageRoute env { s with msgCount := s.msgCount + 1 } msg = .ok (r, s1)) :
    Led last s1 ∧ InHand msg r s1 := by
  have htables : s1.tables = s.tables := by
    cases messageRoute_inv hr with
    | inl hc => rw [hc.2.2]
    | inr hc =>
      obtain ⟨_, _, _, _, e⟩ := hc
      rw [e]
  obtain ⟨hadj, hrib⟩ := messageRoute_frame hr
  refine ⟨?_, fun hne => (messageRoute_made hshort hr hne).1⟩
  rw [Led, htables]
  exact h.imp id fun h => h.congr hadj (congrArg Rib.head hrib)
    (unseen_of_held hsound hheads hfit r s1 hr)

theorem toldWords_announced
    (hr : messageRoute env { s with msgCount := s.msgCount + 1 } msg = .ok (r, s1)) :
    toldWords r (msg.announced.map Prod.fst) = msg.routeWords := by
  rw [toldWords, Message.routeWords]
  cases messageRoute_inv hr with
  | inl hc =>
    have hm : ¬ msg.HasRoute := hc.1
    rw [if_pos hc.2.1, if_neg hm]
  | inr hc =>
    obtain ⟨_, _, halloc, _, _⟩ := hc
    have hm : msg.HasRoute := by
      by_contra hm
      exact (Slab.alloc_cases halloc).1 (messageRoute_none hm hr).1
    rw [if_neg (Slab.alloc_cases halloc).1, if_pos hm]

theorem message_led (h : Led last s) (hsound : s.routing.Sound env.slab 0 null)
    (hheads : s.routing.HeadsHeld) (hok : HeadsKept env s msg)
    (hs : s.parseUpdate env msg = .ok s') :
    Led (assign msg.routeWords (some msg) last) s' := by
  obtain ⟨hshort, hc⟩ := parseUpdate_cases hs
  cases hc with
  | inl hc =>
    obtain ⟨hskip, rfl⟩ := hc
    rw [Message.routeWords, if_neg fun hm => hm.2 hskip.1.symm, assign_nil]
    exact h
  | inr hc =>
    obtain ⟨_, r, s1, s2, hr, ha, hw⟩ := hc
    obtain ⟨hfit, hcalls⟩ := hok
    simp only [CallsOk, hr, ha] at hcalls
    obtain ⟨hled1, hmade⟩ := route_led h hsound hheads hfit hshort hr
    have hled2 := section_led (nlriStep_entry msg.peer r) hled1 hmade hcalls.1 ha
    have hled3 := section_led (withdrawStep_entry msg.peer) hled2 (fun hne => absurd rfl hne)
      hcalls.2 hw
    rwa [toldWords, if_pos rfl, assign_nil, toldWords_announced hr] at hled3

/-- The state of a run, the tables and the counts included. -/
theorem run_led {msgs : List Message} (h : Led last s) (hsound : s.routing.Sound env.slab 0 null)
    (hheads : s.routing.HeadsHeld)
    (hkept : StepsOk (State.parseUpdate env) (HeadsKept env) s msgs)
    (hr : msgs.foldlM (State.parseUpdate env) s = .ok s') :
    Led (msgs.foldl (fun last msg => assign msg.routeWords (some msg) last) last) s' := by
  induction msgs generalizing s last with
  | nil =>
    cases hr
    exact h
  | cons msg msgs ih =>
    rw [List.foldlM_cons, bind_eq_ok] at hr
    obtain ⟨u, hu, hr⟩ := hr
    obtain ⟨hmsg, hrest⟩ := stepsOk_cons hkept hu
    obtain ⟨hsound', hheads'⟩ := parseUpdate_headsHeld ⟨hsound, hheads⟩ hmsg hu
    exact ih (message_led h hsound hheads hmsg hu) hsound' hheads' hrest hr

theorem start_led (env : Env) : Led (fun _ => none) (start env) := by
  right
  refine ⟨fun a ha => absurd rfl ha, fun k hk => absurd rfl hk, fun a ha => absurd rfl ha,
    fun w hw => absurd rfl hw, fun a ha => absurd ha (Nat.not_lt_zero a)⟩

end

/-- In a run in which no call lets go of a head: for every prefix that is filed under one index
only, the best route in `LOCRIB` is that of the last message that announced it, and a neighbour
that reads the file of its peer group has what the serializer makes of that route; neither has
anything where no message did. -/
theorem last_announcement_wins (env : Env) (hpgs : Templated env) (msgs : List Message)
    (hsections : ∀ msg ∈ msgs, msg.SectionsAddUp)
    (hkept : StepsOk (State.parseUpdate env) (HeadsKept env) (start env) msgs) (s : State)
    (r : Routing) (hard : Bool) (hr : msgs.foldlM (State.parseUpdate env) (start env) = .ok s)
    (hflush : s.routing.schedulePhase3 env s.tables hard = .ok r)
    (hroom : s.tables.bigtableIndex ≤ big) (hclean : r.egress.tx.overLengthDetected = false)
    (hcount : r.egress.blocks.length < 2 ^ 31) (pg : Peergroup) (pix : Nat)
    (hopen : (pg, pix) ∈ openGroups env.outlet.peergroups) (m : Mem) (base : Nat)
    (hm : slice m base (fileOf r.egress.tx pix).length = fileOf r.egress.tx pix) (reader : Env)
    (hspare : reader.spare = 0) (hmax : reader.msgMax = 0) (pn : Fin npeers) (fuel : Nat)
    (hfuel : r.egress.blocks.length < fuel) :
    ∃ rib, bufParsePeerWith reader (fun rib msg => .ok (learn rib msg)) m pn fuel (fun _ => none)
        ⟨base, ((fileOf r.egress.tx pix).length : Nat)⟩ =
          .ok (UInt32.ofNat r.egress.blocks.length, rib) ∧
      (∀ w, latest msgs w = none → rib w = none) ∧
      ∀ w msg, latest msgs w = some msg → ∃ a < s.tables.bigtableIndex,
        s.tables.bigtable a = w ∧
        (s.tables.Alone a → r.head a ≠ null ∧ msg.Made (r.slab.heap (r.head a)) ∧
          rib w = some (exportBytes pg.serialize (r.slab.heap (r.head a)))) := by
  obtain ⟨ds, hend⟩ :=
    (run_followed_kept hpgs hsections hkept hr).delivered hpgs hsections hflush hroom hclean
  have hhead := Routing.schedulePhase3_heads hflush
  have hled := run_led (start_led env) (start_sound env) (fun a ha => absurd rfl ha) hkept hr
  have hled := hled.resolve_left (Nat.not_lt.mpr hroom)
  have hslab : r.slab = s.routing.slab := by
    obtain ⟨_, _, _, _, rfl⟩ := Routing.schedulePhase3_ok hflush
    rfl
  rw [← hend.count] at hcount hfuel ⊢
  refine ⟨_, hend.stream.learnt hend.encoded hopen hm hcount pn hspare hmax hfuel, ?_, ?_⟩
  · intro w hw
    by_contra hne
    have hheard := (hend.words_iff hroom hhead
      (fun msg hmsg w hw => run_found hpgs hsections hr hmsg hw) pg w).mp hne
    exact latest_ne_none.mpr hheard hw
  · intro w msg hw
    obtain ⟨a, ha, rfl⟩ := hled.known w (by
      change latest msgs w ≠ none
      rw [hw]
      exact Option.some_ne_none msg)
    refine ⟨a, ha, rfl, ?_⟩
    intro halone
    have helected := hled.elected a ha halone
    change Elected _ _ (latest msgs _) at helected
    rw [hw, ← hslab, ← hhead] at helected
    obtain ⟨hset, hmade⟩ := helected
    refine ⟨hset, hmade, ?_⟩
    rw [hend.taught (hpgs pg (List.fst_mem_of_mem_zipIdx (List.mem_filter.mp hopen).1)) halone,
      if_neg hset]

/-- The prefix that has changed hands: its last announcement is that of the second peer. -/
theorem last_announcement_wins_taken_over :
    ∃ (s : State) (r : Routing) (rib : Nat → Option (List UInt8)) (msg : Message),
      takeOverAndWithdraw.foldlM (State.parseUpdate openEnv) (start openEnv) = .ok s ∧
      s.routing.schedulePhase3 openEnv s.tables true = .ok r ∧
      bufParsePeerWith openEnv (fun rib msg => .ok (learn rib msg))
          (bytesMem (fileOf r.egress.tx 0)) 1 5 (fun _ => none)
          ⟨0, ((fileOf r.egress.tx 0).length : Nat)⟩ =
        .ok (UInt32.ofNat r.egress.blocks.length, rib) ∧
      latest takeOverAndWithdraw (2 ^ 8 + 11) = some msg ∧ msg.peer = 1 ∧
      msg.Made (r.slab.heap (r.head 1)) ∧
      rib (2 ^ 8 + 11) = some (exportBytes serializeIbgp (r.slab.heap (r.head 1))) := by
  have hr : (takeOverAndWithdraw.foldlM (State.parseUpdate openEnv) (start openEnv) >>= fun s =>
      (s.routing.schedulePhase3 openEnv s.tables true).map fun r =>
        (s.tables.bigtableIndex, r.egress.tx.overLengthDetected, r.egress.blocks.length,
          s.tables.bigtable 0, s.tables.bigtable 1)) =
      .ok (2, false, 3, 2 ^ 8 + 10, 2 ^ 8 + 11) := by decide +kernel
  obtain ⟨s, hs, hr⟩ := bind_eq_ok.mp hr
  obtain ⟨r, hflush, e⟩ := exists_of_map_eq_ok hr
  simp only [Prod.mk.injEq] at e
  obtain ⟨hnext, hclean, hcount, hfirst, hsecond⟩ := e
  have hlatest : (latest takeOverAndWithdraw (2 ^ 8 + 11)).map Message.peer = some 1 := by
    decide +kernel
  obtain ⟨msg, hmsg, hpeer⟩ := Option.map_eq_some_iff.mp hlatest
  obtain ⟨rib, hrib, _, hwins⟩ := last_announcement_wins openEnv openEnv_templated
    takeOverAndWithdraw (by decide +kernel) (by decide +kernel) s r true hs hflush
    (by rw [hnext]; decide) hclean (by rw [hcount]; decide) ⟨serializeIbgp, true⟩ 0
    List.mem_cons_self (bytesMem (fileOf r.egress.tx 0)) 0 (slice_bytesMem _) openEnv rfl rfl 1 5
    (by rw [hcount]; decide)
  obtain ⟨a, ha, hword, hhead⟩ := hwins (2 ^ 8 + 11) msg hmsg
  have hone : a = 1 := by
    rw [hnext] at ha
    interval_cases a
    · rw [hfirst] at hword
      exact absurd hword (by decide)
    · rfl
  subst hone
  have halone : s.tables.Alone 1 := by
    intro b hb e
    rw [hnext] at hb
    interval_cases b
    · rw [hfirst, hsecond] at e
      exact absurd e (by decide)
    · rfl
  obtain ⟨_, hmade, hheard⟩ := hhead halone
  exact ⟨s, r, rib, msg, hs, hflush, hrib, hmsg, hpeer, hmade, hheard⟩

end FastParse
