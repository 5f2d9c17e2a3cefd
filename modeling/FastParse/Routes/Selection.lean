import FastParse.Routes.Interleaved
import FastParse.Routes.Withdraw

namespace FastParse

open Framework State

namespace State

/-- What `LOCRIB` assigns to a prefix: whose route it is, and its attribute bytes. -/
def bestRoute (s : State) (la : Nat) : Option (UInt32 × List UInt8) :=
  if lengthOf la ≤ 24 ∧ s.headOf (prefixWord la) ≠ null then
    let r := s.routing.slab.heap (s.headOf (prefixWord la))
    some (r.tiebreak.peerAddress, (List.range r.updateLength.toNat).map r.attributes)
  else none

def SameBest (s s' : State) : Prop := ∀ la, s.bestRoute la = s'.bestRoute la

end State

/-- A run that returns and in which counts and places are kept. -/
def RunKept (env : Env) (msgs : List Message) (s : State) : Prop :=
  msgs.foldlM (parseUpdate env) (start env) = .ok s ∧
    StepsOk (parseUpdate env) (RoutesKept env) (start env) msgs

/-- All interleavings of the two sequences lead to the same best routes. -/
def OrderIndependent (env : Env) (as bs : List Message) : Prop :=
  ∀ l l' s s', Interleaves as bs l → Interleaves as bs l' → RunKept env l s →
    RunKept env l' s' → s.SameBest s'

def NoCommonPrefix (as bs : List Message) : Prop :=
  ∀ a ∈ as, ∀ b ∈ bs, ∀ w ∈ a.routeWords, w ∉ b.routeWords

instance (as bs : List Message) : Decidable (NoCommonPrefix as bs) := by
  unfold NoCommonPrefix
  infer_instance

section
variable {env : Env} {pn : Fin npeers} {as bs : List Message}

theorem Alike.bestRoute {own : Nat → Prop} {s t : State} (h : Alike env pn own s t) {la : Nat}
    (hown : own (prefixWord la)) : s.bestRoute la = t.bestRoute la := by
  obtain ⟨_, _, ρ, _, _, _, _, htwin⟩ := h
  have hhead := htwin.heads _ hown
  have hnull := hhead.null_iff htwin.ne_null
  rw [State.bestRoute, State.bestRoute]
  by_cases hp : s.headOf (prefixWord la) = null
  · rw [if_neg fun e => e.2 hp, if_neg fun e => e.2 (hnull.mp hp)]
  · have e := htwin.content _ _ (hhead.partner hp)
    obtain ⟨_, e⟩ := Prod.mk.inj e
    obtain ⟨htb, hbytes⟩ := Prod.mk.inj e
    have hq : t.headOf (prefixWord la) ≠ null := fun hq => hp (hnull.mpr hq)
    simp only [hp, hq, htb, hbytes, ne_eq, not_false_eq_true, and_true]

/-- At a prefix that the others do not announce the order does not matter. -/
theorem bestRoute_alone (ha : ∀ msg ∈ as, msg.peer = pn) (hb : ∀ msg ∈ bs, msg.peer ≠ pn)
    {l l' : List Message} (hl : Interleaves as bs l) (hl' : Interleaves as bs l') {s s' : State}
    (hs : RunKept env l s) (hs' : RunKept env l' s') {la : Nat}
    (hla : ∀ msg ∈ bs, prefixWord la ∉ msg.routeWords) : s.bestRoute la = s'.bestRoute la := by
  have hquiet : ∀ l, Interleaves as bs l → ∀ msg ∈ l, msg.peer ≠ pn →
      ∀ w ∈ msg.routeWords, ¬ ∀ msg ∈ bs, w ∉ msg.routeWords := by
    intro l hl msg hmsg hpeer w hw hno
    cases hl.mem_iff.mp hmsg with
    | inl hmem => exact hpeer (ha msg hmem)
    | inr hmem => exact hno msg hmem hw
  have kept {l : List Message} {s : State} (hl : Interleaves as bs l) (hs : RunKept env l s) :=
    stepsOk_and hs.2 (stepsOk_of_forall (fun msg hmsg _ => hquiet l hl msg hmsg) (start env))
  have hsame := (hl.filter_left ha hb).trans (hl'.filter_left ha hb).symm
  have halike := (alike_unwinds env pn fun w => ∀ msg ∈ bs, w ∉ msg.routeWords).run hsame
    (start_alike env pn _) (kept hl hs) (kept hl' hs') hs.1 hs'.1
  exact halike.bestRoute hla

theorem orderIndependent_of_noCommonPrefix {qn : Fin npeers} (hne : pn ≠ qn)
    (ha : ∀ msg ∈ as, msg.peer = pn) (hb : ∀ msg ∈ bs, msg.peer = qn)
    (h : NoCommonPrefix as bs) : OrderIndependent env as bs := by
  intro l l' s s' hl hl' hs hs' la
  by_cases hla : ∀ msg ∈ bs, prefixWord la ∉ msg.routeWords
  · exact bestRoute_alone ha (fun msg hmsg e => hne (e.symm.trans (hb msg hmsg))) hl hl' hs hs' hla
  · -- the other peer announces it, so this one does not
    have hla : ∀ msg ∈ as, prefixWord la ∉ msg.routeWords := by
      intro a hmem hw
      apply hla
      intro b hmem'
      exact h a hmem b hmem' _ hw
    exact bestRoute_alone hb (fun msg hmsg e => hne ((ha msg hmsg).symm.trans e)) hl.symm hl'.symm
      hs hs' hla

end

/-- The record that comes out, if any, names the peer of the one that went in. -/
def KeepsPeer (tb : Tiebreak) (x : Exec Tiebreak) : Prop :=
  ∀ tb', x = .ok tb' → tb'.peerAddress = tb.peerAddress

section
variable {tb : Tiebreak}

theorem keepsPeer_pure {tb' : Tiebreak} (h : tb'.peerAddress = tb.peerAddress) :
    KeepsPeer tb (pure tb') := by
  intro tb'' e
  cases e
  exact h

theorem keepsPeer_bind {α : Type} {x : Exec α} {f : α → Exec Tiebreak}
    (h : ∀ a, KeepsPeer tb (f a)) : KeepsPeer tb (x >>= f) := by
  intro tb' e
  obtain ⟨a, _, e⟩ := bind_eq_ok.mp e
  exact h a tb' e

theorem keepsPeer_ite {p : Prop} [Decidable p] {x y : Exec Tiebreak} (hx : KeepsPeer tb x)
    (hy : KeepsPeer tb y) : KeepsPeer tb (if p then x else y) := by
  split_ifs
  · exact hx
  · exact hy

theorem parseAttribute_peerAddress {m : Mem} {typeCode : UInt8} {p : Nat} {length : UInt16} :
    KeepsPeer tb (parseAttribute m typeCode p length tb) := by
  rw [parseAttribute]
  repeat'
    first
      | apply keepsPeer_ite
      | exact keepsPeer_pure rfl
      | exact keepsPeer_bind fun _ => keepsPeer_pure rfl

end

theorem parseLoop_peerAddress {m : Mem} {limit fuel p q : Nat} {tb tb' : Tiebreak}
    (h : parseLoop m limit fuel p tb = .ok (q, tb')) : tb'.peerAddress = tb.peerAddress := by
  induction fuel generalizing p tb with
  | zero => cases h
  | succ fuel ih =>
    rw [parseLoop] at h
    generalize attrHeader m p = header at h
    obtain ⟨typeCode, attrLength, value⟩ := header
    simp only [bind_eq_ok] at h
    obtain ⟨tb1, htb1, h⟩ := h
    have e := parseAttribute_peerAddress tb1 htb1
    split_ifs at h
    · exact (ih h).trans e
    · cases h
      exact e

theorem message_peerAddress {msg : Message} {tb : Tiebreak} (h : msg.tiebreak = .ok tb) :
    tb.peerAddress = (peers msg.peer).peerAddress := by
  rw [Message.tiebreak, parseAttributes] at h
  obtain ⟨⟨q, tb1⟩, hloop, h⟩ := bind_eq_ok.mp h
  rw [assert_bind_ok] at h
  cases h.2
  exact parseLoop_peerAddress hloop

theorem peerAddress_ne {pn qn : Fin npeers} (h : pn ≠ qn) :
    (peers pn).peerAddress ≠ (peers qn).peerAddress := by
  revert pn qn
  decide

namespace State

def LedBy (pn : Fin npeers) (w : Nat) (s : State) : Prop :=
  s.headOf w ≠ null ∧ (s.routing.tiebreak (s.headOf w)).peerAddress = (peers pn).peerAddress

/-- The route of the message in progress names the peer. -/
def Named (pn : Fin npeers) (r : Ptr) (s : State) : Prop :=
  r ≠ null → (s.routing.tiebreak r).peerAddress = (peers pn).peerAddress

end State

section
variable {env : Env} {pn : Fin npeers} {w : Nat}

theorem Called.tiebreak {s s' : Routing} {a : Nat} {route : Ptr}
    (h : s.Called pn a route s') : s'.tiebreak = s.tiebreak := by
  have keep (φ : UInt16 → UInt16) (f : Ptr → Content) (p q : Ptr) :
      (recount φ f p q).2.1 = (f q).2.1 := by
    rw [recount]
    split_ifs
    · rfl
    · by_cases e : q = p
      · simp [e]
      · simp [e]
  funext q
  rw [Routing.tiebreak_eq, h.content, keep, keep, Routing.tiebreak_eq]

/-- A call of the peer leaves the prefix with the peer, and gives it its own prefix. -/
theorem CalledAt.ledBy {s s' : State} {v a : Nat} {r : Ptr} (h : s.CalledAt pn v r a s')
    (hr : Named pn r s) :
    Named pn r s' ∧ (LedBy pn w s → LedBy pn w s') ∧ (r ≠ null → v = w → LedBy pn w s') := by
  have htb := Called.tiebreak h.called
  have won (hne : r ≠ null)
      (hwin : s.headOf v = null ∨ s.routing.tiebreak r ≠ s.routing.tiebreak (s.headOf v)) :
      LedBy pn v s' := by
    have hhead : s'.headOf v = r := by
      rw [h.heads, if_pos ⟨hne, hwin⟩, Function.update_self]
    rw [LedBy, hhead, htb]
    exact ⟨hne, hr hne⟩
  refine ⟨?_, ?_, ?_⟩
  · intro hne
    rw [htb]
    exact hr hne
  · intro hled
    by_cases hwin : r ≠ null ∧
        (s.headOf v = null ∨ s.routing.tiebreak r ≠ s.routing.tiebreak (s.headOf v))
    · by_cases e : w = v
      · exact e ▸ won hwin.1 hwin.2
      · rw [LedBy, h.heads, if_pos hwin, Function.update_of_ne e, htb]
        exact hled
    · rw [LedBy, h.heads, if_neg hwin, htb]
      exact hled
  · intro hne e
    subst e
    by_cases hwin : s.headOf v = null ∨ s.routing.tiebreak r ≠ s.routing.tiebreak (s.headOf v)
    · exact won hne hwin
    · -- a route that loses has the record of the head
      have hlose : ¬ (r ≠ null ∧
          (s.headOf v = null ∨ s.routing.tiebreak r ≠ s.routing.tiebreak (s.headOf v))) :=
        fun e => hwin e.2
      obtain ⟨hhead, hsame⟩ := not_or.mp hwin
      rw [LedBy, h.heads, if_neg hlose, htb, ← not_not.mp hsame]
      exact ⟨hhead, hr hne⟩

theorem ledBy_congr {s s' : State} (htb : s'.routing.tiebreak = s.routing.tiebreak)
    (hhead : s'.headOf = s.headOf) : LedBy pn w s' ↔ LedBy pn w s := by
  rw [LedBy, LedBy, htb, hhead]

theorem entry_ledBy {r : Ptr} {step : State → Nat × Bool → Exec State}
    (hstep : EntryCalls env pn r step ∧ EntryLookup step) {s s' : State} {entry : Nat × Bool}
    (hI : s.Filing ∧ Named pn r s) (hok : EntryKept pn r s entry) (hs : step s entry = .ok s') :
    (s'.Filing ∧ Named pn r s') ∧ (LedBy pn w s → LedBy pn w s') ∧
      (r ≠ null → lengthOf entry.1 ≤ 24 → prefixWord entry.1 = w → LedBy pn w s') := by
  by_cases hshort : lengthOf entry.1 ≤ 24
  · obtain ⟨hfs, a, _, _, _, hcall⟩ := entry_short hstep hI.1 hok.2 hshort hs
    obtain ⟨hnamed, hkeep, hset⟩ := CalledAt.ledBy (w := w) hcall hI.2
    exact ⟨⟨hfs, hnamed⟩, hkeep, fun hne _ e => hset hne e⟩
  · obtain ⟨hrouting, htables⟩ := entry_long hstep (Nat.lt_of_not_le hshort) hs
    obtain ⟨hfs, _, hhead⟩ := hI.1.congr htables (by rw [hrouting]) (by rw [hrouting])
    refine ⟨⟨hfs, ?_⟩, (ledBy_congr (by rw [hrouting]) hhead).mpr, fun _ h => absurd h hshort⟩
    rw [Named, hrouting]
    exact hI.2

theorem entries_ledBy {r : Ptr} {step : State → Nat × Bool → Exec State}
    (hstep : EntryCalls env pn r step ∧ EntryLookup step) {s s' : State}
    {entries : List (Nat × Bool)} (hI : s.Filing ∧ Named pn r s)
    (hok : StepsOk step (EntryKept pn r) s entries) (hs : entries.foldlM step s = .ok s') :
    (s'.Filing ∧ Named pn r s') ∧ (LedBy pn w s → LedBy pn w s') ∧
      (∀ entry ∈ entries, r ≠ null → lengthOf entry.1 ≤ 24 → prefixWord entry.1 = w →
        LedBy pn w s') := by
  have keep : ∀ s entry s', s.Filing ∧ Named pn r s → EntryKept pn r s entry →
      step s entry = .ok s' → (s'.Filing ∧ Named pn r s') ∧ (LedBy pn w s → LedBy pn w s') := by
    intro s entry s' hI ho hst
    obtain ⟨hI', hkeep, _⟩ := entry_ledBy (w := w) hstep hI ho hst
    exact ⟨hI', hkeep⟩
  refine ⟨?_, ?_, ?_⟩
  · exact run_invariant (I := fun s => s.Filing ∧ Named pn r s)
      (fun s entry s' hI ho hst => (keep s entry s' hI ho hst).1) hI hok hs
  · intro hled
    have hboth : (s'.Filing ∧ Named pn r s') ∧ LedBy pn w s' := by
      refine run_invariant (I := fun s => (s.Filing ∧ Named pn r s) ∧ LedBy pn w s) ?_ ⟨hI, hled⟩
        hok hs
      intro s entry s' h ho hst
      obtain ⟨hI', hled'⟩ := keep s entry s' h.1 ho hst
      exact ⟨hI', hled' h.2⟩
    exact hboth.2
  · intro entry hmem hne hshort e
    refine run_reaches (I := fun s => s.Filing ∧ Named pn r s) keep ?_ hmem hI hok hs
    intro s s' hI ho hst
    exact (entry_ledBy hstep hI ho hst).2.2 hne hshort e

def Ready (env : Env) (s : State) : Prop := s.routing.Sound env.slab 0 null ∧ s.Filing

theorem exists_entry {msg : Message} (hw : w ∈ msg.routeWords) :
    msg.HasRoute ∧ ∃ entry ∈ msg.announced, lengthOf entry.1 ≤ 24 ∧ prefixWord entry.1 = w := by
  rw [Message.routeWords] at hw
  split_ifs at hw with hroute
  · rw [words, List.mem_map] at hw
    obtain ⟨la, hla, e⟩ := hw
    rw [List.mem_filter, List.mem_map] at hla
    obtain ⟨⟨entry, hmem, rfl⟩, hshort⟩ := hla
    exact ⟨hroute, entry, hmem, by simpa using hshort, e⟩
  · cases hw

/-- Taking a route leaves the heads alone; a buffer that is taken again names the peer. -/
theorem route_ledBy {s s' s1 s2 : State} {msg : Message} {r : Ptr} (hI : Ready env s)
    (hparse : Parsed env s msg s' r s1 s2) :
    (s1.Filing ∧ Named msg.peer r s1) ∧ (LedBy msg.peer w s → LedBy msg.peer w s1) ∧
      (msg.HasRoute → r ≠ null) := by
  have hfs := hI.2.counted (s.msgCount + 1)
  by_cases hroute : msg.HasRoute
  · obtain ⟨cells, hcells⟩ := Routing.sound_iff.mp hI.1
    obtain ⟨cells', _, hr⟩ := messageRoute_taken
      (s := { s with msgCount := s.msgCount + 1 }) hcells hparse.fits hroute hparse.route
    obtain ⟨tb, htb, hcontent⟩ := hr.content
    have hnamed := message_peerAddress htb
    have hread (q : Ptr) : s1.routing.tiebreak q = if q = r then tb else s.routing.tiebreak q := by
      rw [Routing.tiebreak_eq, hcontent]
      split_ifs with e
      · rw [e, Function.update_self]
      · rw [Function.update_of_ne e]
        rfl
    refine ⟨⟨hr.filing hfs, ?_⟩, ?_, fun _ => hr.mine.ne_null⟩
    · intro _
      rw [hread, if_pos rfl]
      exact hnamed
    · intro hled
      have hhead : s1.headOf = s.headOf := (Twin.views_taken hr).2
      rw [LedBy, hhead, hread]
      refine ⟨hled.1, ?_⟩
      split_ifs
      · exact hnamed
      · exact hled.2
  · obtain ⟨rfl, rfl⟩ := messageRoute_none hroute hparse.route
    exact ⟨⟨hfs, fun hne => absurd rfl hne⟩, id, fun h => absurd h hroute⟩

/-- A message leaves its peer what it has, and gives it the prefixes it announces. -/
theorem message_ledBy {s s' : State} {msg : Message} (hI : Ready env s)
    (hok : RoutesKept env s msg) (hs : s.parseUpdate env msg = .ok s') :
    Ready env s' ∧ (LedBy msg.peer w s → LedBy msg.peer w s') ∧
      (w ∈ msg.routeWords → LedBy msg.peer w s') := by
  have hsound := parseUpdate_sound hI.1 hok.1 hs
  cases parseUpdate_parsed hok hs with
  | inl hc =>
    obtain ⟨hskip, rfl⟩ := hc
    exact ⟨hI, id, fun hw => absurd hskip.1.symm (exists_entry hw).1.2⟩
  | inr hc =>
    obtain ⟨_, r, s1, s2, hparse⟩ := hc
    obtain ⟨hI1, hled1, hne⟩ := route_ledBy (w := w) hI hparse
    obtain ⟨hI2, hled2, hset⟩ := entries_ledBy (w := w) (nlriStep_entry msg.peer r) hI1
      hparse.announcedOk hparse.announced
    obtain ⟨hI3, hled3, _⟩ := entries_ledBy (w := w) (withdrawStep_entry msg.peer)
      ⟨hI2.1, fun hne => absurd rfl hne⟩ hparse.withdrawnOk hparse.withdrawn
    refine ⟨⟨hsound, hI3.1⟩, fun h => hled3 (hled2 (hled1 h)), ?_⟩
    intro hw
    obtain ⟨hroute, entry, hmem, hshort, e⟩ := exists_entry hw
    exact hled3 (hset entry hmem (hne hroute) hshort e)

/-- The peer whose messages come last has every prefix that they announce. -/
theorem ledBy_last {as bs : List Message} {s : State} (hb : ∀ msg ∈ bs, msg.peer = pn)
    (hs : RunKept env (as ++ bs) s) {msg : Message} (hmsg : msg ∈ bs) (hw : w ∈ msg.routeWords) :
    LedBy pn w s := by
  obtain ⟨hr, hok⟩ := hs
  obtain ⟨hoka, hokb⟩ := stepsOk_append hok
  rw [List.foldlM_append, bind_eq_ok] at hr
  obtain ⟨u, hu, hr⟩ := hr
  have hready : Ready env u :=
    run_invariant (I := Ready env) (fun s msg s' hI ho hst => (message_ledBy (w := w) hI ho hst).1)
      ⟨start_sound env, start_filing env⟩ hoka hu
  have hokb := stepsOk_and (hokb u hu) (stepsOk_of_forall (fun msg hmsg _ => hb msg hmsg) u)
  refine run_reaches (I := Ready env) ?_ ?_ hmsg hready hokb hr
  · intro s msg s' hI ho hst
    obtain ⟨hI', hkeep, _⟩ := message_ledBy (w := w) hI ho.1 hst
    rw [ho.2] at hkeep
    exact ⟨hI', hkeep⟩
  · intro s s' hI ho hst
    have hset := (message_ledBy (w := w) hI ho.1 hst).2.2 hw
    rwa [ho.2] at hset

theorem bestRoute_ledBy {s : State} {la : Nat} (hshort : lengthOf la ≤ 24)
    (h : LedBy pn (prefixWord la) s) :
    (s.bestRoute la).map Prod.fst = some (peers pn).peerAddress := by
  rw [State.bestRoute, if_pos ⟨hshort, h.1⟩, ← h.2]
  rfl

/-- One after the other, in the two orders, two peers leave a common prefix differently. -/
theorem noCommonPrefix_of_orderIndependent {qn : Fin npeers} {as bs : List Message}
    (hne : pn ≠ qn) (ha : ∀ msg ∈ as, msg.peer = pn) (hb : ∀ msg ∈ bs, msg.peer = qn)
    (hab : ∃ s, RunKept env (as ++ bs) s) (hba : ∃ s, RunKept env (bs ++ as) s)
    (h : OrderIndependent env as bs) : NoCommonPrefix as bs := by
  intro a hmem b hmem' w hw hw'
  obtain ⟨s, hs⟩ := hab
  obtain ⟨s', hs'⟩ := hba
  obtain ⟨_, entry, _, hshort, rfl⟩ := exists_entry hw
  have hlast := bestRoute_ledBy hshort (ledBy_last hb hs hmem' hw')
  have hlast' := bestRoute_ledBy hshort (ledBy_last ha hs' hmem hw)
  rw [h _ _ s s' (.append as bs) (Interleaves.append bs as).symm hs hs', hlast'] at hlast
  exact peerAddress_ne hne (Option.some.inj hlast)

end

/-- For two peers, where counts and places are kept: the best routes do not depend on the
order of arrival exactly if no prefix is announced by both. And no record is preferred to
another both ways round exactly if they are equal. -/
theorem best_routes_order_independent (env : Env) {pn qn : Fin npeers} (hne : pn ≠ qn)
    (as bs : List Message) (ha : ∀ msg ∈ as, msg.peer = pn) (hb : ∀ msg ∈ bs, msg.peer = qn)
    (hab : ∃ s, RunKept env (as ++ bs) s) (hba : ∃ s, RunKept env (bs ++ as) s) :
    (OrderIndependent env as bs ↔ NoCommonPrefix as bs) ∧
      ∀ a b : Tiebreak, ¬ (tiebreaker a b = true ∧ tiebreaker b a = true) ↔ a = b := by
  refine ⟨⟨noCommonPrefix_of_orderIndependent hne ha hb hab hba,
    orderIndependent_of_noCommonPrefix hne ha hb⟩, ?_⟩
  intro a b
  rw [tiebreaker_iff, tiebreaker_iff, ne_comm (a := b), and_self, not_not]

def announceAndWithdrawOne : List Message :=
  [updateMessage 0 [] (plainAttributes 0 7) [8, 10, 8, 11], updateMessage 0 [8, 11] [] []]

def announceThird : List Message := [updateMessage 1 [] (plainAttributes 0 7) [8, 12]]

theorem best_routes_order_independent_third :
    OrderIndependent (plainEnv true) announceAndWithdrawOne announceThird := by
  have hab : ((announceAndWithdrawOne ++ announceThird).foldlM (parseUpdate (plainEnv true))
      (start (plainEnv true))).map (fun _ => ()) = .ok () := by decide +kernel
  have hba : ((announceThird ++ announceAndWithdrawOne).foldlM (parseUpdate (plainEnv true))
      (start (plainEnv true))).map (fun _ => ()) = .ok () := by decide +kernel
  obtain ⟨s, hs, _⟩ := exists_of_map_eq_ok hab
  obtain ⟨s', hs', _⟩ := exists_of_map_eq_ok hba
  exact (@best_routes_order_independent (plainEnv true) 0 1 (by decide)
    announceAndWithdrawOne announceThird (by decide) (by decide)
    ⟨s, hs, by decide +kernel⟩ ⟨s', hs', by decide +kernel⟩).1.mpr (by decide +kernel)

def announceSecond : List Message := [updateMessage 1 [] (plainAttributes 0 7) [8, 12, 8, 11]]

/-- Whoever comes last has 11.0.0.0/8; and of two records that differ each is preferred to
the other. -/
theorem best_routes_depend_on_order :
    (¬ ∀ l l' s s', Interleaves announceOne announceSecond l →
      Interleaves announceOne announceSecond l' →
      l.foldlM (parseUpdate (plainEnv true)) (start (plainEnv true)) = .ok s →
      l'.foldlM (parseUpdate (plainEnv true)) (start (plainEnv true)) = .ok s' →
      s.SameBest s') ∧
    ∃ a b : Tiebreak, tiebreaker a b = true ∧ tiebreaker b a = true := by
  constructor
  · have hab : ((announceOne ++ announceSecond).foldlM (parseUpdate (plainEnv true))
        (start (plainEnv true))).map (fun s =>
          (s.bestRoute (8 <<< 32 ||| 11 <<< 24)).map Prod.fst) =
        .ok (some 0xc0a80201) := by decide +kernel
    have hba : ((announceSecond ++ announceOne).foldlM (parseUpdate (plainEnv true))
        (start (plainEnv true))).map (fun s =>
          (s.bestRoute (8 <<< 32 ||| 11 <<< 24)).map Prod.fst) =
        .ok (some 0xc0a80101) := by decide +kernel
    obtain ⟨s, hs, e⟩ := exists_of_map_eq_ok hab
    obtain ⟨s', hs', e'⟩ := exists_of_map_eq_ok hba
    intro hsame
    rw [hsame _ _ s s' (.append _ _) (Interleaves.append _ _).symm hs hs', e'] at e
    exact absurd e (by decide)
  · exact ⟨⟨0, 0, 0, 0, 0, 0, 0, 0⟩, ⟨1, 0, 0, 0, 0, 0, 0, 0⟩, by decide, by decide⟩

end FastParse
