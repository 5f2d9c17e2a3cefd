import FastParse.Phase3.Schedule

namespace FastParse

open Framework

/-- `rib'` is `rib` with the flags of the listed indices cleared. -/
structure Cleared (rib : Rib) (indices : List Nat) (rib' : Rib) : Prop where
  head : rib'.head = rib.head
  flag : ∀ a, (rib'.locrib a).pushFlag = true ↔ (rib.locrib a).pushFlag = true ∧ a ∉ indices

theorem Cleared.refl (rib : Rib) : Cleared rib [] rib := ⟨rfl, by simp⟩

theorem Cleared.trans {rib rib' rib'' : Rib} {l l' : List Nat}
    (h : Cleared rib l rib') (h' : Cleared rib' l' rib'') : Cleared rib (l ++ l') rib'' := by
  refine ⟨h'.head.trans h.head, ?_⟩
  intro a
  rw [h'.flag, h.flag, List.mem_append, not_or, and_assoc]

theorem Cleared.heads_ne {rib rib' : Rib} {l : List Nat} {p : Ptr} (h : Cleared rib l rib')
    (hhead : ∀ a, rib.head a ≠ p) : ∀ a, rib'.head a ≠ p := by
  intro a
  rw [h.head]
  exact hhead a

theorem readAndClear_cleared (rib : Rib) (a : Nat) : Cleared rib [a] (readAndClear rib a).2 := by
  refine ⟨readAndClear_head rib a, ?_⟩
  intro k
  by_cases e : k = a
  · simp [readAndClear, e]
  · simp [readAndClear, e]

theorem pullHead_head (rib : Rib) : (pullHead rib).2.2.head = rib.head := by
  by_cases h : journalEmpty ≠ (locribjPull rib.journal).1
  · simp only [pullHead, if_pos h]
    exact (readAndClear_cleared _ _).head
  · simp only [pullHead, if_neg h]
    rfl

theorem pullHead_nil {rib : Rib} (h : rib.journal.queue = []) :
    pullHead rib = (journalEmpty, emptyPtr, rib) := by
  simp [pullHead, locribjPull_nil h]

theorem pullHead_cons {rib : Rib} {a : Nat} {rest : List Nat}
    (h : rib.journal.queue = a :: rest) (ha : a ≠ journalEmpty) :
    ∃ rib', pullHead rib = (a, rib.head a, rib') ∧ rib'.journal.queue = rest ∧
      Cleared rib [a] rib' := by
  obtain ⟨j, hj, hrest⟩ := locribjPull_cons h
  refine ⟨(readAndClear { rib with journal := j } a).2, ?_, hrest, ?_⟩
  · simp only [pullHead, hj, ne_eq, ha.symm, not_false_eq_true, if_true]
    rfl
  · have hc := readAndClear_cleared { rib with journal := j } a
    exact ⟨hc.head, hc.flag⟩

/-- Where the inner loop stops: the journal has run dry, or the next entry, now read ahead,
has another head. -/
def Stopped (rib : Rib) (taken : List Nat) (rib' : Rib) (next : Nat) (route : Ptr) : Prop :=
  next = journalEmpty ∧ rib.journal.queue = taken ∧ rib'.journal.queue = [] ∧
    Cleared rib taken rib' ∨
  next ≠ journalEmpty ∧ rib.journal.queue = taken ++ next :: rib'.journal.queue ∧
    route = rib.head next ∧ Cleared rib (taken ++ [next]) rib'

theorem fillBlock_other {route1 route2 : Ptr} (h : route2 ≠ route1) (room : Nat) (rib : Rib)
    (addrref : Nat) :
    fillBlock route1 room rib addrref route2 = .ok ([], rib, addrref, route2) := by
  cases room with
  | zero => simp [fillBlock, h]
  | succ room => simp [fillBlock, h]

/-- Entered with an index whose head is `route1`, the inner loop takes it and all entries
up to the next other head. -/
theorem fillBlock_spec {route1 : Ptr} (h1 : route1 ≠ emptyPtr) {room : Nat} {rib rib' : Rib}
    {addrref next : Nat} {route : Ptr} {indices : List Nat}
    (hn : ∀ a ∈ rib.journal.queue, a ≠ journalEmpty)
    (h : fillBlock route1 room rib addrref route1 = .ok (indices, rib', next, route)) :
    ∃ taken, indices = addrref :: taken ∧ (∀ a ∈ taken, rib.head a = route1) ∧
      Stopped rib taken rib' next route ∧ route ≠ route1 := by
  induction room generalizing rib addrref indices with
  | zero => simp [fillBlock] at h
  | succ room ih =>
    rw [fillBlock, if_pos rfl] at h
    cases hq : rib.journal.queue with
    | nil =>
      rw [pullHead_nil hq] at h
      simp only [fillBlock_other h1.symm, bind, Except.bind] at h
      cases h
      exact ⟨[], rfl, by simp, .inl ⟨rfl, hq, hq, Cleared.refl _⟩, h1.symm⟩
    | cons a rest =>
      have ha : a ≠ journalEmpty := hn a (by simp [hq])
      obtain ⟨rib1, hp, hrest, hc⟩ := pullHead_cons hq ha
      rw [hp] at h
      by_cases heq : rib.head a = route1
      · -- the entry joins the block
        simp only [heq, bind_eq_ok] at h
        obtain ⟨⟨ls, out⟩, hf, e⟩ := h
        cases e
        have hn1 : ∀ b ∈ rib1.journal.queue, b ≠ journalEmpty := by
          intro b hb
          exact hn b (by simp [hq, ← hrest, hb])
        obtain ⟨taken, rfl, hall, hstop, hne⟩ := ih hn1 hf
        refine ⟨a :: taken, rfl, ?_, ?_, hne⟩
        · intro b hb
          cases List.mem_cons.mp hb with
          | inl e => rw [e, heq]
          | inr hb => rw [← hc.head]; exact hall b hb
        · cases hstop with
          | inl hs =>
            obtain ⟨hnext, hq1, hq', hc'⟩ := hs
            refine .inl ⟨hnext, ?_, hq', hc.trans hc'⟩
            rw [hq, ← hrest, hq1]
          | inr hs =>
            obtain ⟨hnext, hq1, hr, hc'⟩ := hs
            refine .inr ⟨hnext, ?_, ?_, hc.trans hc'⟩
            · rw [hq, ← hrest, hq1]
              rfl
            · rw [hr, hc.head]
      · simp only [fillBlock_other heq, bind, Except.bind] at h
        cases h
        exact ⟨[], rfl, by simp, .inr ⟨ha, by simp [hq, hrest], rfl, hc⟩, heq⟩

theorem fillBlock_head {route1 : Ptr} {room : Nat} {rib rib' : Rib} {addrref next : Nat}
    {route2 route : Ptr} {indices : List Nat}
    (h : fillBlock route1 room rib addrref route2 = .ok (indices, rib', next, route)) :
    rib'.head = rib.head := by
  induction room generalizing rib addrref route2 indices with
  | zero =>
    rw [fillBlock] at h
    split_ifs at h
    cases h
    rfl
  | succ room ih =>
    rw [fillBlock] at h
    split_ifs at h
    · simp only [bind_eq_ok] at h
      obtain ⟨⟨ls, out⟩, hf, e⟩ := h
      cases e
      rw [ih hf, pullHead_head]
    · cases h
      rfl

theorem pullHead_length (rib : Rib) :
    pullHead rib = (journalEmpty, emptyPtr, rib) ∨
      (pullHead rib).2.2.journal.queue.length < rib.journal.queue.length := by
  cases hq : rib.journal.queue with
  | nil => exact .inl (pullHead_nil hq)
  | cons a rest =>
    right
    obtain ⟨j, hj, hrest⟩ := locribjPull_cons hq
    have hlen : (pullHead rib).2.2.journal = j := by
      simp only [pullHead, hj]
      split_ifs <;> rfl
    rw [hlen, hrest, List.length_cons]
    exact Nat.lt_succ_self _

/-- The inner loop takes an entry off the journal or finds it empty. -/
theorem fillBlock_length {route1 : Ptr} {room : Nat} {rib rib' : Rib} {addrref next : Nat}
    {route2 route : Ptr} {indices : List Nat}
    (h : fillBlock route1 room rib addrref route2 = .ok (indices, rib', next, route)) :
    rib'.journal.queue.length ≤ rib.journal.queue.length ∧
      (route2 = route1 →
        next = journalEmpty ∨ rib'.journal.queue.length < rib.journal.queue.length) := by
  induction room generalizing rib addrref route2 indices with
  | zero =>
    rw [fillBlock] at h
    split_ifs at h with e
    cases h
    exact ⟨Nat.le_refl _, fun e' => absurd e' e⟩
  | succ room ih =>
    rw [fillBlock] at h
    split_ifs at h with e
    · simp only [bind_eq_ok] at h
      obtain ⟨⟨ls, rib1, next1, route1'⟩, hf, h⟩ := h
      cases h
      obtain ⟨hle, hlt⟩ := ih hf
      cases pullHead_length rib with
      | inl hp =>
        rw [hp] at hf hle hlt
        refine ⟨hle, fun _ => ?_⟩
        by_cases he : emptyPtr = route1
        · exact hlt he
        · rw [fillBlock_other he] at hf
          cases hf
          exact .inl rfl
      | inr hp =>
        have hlt := Nat.lt_of_le_of_lt hle hp
        exact ⟨hlt.le, fun _ => .inr hlt⟩
    · cases h
      exact ⟨Nat.le_refl _, fun e' => absurd e' e⟩

section
variable {o : Outlet} {heap : Ptr → Route} {t : Bigtable}

/-- Rounds beyond the number of journal entries are never used: the number of rounds only
makes the loop a total function. -/
theorem phase3Loop_rounds {f g addrref : Nat} {route2 : Ptr} {rib : Rib} {e : Egress}
    (hf : rib.journal.queue.length < f) (hg : rib.journal.queue.length < g) :
    phase3Loop o heap t f addrref route2 rib e = phase3Loop o heap t g addrref route2 rib e := by
  induction f generalizing g addrref route2 rib e with
  | zero => exact absurd hf (Nat.not_lt_zero _)
  | succ f ih =>
    obtain ⟨g, rfl⟩ : ∃ k, g = k + 1 := ⟨g - 1, by omega⟩
    have hstart : (if emptyPtr = route2 then pullHead rib
        else (addrref, route2, rib)).2.2.journal.queue.length ≤ rib.journal.queue.length := by
      split_ifs
      · cases pullHead_length rib with
        | inl hp => rw [hp]
        | inr hp => exact hp.le
      · exact Nat.le_refl _
    rw [phase3Loop, phase3Loop]
    generalize (if emptyPtr = route2 then pullHead rib else (addrref, route2, rib)) = start
      at hstart
    obtain ⟨a, route1, rib1⟩ := start
    simp only at hstart ⊢
    split_ifs
    · rfl
    · cases hr : phase3Round o heap t a route1 rib1 e with
      | error halt => rfl
      | ok out =>
        obtain ⟨next, route, rib2, e2⟩ := out
        simp only [phase3Round, bind_eq_ok] at hr
        obtain ⟨⟨indices, rib3, next1, route3⟩, hfill, _, _, hr⟩ := hr
        cases hr
        change (if journalEmpty ≠ next1 then phase3Loop o heap t f next1 route3 rib3 e2
            else .ok (rib3, e2)) =
          if journalEmpty ≠ next1 then phase3Loop o heap t g next1 route3 rib3 e2
            else .ok (rib3, e2)
        split_ifs with hnext
        · have hlt := ((fillBlock_length hfill).2 rfl).resolve_left (Ne.symm hnext)
          exact ih (by omega) (by omega)
        · rfl

/-- The journal has fewer than `BIG` entries, so `schedule_phase3` has rounds enough. -/
theorem phase3Loop_big {rounds addrref : Nat} {route2 : Ptr} {rib : Rib} {e : Egress}
    (h : big ≤ rounds) :
    phase3Loop o heap t rounds addrref route2 rib e =
      phase3Loop o heap t big addrref route2 rib e := by
  have hlt : rib.journal.queue.length < big := by
    rw [Ring.queue_length]
    exact rib.journal.size_lt
  exact phase3Loop_rounds (Nat.lt_of_lt_of_le hlt h) hlt

/-- Whatever the journal holds, phase 3 leaves the heads alone. -/
theorem phase3Loop_head {fuel addrref : Nat} {route2 : Ptr} {rib rib' : Rib} {e e' : Egress}
    (h : phase3Loop o heap t fuel addrref route2 rib e = .ok (rib', e')) :
    rib'.head = rib.head := by
  induction fuel generalizing addrref route2 rib e with
  | zero => simp [phase3Loop] at h
  | succ fuel ih =>
    have hstart : (if emptyPtr = route2 then pullHead rib else (addrref, route2, rib)).2.2.head =
        rib.head := by
      split_ifs
      · exact pullHead_head rib
      · rfl
    rw [phase3Loop] at h
    generalize (if emptyPtr = route2 then pullHead rib else (addrref, route2, rib)) = start
      at h hstart
    obtain ⟨a, route1, rib1⟩ := start
    simp only at h hstart
    split_ifs at h
    · cases h
      exact hstart
    · rw [bind_eq_ok] at h
      obtain ⟨⟨next, route, rib2, e2⟩, hr, h⟩ := h
      simp only [phase3Round, bind_eq_ok] at hr
      obtain ⟨⟨indices, rib3, next1, route3⟩, hf, e3, he, hr⟩ := hr
      cases hr
      have h2 := (fillBlock_head hf).trans hstart
      simp only at h
      split_ifs at h
      · exact (ih h).trans h2
      · cases h
        exact h2

theorem schedulePhase3_head {hard : Bool} {gate gate' : Gate} {rib rib' : Rib} {e e' : Egress}
    (h : schedulePhase3 o heap t hard gate rib e = .ok (gate', rib', e')) :
    rib'.head = rib.head := by
  rw [schedulePhase3] at h
  split_ifs at h
  · cases h
    rfl
  · rw [assert_bind_ok, bind_eq_ok] at h
    obtain ⟨_, ⟨rib1, e1⟩, hl, h⟩ := h
    rw [assert_bind_ok] at h
    obtain ⟨_, h⟩ := h
    cases h
    exact phase3Loop_head hl

theorem emitBlock_ok {route1 : Ptr} {indices : List Nat} {e e' : Egress}
    (h : emitBlock o heap t route1 indices e = .ok e') :
    e'.propagatedPrefixes = e.propagatedPrefixes + indices.length ∧
      e'.blocks = ⟨route1, indices⟩ :: e.blocks := by
  simp only [emitBlock, bind_eq_ok] at h
  obtain ⟨tx, _, e⟩ := h
  cases e
  exact ⟨rfl, rfl⟩

/-- One block is collected up to where the inner loop stops, and recorded. -/
theorem phase3Round_spec {route1 : Ptr} {addrref next : Nat} {route : Ptr} {rib rib' : Rib}
    {e e' : Egress} (h1 : route1 ≠ emptyPtr) (hn : ∀ a ∈ rib.journal.queue, a ≠ journalEmpty)
    (h : phase3Round o heap t addrref route1 rib e = .ok (next, route, rib', e')) :
    ∃ taken, (∀ a ∈ taken, rib.head a = route1) ∧ Stopped rib taken rib' next route ∧
      route ≠ route1 ∧
      e'.propagatedPrefixes = e.propagatedPrefixes + (taken.length + 1) ∧
      e'.blocks = ⟨route1, addrref :: taken⟩ :: e.blocks := by
  simp only [phase3Round, bind_eq_ok] at h
  obtain ⟨⟨indices, rib1, next1, route2⟩, hf, e1, he, h⟩ := h
  cases h
  obtain ⟨taken, rfl, hall, hstop, hne⟩ := fillBlock_spec h1 hn hf
  obtain ⟨hprop, hblocks⟩ := emitBlock_ok he
  exact ⟨taken, hall, hstop, hne, hprop, hblocks⟩

/-- The journal content `indices` has left. -/
structure Drained (rib : Rib) (e : Egress) (indices : List Nat) (rib' : Rib) (e' : Egress) :
    Prop where
  queue : rib'.journal.queue = []
  head : rib'.head = rib.head
  flag : ∀ a, (rib'.locrib a).pushFlag = true ↔
    (rib.locrib a).pushFlag = true ∧ a ∉ rib.journal.queue
  blocks : e'.blocks = (blocksOf rib.head indices).reverse ++ e.blocks
  propagated : e'.propagatedPrefixes = e.propagatedPrefixes + indices.length

/-- A round entered with an index read ahead, and all rounds after it. -/
theorem phase3Loop_ahead {fuel : Nat} {addrref : Nat} {rib rib' : Rib} {e e' : Egress}
    (hn : ∀ a ∈ rib.journal.queue, a ≠ journalEmpty) (ha : addrref ≠ journalEmpty)
    (hhead : ∀ a, rib.head a ≠ emptyPtr)
    (h : phase3Loop o heap t fuel addrref (rib.head addrref) rib e = .ok (rib', e')) :
    Drained rib e (addrref :: rib.journal.queue) rib' e' := by
  induction fuel generalizing addrref rib e with
  | zero => simp [phase3Loop] at h
  | succ fuel ih =>
    rw [phase3Loop, if_neg (hhead addrref).symm] at h
    simp only [if_neg ha.symm, bind_eq_ok] at h
    obtain ⟨⟨next, route, rib1, e1⟩, hround, h⟩ := h
    obtain ⟨taken, hall, hstop, hne, hprop, hblocks⟩ := phase3Round_spec (hhead addrref) hn hround
    cases hstop with
    | inl hs =>
      obtain ⟨rfl, hq, hq', hc⟩ := hs
      simp only [ne_eq, not_true, if_false] at h
      cases h
      refine ⟨hq', hc.head, ?_, ?_, ?_⟩
      · rw [hq]
        exact hc.flag
      · rw [hq, hblocks, blocksOf_const hall]
        rfl
      · rw [hprop, hq, List.length_cons]
    | inr hs =>
      obtain ⟨hnext, hq, rfl, hc⟩ := hs
      simp only [ne_eq, hnext.symm, not_false_eq_true, if_true] at h
      have hn1 : ∀ a ∈ rib1.journal.queue, a ≠ journalEmpty := by
        intro a ha
        exact hn a (by simp [hq, ha])
      rw [← hc.head] at h
      have hd := ih hn1 hnext (hc.heads_ne hhead) h
      refine ⟨hd.queue, hd.head.trans hc.head, ?_, ?_, ?_⟩
      · intro a
        rw [hd.flag, hc.flag, hq]
        simp only [List.mem_append, List.mem_cons, List.not_mem_nil, or_false, not_or]
        constructor
        · rintro ⟨⟨h1, h2, h3⟩, h4⟩
          exact ⟨h1, h2, h3, h4⟩
        · rintro ⟨h1, h2, h3, h4⟩
          exact ⟨⟨h1, h2, h3⟩, h4⟩
      · rw [hd.blocks, hblocks, hc.head, hq, ← List.cons_append, blocksOf_append_cons hall hne]
        simp
      · rw [hd.propagated, hprop, hq, List.length_cons, List.length_cons, List.length_append,
          List.length_cons]
        omega

/-- The first round is the round that starts with the first entry read ahead. -/
theorem phase3Loop_primed {fuel a : Nat} {rest : List Nat} {rib : Rib} {e : Egress}
    (hq : rib.journal.queue = a :: rest) (ha : a ≠ journalEmpty)
    (hhead : ∀ a, rib.head a ≠ emptyPtr) :
    ∃ rib1, rib1.journal.queue = rest ∧ Cleared rib [a] rib1 ∧
      phase3Loop o heap t (fuel + 1) journalEmpty emptyPtr rib e =
        phase3Loop o heap t (fuel + 1) a (rib1.head a) rib1 e := by
  obtain ⟨rib1, hp, hrest, hc⟩ := pullHead_cons hq ha
  refine ⟨rib1, hrest, hc, ?_⟩
  rw [phase3Loop, phase3Loop, if_pos rfl, hp, hc.head, if_neg (hhead a).symm]

theorem phase3Loop_start {rounds fuel : Nat} {rib rib' : Rib} {e e' : Egress}
    (hf : rounds = fuel + 1) (hn : ∀ a ∈ rib.journal.queue, a ≠ journalEmpty)
    (hhead : ∀ a, rib.head a ≠ emptyPtr)
    (h : phase3Loop o heap t rounds journalEmpty emptyPtr rib e = .ok (rib', e')) :
    Drained rib e rib.journal.queue rib' e' := by
  subst hf
  cases hq : rib.journal.queue with
  | nil =>
    rw [phase3Loop, if_pos rfl, pullHead_nil hq] at h
    simp only [if_true] at h
    cases h
    exact ⟨hq, rfl, by simp [hq], by simp [blocksOf_nil], rfl⟩
  | cons a rest =>
    have ha : a ≠ journalEmpty := hn a (by simp [hq])
    obtain ⟨rib1, hrest, hc, hprimed⟩ := phase3Loop_primed hq ha hhead
    rw [hprimed] at h
    have hn1 : ∀ b ∈ rib1.journal.queue, b ≠ journalEmpty := by
      intro b hb
      exact hn b (by simp [hq, ← hrest, hb])
    have hd := phase3Loop_ahead hn1 ha (hc.heads_ne hhead) h
    refine ⟨hd.queue, hd.head.trans hc.head, ?_, ?_, ?_⟩
    · intro b
      rw [hd.flag, hc.flag, hq, hrest]
      simp [and_assoc]
    · rw [hd.blocks, hc.head, hrest]
    · rw [hd.propagated, hrest]

/-- The whole of `schedule_phase3`, when no other thread is in it. -/
theorem schedulePhase3_drained {hard : Bool} {gate gate' : Gate} {rib rib' : Rib} {e e' : Egress}
    (hg : gate = gateInit) (hn : ∀ a ∈ rib.journal.queue, a ≠ journalEmpty)
    (hhead : ∀ a, rib.head a ≠ emptyPtr)
    (h : schedulePhase3 o heap t hard gate rib e = .ok (gate', rib', e')) :
    gate' = gateInit ∧ Drained rib e rib.journal.queue rib' e' := by
  subst hg
  rw [schedulePhase3, if_neg (by simp [gateInit]), assert_bind_ok] at h
  obtain ⟨_, h⟩ := h
  rw [bind_eq_ok] at h
  obtain ⟨⟨rib1, e1⟩, hl, h⟩ := h
  rw [assert_bind_ok] at h
  obtain ⟨_, h⟩ := h
  cases h
  have hb : big = 999999 + 1 := rfl
  exact ⟨rfl, phase3Loop_start hb hn hhead hl⟩

end

end FastParse
