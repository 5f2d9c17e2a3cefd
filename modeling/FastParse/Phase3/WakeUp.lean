import FastParse.Phase3.Schedule

namespace FastParse

open Framework

/-- Where a thread stands in `locrib` and `schedule_phase3`. -/
inductive Place where
  | outside
  /-- the entry of `LOCRIB` is updated, the push is next -/
  | pushing (addrref : Nat)
  /-- pushed at the end of a block, the trylock is next -/
  | scheduling
  /-- under `phase3_spinlock`, a pull is next -/
  | draining
  /-- an index pulled, `read_and_clear` is next -/
  | reading (addrref : Nat)
  /-- the journal was found empty, the unlock is next -/
  | stopping
  deriving DecidableEq

/-- Whether the thread will still look into the journal. -/
def Place.Attending (p : Place) : Prop := p ≠ .outside ∧ p ≠ .stopping

/-- Whether the thread holds `phase3_spinlock`. -/
def Place.Holding : Place → Prop
  | .draining | .reading _ | .stopping => True
  | _ => False

structure PeerThreads (ι : Type) where
  rib : Rib
  gate : Gate
  place : ι → Place

/-- A thread calls `locrib` at the end of a block, or takes its next step. -/
inductive PeerTurn (ι : Type) where
  | enter (i : ι) (tb : Ptr → Tiebreak) (addrref : Nat) (new : Ptr) (update junk : Bool)
  | go (i : ι)

namespace PeerThreads

section
variable {ι : Type}

def init : PeerThreads ι := ⟨locribInit, gateInit, fun _ => .outside⟩

/-- No thread is inside `locrib` or `schedule_phase3`. -/
def AllOutside (s : PeerThreads ι) : Prop := ∀ i, s.place i = .outside

/-- The step does not give up on an entry: no trylock finds the lock busy with an entry in the
journal while every other thread is outside or on its way out. -/
def KeepsWork (s : PeerThreads ι) : PeerTurn ι → Prop
  | .enter .. => True
  | .go i => ¬ (s.place i = .scheduling ∧ s.gate.locked = true ∧ s.rib.journal.queue ≠ [] ∧
      ∀ j, j ≠ i → s.place j = .outside ∨ s.place j = .stopping)

/-- An entry in the journal has a thread that will look for it. -/
structure Attended (s : PeerThreads ι) : Prop where
  named : ∀ a ∈ s.rib.journal.queue, a ≠ journalEmpty
  queued : s.rib.journal.queue ≠ [] → ∃ i, (s.place i).Attending

/-- The lock has one holder, and `phase3_debug` counts it. -/
structure Guarded (s : PeerThreads ι) : Prop where
  holder : s.gate.locked = true ↔ ∃ i, (s.place i).Holding
  unique : ∀ i j, (s.place i).Holding → (s.place j).Holding → i = j
  debug : s.gate.debug = if s.gate.locked then 1 else 0

theorem init_attended : (init : PeerThreads ι).Attended := by
  have hq : (init : PeerThreads ι).rib.journal.queue = [] := Ring.queue_init _ _
  refine ⟨?_, fun hne => absurd hq hne⟩
  intro a ha
  simp [hq] at ha

theorem init_guarded : (init : PeerThreads ι).Guarded := by
  refine ⟨?_, ?_, rfl⟩
  · constructor
    · intro hl
      cases hl
    · intro hi
      obtain ⟨i, hi⟩ := hi
      exact absurd hi id
  · intro i j hi
    exact absurd hi id

end

variable {ι : Type} [DecidableEq ι]

/-- A thread outside enters, one inside goes on to its next step. -/
def step (s : PeerThreads ι) : PeerTurn ι → Exec (PeerThreads ι)
  | .enter i tb addrref new update junk =>
    match s.place i with
    | .outside =>
      let (lre, pushFlag) := locribSection tb (s.rib.locrib addrref) new update junk
      return { s with
        rib := ⟨Function.update s.rib.locrib addrref lre, s.rib.journal⟩
        place := Function.update s.place i (if pushFlag then .outside else .pushing addrref) }
    | _ => return s
  | .go i =>
    match s.place i with
    | .outside => return s
    | .pushing addrref => do
      let journal ← locribjPush s.rib.journal addrref
      return { s with
        rib := { s.rib with journal }
        place := Function.update s.place i .scheduling }
    | .scheduling =>
      if s.gate.locked then return { s with place := Function.update s.place i .outside }
      else do
        assert (0 = s.gate.debug)
        return { s with
          gate := ⟨true, s.gate.debug + 1⟩
          place := Function.update s.place i .draining }
    | .draining =>
      let (addrref, journal) := locribjPull s.rib.journal
      return { s with
        rib := { s.rib with journal }
        place := Function.update s.place i
          (if addrref = journalEmpty then .stopping else .reading addrref) }
    | .reading addrref =>
      let (_, rib) := readAndClear s.rib addrref
      return { s with rib, place := Function.update s.place i .draining }
    | .stopping => do
      assert (1 = s.gate.debug)
      return { s with
        gate := ⟨false, s.gate.debug - 1⟩
        place := Function.update s.place i .outside }

inductive Moved (s : PeerThreads ι) : PeerTurn ι → PeerThreads ι → Prop
  | idle (e : PeerTurn ι) : Moved s e s
  | entered (i : ι) (tb : Ptr → Tiebreak) (a : Nat) (new : Ptr) (update junk : Bool)
      (locrib : Nat → LocribEntry) (p : Place) : s.place i = .outside →
      p = .outside ∨ p = .pushing a →
      Moved s (.enter i tb a new update junk) { s with
        rib := ⟨locrib, s.rib.journal⟩
        place := Function.update s.place i p }
  | pushed (i : ι) (a : Nat) (j : Journal) : s.place i = .pushing a → a ≠ journalEmpty →
      j.queue = s.rib.journal.queue ++ [a] →
      Moved s (.go i) { s with
        rib := { s.rib with journal := j }
        place := Function.update s.place i .scheduling }
  | busy (i : ι) : s.place i = .scheduling → s.gate.locked = true →
      Moved s (.go i) { s with place := Function.update s.place i .outside }
  | locked (i : ι) : s.place i = .scheduling → s.gate.locked = false →
      Moved s (.go i) { s with
        gate := ⟨true, s.gate.debug + 1⟩
        place := Function.update s.place i .draining }
  | dry (i : ι) : s.place i = .draining → s.rib.journal.queue = [] →
      Moved s (.go i) { s with place := Function.update s.place i .stopping }
  | pulled (i : ι) (a : Nat) (j : Journal) : s.place i = .draining →
      s.rib.journal.queue = a :: j.queue →
      Moved s (.go i) { s with
        rib := { s.rib with journal := j }
        place := Function.update s.place i (.reading a) }
  | read (i : ι) (a : Nat) : s.place i = .reading a →
      Moved s (.go i) { s with
        rib := (readAndClear s.rib a).2
        place := Function.update s.place i .draining }
  | unlocked (i : ι) : s.place i = .stopping → s.gate.debug = 1 →
      Moved s (.go i) { s with
        gate := ⟨false, 0⟩
        place := Function.update s.place i .outside }

theorem step_moved {s s' : PeerThreads ι} {e : PeerTurn ι}
    (hn : ∀ a ∈ s.rib.journal.queue, a ≠ journalEmpty) (h : s.step e = .ok s') :
    s.Moved e s' := by
  cases e with
  | enter i tb a new update junk =>
    cases hp : s.place i with
    | outside =>
      simp only [step, hp] at h
      cases h
      apply Moved.entered _ _ _ _ _ _ _ _ hp
      split_ifs
      · exact .inl rfl
      · exact .inr rfl
    | _ =>
      simp only [step, hp] at h
      cases h
      exact .idle _
  | go i =>
    cases hp : s.place i with
    | outside =>
      simp only [step, hp] at h
      cases h
      exact .idle _
    | pushing a =>
      simp only [step, hp, bind_eq_ok] at h
      obtain ⟨j, hj, h⟩ := h
      cases h
      obtain ⟨ha, hq⟩ := locribjPush_ok hj
      exact .pushed i a j hp ha hq
    | scheduling =>
      simp only [step, hp] at h
      split_ifs at h with hl
      · cases h
        exact .busy i hp hl
      · rw [assert_bind_ok] at h
        obtain ⟨_, h⟩ := h
        cases h
        exact .locked i hp (by simpa using hl)
    | draining =>
      cases hq : s.rib.journal.queue with
      | nil =>
        simp only [step, hp, locribjPull_nil hq] at h
        cases h
        exact .dry i hp hq
      | cons a rest =>
        obtain ⟨j, hj, hrest⟩ := locribjPull_cons hq
        have ha : a ≠ journalEmpty := hn a (by simp [hq])
        simp only [step, hp, hj, if_neg ha] at h
        cases h
        exact .pulled i a j hp (by rw [hq, hrest])
    | reading a =>
      simp only [step, hp] at h
      cases h
      exact .read i a hp
    | stopping =>
      simp only [step, hp] at h
      rw [assert_bind_ok] at h
      obtain ⟨hd, h⟩ := h
      cases h
      rw [← hd]
      exact .unlocked i hp hd.symm

/-- A thread that attends stays while another one moves. -/
theorem attending_update {s : PeerThreads ι} {i j : ι} (p : Place) (hj : (s.place j).Attending)
    (hi : ¬ (s.place i).Attending) : (Function.update s.place i p j).Attending := by
  have hne : j ≠ i := fun e => hi (e ▸ hj)
  rwa [Function.update_of_ne hne]

theorem attending_self (s : PeerThreads ι) (i : ι) {p : Place} (hp : p.Attending) :
    ∃ j, (Function.update s.place i p j).Attending :=
  ⟨i, by rwa [Function.update_self]⟩

/-- Every step but one that gives up keeps the entries attended. -/
theorem Attended.moved {s s' : PeerThreads ι} {e : PeerTurn ι} (h : s.Attended)
    (hok : s.KeepsWork e) (hm : s.Moved e s') : s'.Attended := by
  cases hm with
  | idle => exact h
  | entered i tb a new update junk locrib p hi hp =>
    refine ⟨h.named, ?_⟩
    intro hq
    obtain ⟨j, hj⟩ := h.queued hq
    exact ⟨j, attending_update p hj (by simp [hi, Place.Attending])⟩
  | pushed i a j hi ha hq =>
    refine ⟨?_, fun _ => attending_self s i (by simp [Place.Attending])⟩
    intro b hb
    simp only [hq, List.mem_append, List.mem_singleton] at hb
    cases hb with
    | inl hb => exact h.named b hb
    | inr hb => exact hb ▸ ha
  | busy i hi hl =>
    refine ⟨h.named, ?_⟩
    intro hq
    -- somebody other than `i` is still on the way to a pull
    have hother : ¬ ∀ j, j ≠ i → s.place j = .outside ∨ s.place j = .stopping :=
      fun hall => hok ⟨hi, hl, hq, hall⟩
    simp only [not_forall, not_or] at hother
    obtain ⟨j, hne, hj⟩ := hother
    refine ⟨j, ?_⟩
    show (Function.update s.place i .outside j).Attending
    rwa [Function.update_of_ne hne]
  | locked i hi hl =>
    exact ⟨h.named, fun _ => attending_self s i (by simp [Place.Attending])⟩
  | dry i hi hq => exact ⟨h.named, fun hne => absurd hq hne⟩
  | pulled i a j hi hq =>
    refine ⟨?_, fun _ => attending_self s i (by simp [Place.Attending])⟩
    intro b hb
    apply h.named
    rw [hq]
    exact List.mem_cons_of_mem a hb
  | read i a hi => exact ⟨h.named, fun _ => attending_self s i (by simp [Place.Attending])⟩
  | unlocked i hi hd =>
    refine ⟨h.named, ?_⟩
    intro hq
    obtain ⟨j, hj⟩ := h.queued hq
    exact ⟨j, attending_update .outside hj (by simp [hi, Place.Attending])⟩

/-- A step of a thread that neither takes nor gives up the lock. -/
theorem Guarded.keep {s : PeerThreads ι} (h : s.Guarded) {i : ι} {p : Place} (rib : Rib)
    (hp : p.Holding ↔ (s.place i).Holding) :
    Guarded { s with rib := rib, place := Function.update s.place i p } := by
  have hold : ∀ j, (Function.update s.place i p j).Holding ↔ (s.place j).Holding := by
    intro j
    by_cases e : j = i
    · rw [e, Function.update_self]
      exact hp
    · rw [Function.update_of_ne e]
  refine ⟨?_, ?_, h.debug⟩
  · rw [h.holder]
    exact exists_congr fun j => (hold j).symm
  · intro j k hj hk
    exact h.unique j k ((hold j).mp hj) ((hold k).mp hk)

theorem Guarded.moved {s s' : PeerThreads ι} {e : PeerTurn ι} (h : s.Guarded)
    (hm : s.Moved e s') : s'.Guarded := by
  cases hm with
  | idle => exact h
  | entered i tb a new update junk locrib p hi hp =>
    apply h.keep
    rw [hi]
    rcases hp with rfl | rfl <;> exact Iff.rfl
  | pushed i a j hi ha hq => exact h.keep _ (by rw [hi]; exact Iff.rfl)
  | busy i hi hl => exact h.keep _ (by rw [hi]; exact Iff.rfl)
  | dry i hi hq => exact h.keep _ (by rw [hi]; exact Iff.rfl)
  | pulled i a j hi hq => exact h.keep _ (by rw [hi]; exact Iff.rfl)
  | read i a hi => exact h.keep _ (by rw [hi]; exact Iff.rfl)
  | locked i hi hl =>
    have hfree : ∀ j, ¬ (s.place j).Holding := by
      intro j hj
      have hl' := h.holder.mpr ⟨j, hj⟩
      rw [hl] at hl'
      cases hl'
    have honly : ∀ j, (Function.update s.place i .draining j).Holding → j = i := by
      intro j hj
      by_contra e
      rw [Function.update_of_ne e] at hj
      exact hfree j hj
    refine ⟨?_, ?_, ?_⟩
    · refine ⟨fun _ => ⟨i, ?_⟩, fun _ => rfl⟩
      show (Function.update s.place i .draining i).Holding
      rw [Function.update_self]
      trivial
    · intro j k hj hk
      exact (honly j hj).trans (honly k hk).symm
    · have hd := h.debug
      rw [hl] at hd
      simpa using hd
  | unlocked i hi hd =>
    have hhold : (s.place i).Holding := by
      rw [hi]
      trivial
    have hnone : ∀ j, ¬ (Function.update s.place i .outside j).Holding := by
      intro j hj
      by_cases e : j = i
      · rw [e, Function.update_self] at hj
        exact hj
      · rw [Function.update_of_ne e] at hj
        exact e (h.unique j i hj hhold)
    refine ⟨?_, ?_, rfl⟩
    · constructor
      · intro hl
        cases hl
      · intro hj
        obtain ⟨j, hj⟩ := hj
        exact absurd hj (hnone j)
    · intro j k hj
      exact absurd hj (hnone j)

/-- After a step that gives up, the lock holder leaves and nobody is left. -/
theorem gives_up {s s' : PeerThreads ι} {e : PeerTurn ι} (hg : s.Guarded)
    (hok : ¬ s.KeepsWork e) (h : s.step e = .ok s') :
    ∃ e' t, s'.step e' = .ok t ∧ t.AllOutside ∧ t.rib.journal.queue ≠ [] := by
  cases e with
  | enter => exact absurd trivial hok
  | go i =>
    obtain ⟨hi, hl, hq, hall⟩ := not_not.mp hok
    obtain ⟨j, hj⟩ := hg.holder.mp hl
    have hne : j ≠ i := by
      intro e
      rw [e, hi] at hj
      exact hj
    have hstop : s.place j = .stopping := by
      cases hall j hne with
      | inl e =>
        rw [e] at hj
        exact absurd hj id
      | inr e => exact e
    have hs' : s' = { s with place := Function.update s.place i .outside } := by
      simp only [step, hi, if_pos hl] at h
      exact (Except.ok.inj h).symm
    have hdebug : s.gate.debug = 1 := by
      rw [hg.debug, if_pos hl]
    have hj' : Function.update s.place i .outside j = .stopping := by
      rw [Function.update_of_ne hne, hstop]
    refine ⟨.go j, { s' with
      gate := ⟨false, 0⟩
      place := Function.update s'.place j .outside }, ?_, ?_, ?_⟩
    · rw [hs']
      simp only [step, hj', hdebug]
      rfl
    · intro k
      rw [hs']
      show Function.update (Function.update s.place i .outside) j .outside k = .outside
      by_cases ek : k = j
      · rw [ek, Function.update_self]
      · rw [Function.update_of_ne ek]
        by_cases ei : k = i
        · rw [ei, Function.update_self]
        · rw [Function.update_of_ne ei]
          cases hall k ei with
          | inl e => exact e
          | inr e =>
            have hk : (s.place k).Holding := by
              rw [e]
              trivial
            exact absurd (hg.unique k j hk hj) ek
    · rw [hs']
      exact hq

/-- In a run no step of which gives up on an entry, the journal is empty whenever nobody is
inside; and a step that does give up leads to a state with nobody inside and an entry left. -/
theorem no_lost_wakeup (turns : List (PeerTurn ι)) (s : PeerThreads ι)
    (hok : StepsOk step KeepsWork init turns) (hr : turns.foldlM step init = .ok s) :
    (s.AllOutside → s.rib.journal.queue = []) ∧
    ∀ e s', ¬ s.KeepsWork e → s.step e = .ok s' →
      ∃ e' t, s'.step e' = .ok t ∧ t.AllOutside ∧ t.rib.journal.queue ≠ [] := by
  have hs : s.Attended ∧ s.Guarded := by
    refine run_invariant (I := fun s => s.Attended ∧ s.Guarded) ?_
      ⟨init_attended, init_guarded⟩ hok hr
    intro s e t hs hok hst
    have hm := step_moved hs.1.named hst
    exact ⟨hs.1.moved hok hm, hs.2.moved hm⟩
  refine ⟨?_, ?_⟩
  · intro hall
    by_contra hne
    obtain ⟨i, hi⟩ := hs.1.queued hne
    exact hi.1 (hall i)
  · intro e s' hno hst
    exact gives_up hs.2 hno hst

instance (s : PeerThreads (Fin 2)) : ∀ e, Decidable (s.KeepsWork e)
  | .enter .. => isTrue trivial
  | .go _ => inferInstanceAs (Decidable (¬ _))

/-- Thread 0 drains the journal; thread 1 pushes while it reads, and its trylock is met by a
consumer that still has to pull. -/
def inTime : List (PeerTurn (Fin 2)) :=
  [.enter 0 (fun _ => ⟨0, 0, 0, 0, 0, 0, 0, 0⟩) 7 256 true false, .go 0, .go 0, .go 0,
    .enter 1 (fun _ => ⟨0, 0, 0, 0, 0, 0, 0, 0⟩) 8 256 true false, .go 1, .go 1,
    .go 0, .go 0, .go 0, .go 0, .go 0]

theorem no_lost_wakeup_in_time :
    ∃ s, inTime.foldlM step init = .ok s ∧ s.AllOutside ∧ s.rib.journal.queue = [] := by
  have hr : (inTime.foldlM step init).map (fun s => (s.place 0, s.place 1)) =
      .ok (.outside, .outside) := by decide
  obtain ⟨s, hs, e⟩ := exists_of_map_eq_ok hr
  obtain ⟨h0, h1⟩ := Prod.mk.inj e
  have hall : s.AllOutside := by
    intro i
    match i with
    | 0 => exact h0
    | 1 => exact h1
  exact ⟨s, hs, hall, (no_lost_wakeup inTime s (by decide) hs).1 hall⟩

/-- Thread 1 pushes after the last pull of thread 0 and finds the lock still held. -/
def tooLate : List (PeerTurn (Fin 2)) :=
  [.enter 0 (fun _ => ⟨0, 0, 0, 0, 0, 0, 0, 0⟩) 7 256 true false, .go 0, .go 0, .go 0, .go 0,
    .go 0, .enter 1 (fun _ => ⟨0, 0, 0, 0, 0, 0, 0, 0⟩) 8 256 true false, .go 1, .go 1, .go 0]

/-- Index 8 is left in the journal with nobody to take it. -/
theorem wakeup_lost :
    ∃ s, tooLate.foldlM step init = .ok s ∧ s.AllOutside ∧ s.rib.journal.queue ≠ [] := by
  have hr : (tooLate.foldlM step init).map
      (fun s => (s.place 0, s.place 1, s.rib.journal.queue)) =
      .ok (.outside, .outside, [8]) := by decide
  obtain ⟨s, hs, e⟩ := exists_of_map_eq_ok hr
  simp only [Prod.mk.injEq] at e
  obtain ⟨h0, h1, hq⟩ := e
  refine ⟨s, hs, ?_, ?_⟩
  · intro i
    match i with
    | 0 => exact h0
    | 1 => exact h1
  · rw [hq]
    simp

end PeerThreads

end FastParse
