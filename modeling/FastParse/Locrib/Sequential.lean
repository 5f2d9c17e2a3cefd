import FastParse.Locrib.Entry

namespace FastParse

open Framework

/-- The pair as a flagged queue with nothing in between: one writer without a pending
key, a reader without a taken one. -/
def Rib.flagged (rib : Rib) (seen : Nat → Ptr) : FlagQueue Nat Ptr Unit where
  value a := (rib.locrib a).head
  flag a := (rib.locrib a).pushFlag
  queue := rib.journal.queue
  pending _ := none
  taken := none
  seen := seen

def consume (rib : Rib) : Rib :=
  let (addrref, journal) := locribjPull rib.journal
  if addrref = journalEmpty then rib else (readAndClear { rib with journal } addrref).2

theorem flagged_init_exclusive : (locribInit.flagged fun _ => null).Exclusive := by
  have hq : locribInit.journal.queue = [] := Ring.queue_init _ _
  refine ⟨?_, ?_, ?_, ?_, ?_, ?_, ?_, ?_⟩ <;> simp [Rib.flagged, hq]

private theorem enqueue_step {b : Bool} {rib rib' : Rib} {a : Nat} {seen : Nat → Ptr}
    (hl : rib'.locrib = rib.locrib) (hj : locribjPush rib.journal a = .ok rib'.journal) :
    FlagQueue.Step b { rib.flagged seen with pending := fun _ => some a } (rib'.flagged seen) := by
  have h := @FlagQueue.Step.enqueue Nat Ptr Unit _ _ b
    { rib.flagged seen with pending := fun _ => some a } () a rfl
  have e : Function.update (fun _ : Unit => some a) () none = fun _ => none := by
    funext u
    simp
  simpa [Rib.flagged, hl, (locribjPush_ok hj).2, e] using h

/-- A call of `locrib` is a write of the flagged queue, and a queueing step unless the flag
was already up. A losing call that finds its local at false is a spurious request. -/
theorem locribUpdate_steps {b : Bool} {tb : Ptr → Tiebreak} {rib rib' : Rib} {a : Nat} {new : Ptr}
    {update junk pushed : Bool} (seen : Nat → Ptr)
    (hb : Pushes tb (rib.locrib a) new update ∨ junk = true ∨ b = true)
    (h : locribUpdate tb rib a new update junk = .ok (rib', pushed)) :
    Relation.ReflTransGen (FlagQueue.Step b) (rib.flagged seen) (rib'.flagged seen) := by
  have value (r : Rib) (hl : r.locrib = Function.update rib.locrib a ⟨new, true⟩) :
      (r.flagged seen).value = Function.update (rib.flagged seen).value a new ∧
      (r.flagged seen).flag = Function.update (rib.flagged seen).flag a true := by
    simp only [Rib.flagged, hl]
    exact ⟨heads_update rib.locrib a ⟨new, true⟩, flags_update rib.locrib a ⟨new, true⟩⟩
  have quiet (o : Option Nat) : Function.update (fun _ : Unit => none) () o = fun _ => o := by
    funext u
    simp
  rcases locribUpdate_cases h with ⟨-, hl, hc⟩ | ⟨hp, hl, hc⟩
  · obtain ⟨hv, hf⟩ := value rib' hl
    have hw := @FlagQueue.Step.write Nat Ptr Unit _ _ b (rib.flagged seen) () a new rfl
    rw [← hv, ← hf] at hw
    rcases hc with ⟨hflag, -, hj⟩ | ⟨hflag, -, hj⟩
    · apply Relation.ReflTransGen.single
      simpa [Rib.flagged, hflag, hj, quiet] using hw
    · have he := @enqueue_step b ⟨rib'.locrib, rib.journal⟩ rib' a seen rfl hj
      refine Relation.ReflTransGen.tail (Relation.ReflTransGen.single ?_) he
      simpa [Rib.flagged, hflag, quiet] using hw
  · rcases hc with ⟨-, -, hj⟩ | ⟨hjunk, -, hj⟩
    · rw [show rib' = rib by cases rib; cases rib'; simp_all]
    · have hb : b = true := by simp_all
      have he := @enqueue_step b rib rib' a seen hl hj
      refine Relation.ReflTransGen.tail (Relation.ReflTransGen.single ?_) he
      simpa [Rib.flagged, quiet] using FlagQueue.Step.request (rib.flagged seen) () a hb rfl

theorem readAndClear_steps {b : Bool} {rib : Rib} {a : Nat} {rest : List Nat} {j : Journal}
    (seen : Nat → Ptr) (hq : rib.journal.queue = a :: rest) (hj : j.queue = rest) :
    Relation.ReflTransGen (FlagQueue.Step b) (rib.flagged seen)
      ((readAndClear { rib with journal := j } a).2.flagged
        (Function.update seen a (rib.locrib a).head)) := by
  have ht := @FlagQueue.Step.take Nat Ptr Unit _ _ b (rib.flagged seen) a rest hq rfl
  have hr := @FlagQueue.Step.read Nat Ptr Unit _ _ b
    { rib.flagged seen with queue := rest, taken := some a } a rfl
  refine Relation.ReflTransGen.tail (Relation.ReflTransGen.single ht) ?_
  have hv := heads_update rib.locrib a { rib.locrib a with pushFlag := false }
  rw [Function.update_eq_self] at hv
  have hf := flags_update rib.locrib a { rib.locrib a with pushFlag := false }
  simpa [Rib.flagged, readAndClear, hj, hv, hf] using hr

/-- A call that announces a route, a call that withdraws one, or one turn of the consumer. -/
inductive RibOp where
  | announce (tb : Ptr → Tiebreak) (addrref : Nat) (new : { p : Ptr // p ≠ null }) (junk : Bool)
  | withdraw (tb : Ptr → Tiebreak) (addrref : Nat) (new : Ptr) (junk : Bool)
  | consume

def ribStep (rib : Rib) : RibOp → Exec Rib
  | .announce tb a new junk => do
    let (rib, _) ← locribUpdate tb rib a new.1 true junk
    return rib
  | .withdraw tb a new junk => do
    let (rib, _) ← locribUpdate tb rib a new false junk
    return rib
  | .consume => return consume rib

/-- A call adds a journal entry only if it changed the head under a clear flag. -/
def AddsOnChange (rib rib' : Rib) : RibOp → Prop
  | .announce _ a _ _ | .withdraw _ a _ _ => rib'.journal.queue ≠ rib.journal.queue →
      (rib'.locrib a).head ≠ (rib.locrib a).head ∧ (rib.locrib a).pushFlag = false
  | .consume => True

/-- The local `push_flag` is assigned by `push()` or happens to hold true, and a withdrawal
that matches the head finds the flag up. -/
def LocalFlagSet (rib : Rib) : RibOp → Prop
  | .announce tb a new junk => Pushes tb (rib.locrib a) new.1 true ∨ junk = true
  | .withdraw tb a new junk =>
      if Pushes tb (rib.locrib a) new false then (rib.locrib a).pushFlag = true else junk = true
  | .consume => True

instance (rib : Rib) : ∀ op, Decidable (LocalFlagSet rib op)
  | .announce _ _ _ _ => inferInstanceAs (Decidable (_ ∨ _))
  | .withdraw _ _ _ _ => by unfold LocalFlagSet; infer_instance
  | .consume => isTrue trivial

theorem consume_steps (b : Bool) (rib : Rib) (seen : Nat → Ptr) :
    ∃ seen', Relation.ReflTransGen (FlagQueue.Step b) (rib.flagged seen)
      ((consume rib).flagged seen') := by
  cases hq : rib.journal.queue with
  | nil =>
    refine ⟨seen, ?_⟩
    rw [consume, locribjPull_nil hq]
    exact .refl
  | cons a rest =>
    obtain ⟨j, hj, hrest⟩ := locribjPull_cons hq
    by_cases ha : a = journalEmpty
    · refine ⟨seen, ?_⟩
      rw [consume, hj]
      simp only [ha, if_true]
      exact .refl
    · refine ⟨Function.update seen a (rib.locrib a).head, ?_⟩
      rw [consume, hj]
      simp only [ha, if_false]
      exact readAndClear_steps seen hq hrest

theorem ribStep_steps {rib rib' : Rib} {op : RibOp} (seen : Nat → Ptr)
    (hok : LocalFlagSet rib op) (h : ribStep rib op = .ok rib') :
    ∃ seen', Relation.ReflTransGen (FlagQueue.Step false) (rib.flagged seen)
      (rib'.flagged seen') := by
  cases op with
  | announce tb a new junk =>
    rw [ribStep, bind_eq_ok] at h
    obtain ⟨⟨r, pushed⟩, hu, e⟩ := h
    cases e
    refine ⟨seen, locribUpdate_steps seen ?_ hu⟩
    rcases hok with hp | hj
    · exact .inl hp
    · exact .inr (.inl hj)
  | withdraw tb a new junk =>
    rw [ribStep, bind_eq_ok] at h
    obtain ⟨⟨r, pushed⟩, hu, e⟩ := h
    cases e
    refine ⟨seen, locribUpdate_steps seen ?_ hu⟩
    by_cases hp : Pushes tb (rib.locrib a) new false
    · exact .inl hp
    · exact .inr (.inl (by simpa [LocalFlagSet, hp] using hok))
  | consume =>
    cases h
    exact consume_steps false rib seen

theorem ribStep_exclusive {rib rib' : Rib} {op : RibOp} (hs : ∃ seen, (rib.flagged seen).Exclusive)
    (hok : LocalFlagSet rib op) (h : ribStep rib op = .ok rib') :
    ∃ seen, (rib'.flagged seen).Exclusive := by
  obtain ⟨seen, hx⟩ := hs
  obtain ⟨seen', hst⟩ := ribStep_steps seen hok h
  exact ⟨seen', hx.steps hst⟩

theorem push_changes {j j' : Journal} {a : Nat} (h : locribjPush j a = .ok j') :
    j'.queue ≠ j.queue := by
  rw [(locribjPush_ok h).2]
  simp

/-- The condition is exact: a call outside it queues an index whose head it left alone. -/
theorem addsOnChange_update {tb : Ptr → Tiebreak} {rib rib' : Rib} {a : Nat} {new : Ptr}
    {update junk pushed : Bool} (h : locribUpdate tb rib a new update junk = .ok (rib', pushed))
    (hne : Pushes tb (rib.locrib a) new update → update = true → new ≠ (rib.locrib a).head) :
    (rib'.journal.queue ≠ rib.journal.queue →
      (rib'.locrib a).head ≠ (rib.locrib a).head ∧ (rib.locrib a).pushFlag = false) ↔
    (if Pushes tb (rib.locrib a) new update then
      update = true ∨ (rib.locrib a).pushFlag = true else junk = true) := by
  rcases locribUpdate_cases h with ⟨hp, hl, hc⟩ | ⟨hp, hl, hc⟩
  · rw [if_pos hp, hl, Function.update_self]
    rcases hc with ⟨hf, -, hj⟩ | ⟨hf, -, hj⟩
    · simp [hj, hf]
    · cases update with
      | true => simp [hf, hne hp rfl]
      | false =>
        -- a matching withdrawal stores the head again
        have hm : (rib.locrib a).head = new := hp.2
        simp [push_changes hj, hf, hm]
  · rw [if_neg hp, hl]
    rcases hc with ⟨hjunk, -, hj⟩ | ⟨hjunk, -, hj⟩
    · simp [hj, hjunk]
    · simp [push_changes hj, hjunk]

theorem addsOnChange_iff {rib rib' : Rib} {op : RibOp} (h : ribStep rib op = .ok rib') :
    AddsOnChange rib rib' op ↔ LocalFlagSet rib op := by
  cases op with
  | announce tb a new junk =>
    rw [ribStep, bind_eq_ok] at h
    obtain ⟨⟨r, pushed⟩, hu, e⟩ := h
    cases e
    have hne : Pushes tb (rib.locrib a) new.1 true → true = true → new.1 ≠ (rib.locrib a).head := by
      -- a winner differs from the head: the head was NULL or has another record
      intro hp _ e
      rcases hp with hn | ht
      · exact new.2 (e.trans hn)
      · exact tiebreaker_iff.mp ht (congrArg tb e)
    have e := addsOnChange_update hu hne
    by_cases hp : Pushes tb (rib.locrib a) new.1 true
    · simpa [AddsOnChange, LocalFlagSet, hp] using e
    · simpa [AddsOnChange, LocalFlagSet, hp] using e
  | withdraw tb a new junk =>
    rw [ribStep, bind_eq_ok] at h
    obtain ⟨⟨r, pushed⟩, hu, e⟩ := h
    cases e
    have e := addsOnChange_update hu (fun _ hf => absurd hf (by decide))
    by_cases hp : Pushes tb (rib.locrib a) new false
    · simpa [AddsOnChange, LocalFlagSet, hp] using e
    · simpa [AddsOnChange, LocalFlagSet, hp] using e
  | consume => exact ⟨fun _ => trivial, fun _ => trivial⟩

/-- In a run whose calls all meet the condition no index is queued twice, and then exactly
the calls that meet it add an entry only for a changed head under a clear flag. -/
theorem journal_unique (ops : List RibOp) (rib : Rib)
    (hok : StepsOk ribStep LocalFlagSet locribInit ops)
    (hr : ops.foldlM ribStep locribInit = .ok rib) :
    rib.journal.queue.Nodup ∧
    ∀ op rib', ribStep rib op = .ok rib' → (AddsOnChange rib rib' op ↔ LocalFlagSet rib op) := by
  have h := @run_invariant Halt Rib RibOp ribStep LocalFlagSet
    (fun rib => ∃ seen, (rib.flagged seen).Exclusive)
    (fun s op t hs ho hst => ribStep_exclusive hs ho hst) locribInit rib ops
    ⟨_, flagged_init_exclusive⟩ hok hr
  obtain ⟨_, hx⟩ := h
  exact ⟨hx.nodup, fun op rib' hst => addsOnChange_iff hst⟩

/-- Two announcements of one prefix whose routes differ in the record. -/
def twoWinners : List RibOp :=
  [.announce (fun p => ⟨0, 0, 0, p.toUInt32, 0, 0, 0, 0⟩) 5 ⟨256, by decide⟩ false,
    .announce (fun p => ⟨0, 0, 0, p.toUInt32, 0, 0, 0, 0⟩) 5 ⟨512, by decide⟩ false]

theorem journal_unique_winners :
    ∃ rib, twoWinners.foldlM ribStep locribInit = .ok rib ∧ rib.journal.queue.Nodup := by
  have hr : (twoWinners.foldlM ribStep locribInit).isOk = true := by decide
  cases h : twoWinners.foldlM ribStep locribInit with
  | error e => simp [h, Except.isOk, Except.toBool] at hr
  | ok rib => exact ⟨rib, rfl, (journal_unique twoWinners rib (by decide) h).1⟩

/-- The second announcement loses against the first one and finds its local at false. -/
def winnerThenLoser : List RibOp :=
  [.announce (fun _ => ⟨0, 0, 0, 0, 0, 0, 0, 0⟩) 5 ⟨256, by decide⟩ false,
    .announce (fun _ => ⟨0, 0, 0, 0, 0, 0, 0, 0⟩) 5 ⟨512, by decide⟩ false]

/-- Index 5 is then queued twice. -/
theorem journal_duplicate :
    ∃ rib, winnerThenLoser.foldlM ribStep locribInit = .ok rib ∧ ¬ rib.journal.queue.Nodup := by
  have hr : (winnerThenLoser.foldlM ribStep locribInit).map (fun rib => rib.journal.queue) =
      .ok [5, 5] := by decide
  cases h : winnerThenLoser.foldlM ribStep locribInit with
  | error e => simp [h, Except.map] at hr
  | ok rib =>
    have hq : rib.journal.queue = [5, 5] := by simpa [h, Except.map] using hr
    exact ⟨rib, rfl, by simp [hq]⟩

end FastParse
