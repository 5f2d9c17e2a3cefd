import FastParse.Framework.Fifo
import FastParse.Locrib.Capacity

namespace FastParse

open Framework

/-- The journal, and what its pulls have returned so far. -/
structure JournalLog where
  journal : Journal
  returned : List Nat

def pushedBy (ops : List JournalOp) : List Nat :=
  ops.filterMap fun
    | .push a => some a
    | .pull => none

def fifoStep (q : Fifo Nat) : JournalOp → Fifo Nat
  | .push a => q.push a
  | .pull => q.pull

namespace JournalLog

/-- After `locribj_init`. -/
def init : JournalLog := ⟨locribjInit, []⟩

def step (s : JournalLog) : JournalOp → Exec JournalLog
  | .push a => do
    let journal ← locribjPush s.journal a
    return { s with journal }
  | .pull =>
    let (rval, journal) := locribjPull s.journal
    return ⟨journal, s.returned ++ [rval]⟩

def pulled (s : JournalLog) : List Nat := s.returned.filter (· ≠ journalEmpty)

/-- First in, first out: the values pulled are the first ones pushed, the next pull returns
the one after them, and `JOURNAL_EMPTY` exactly if there is none. -/
structure InOrder (s : JournalLog) (ops : List JournalOp) : Prop where
  pulled : s.pulled <+: pushedBy ops
  next : (locribjPull s.journal).1 = (pushedBy ops)[s.pulled.length]?.getD journalEmpty
  empty : (locribjPull s.journal).1 = journalEmpty ↔ s.pulled = pushedBy ops
  cursors : s.journal.rd < big ∧ s.journal.wr < big

/-- The ring holds the entries of the queue, and has answered like it. -/
structure Stands (s : JournalLog) (q : Fifo Nat) : Prop where
  queue : s.journal.queue = q.queue
  returned : s.returned = q.answers.map (·.getD journalEmpty)

theorem stands_init : init.Stands Fifo.init := ⟨Ring.queue_init _ _, rfl⟩

/-- Calls that may follow: every push finds room, and is of a value. -/
structure Fits (q : Fifo Nat) (ops : List JournalOp) : Prop where
  values : ∀ a, .push a ∈ ops → a ≠ journalEmpty
  room : StepsOk queuedStep LeavesCell q.queue ops

theorem Fits.cons {q : Fifo Nat} {op : JournalOp} {ops : List JournalOp}
    (h : Fits q (op :: ops)) : LeavesCell q.queue op ∧ Fits (fifoStep q op) ops := by
  have hqueue : queuedStep q.queue op = .ok (fifoStep q op).queue := by
    cases op <;> rfl
  obtain ⟨hfirst, hrest⟩ := stepsOk_cons h.room hqueue
  exact ⟨hfirst, fun a ha => h.values a (List.mem_cons_of_mem op ha), hrest⟩

theorem Stands.step {s : JournalLog} {q : Fifo Nat} {op : JournalOp} {ops : List JournalOp}
    (h : s.Stands q) (hfits : Fits q (op :: ops)) :
    ∃ t, s.step op = .ok t ∧ t.Stands (fifoStep q op) ∧ Fits (fifoStep q op) ops := by
  obtain ⟨hroom, hrest⟩ := hfits.cons
  cases op with
  | push a =>
    have hroom : s.journal.queue.length + 1 < big := by
      rw [h.queue]
      exact hroom
    obtain ⟨j, hj, hq⟩ := locribjPush_room (hfits.values a List.mem_cons_self) hroom
    refine ⟨⟨j, s.returned⟩, ?_, ⟨?_, h.returned⟩, hrest⟩
    · rw [JournalLog.step, hj]
      rfl
    · rw [hq, h.queue]
      rfl
  | pull =>
    obtain ⟨hret, hleft⟩ := locribjPull_queue s.journal
    refine ⟨⟨(locribjPull s.journal).2, s.returned ++ [(locribjPull s.journal).1]⟩, rfl, ⟨?_, ?_⟩,
      hrest⟩
    · rw [hleft, h.queue]
      rfl
    · simp [hret, h.returned, h.queue, fifoStep, Fifo.pull]

/-- A run whose pushes all find room follows the queue. -/
theorem Stands.run {s : JournalLog} {q : Fifo Nat} {ops : List JournalOp} (h : s.Stands q)
    (hfits : Fits q ops) :
    ∃ t, ops.foldlM JournalLog.step s = .ok t ∧ t.Stands (ops.foldl fifoStep q) := by
  obtain ⟨t, ht, hend, _⟩ := @run_simulates _ _ _ _ JournalLog.step fifoStep
    (fun ops s q => s.Stands q ∧ Fits q ops) (fun op ops s q hs => hs.1.step hs.2) ops s q
    ⟨h, hfits⟩
  exact ⟨t, ht, hend⟩

/-- Everything the queue has ever held was pushed. -/
theorem total_fifo (ops : List JournalOp) (q : Fifo Nat) :
    (ops.foldl fifoStep q).total = q.total ++ pushedBy ops := by
  induction ops generalizing q with
  | nil => simp [pushedBy]
  | cons op ops ih =>
    rw [List.foldl_cons, ih]
    cases op with
    | push a => simp [fifoStep, pushedBy]
    | pull => simp [fifoStep, pushedBy]

/-- `JOURNAL_EMPTY` stands for no answer, where no value is `JOURNAL_EMPTY`. -/
theorem filter_answers {answers : List (Option Nat)} (h : journalEmpty ∉ answers.reduceOption) :
    (answers.map (·.getD journalEmpty)).filter (· ≠ journalEmpty) = answers.reduceOption := by
  induction answers with
  | nil => rfl
  | cons o answers ih =>
    cases o with
    | none => simpa using ih (by simpa using h)
    | some a =>
      rw [List.reduceOption_cons_of_some, List.mem_cons, not_or] at h
      have hne : a ≠ journalEmpty := fun e => h.1 e.symm
      simpa [hne] using ih h.2

theorem Stands.inOrder {s : JournalLog} {q : Fifo Nat} {ops : List JournalOp} (h : s.Stands q)
    (htotal : q.total = pushedBy ops) (hval : journalEmpty ∉ pushedBy ops) : s.InOrder ops := by
  rw [← htotal, Fifo.total, List.mem_append, not_or] at hval
  have hpulled : s.pulled = q.pulled := by
    rw [JournalLog.pulled, h.returned]
    exact filter_answers hval.1
  have hnext : (locribjPull s.journal).1 = q.queue.head?.getD journalEmpty := by
    rw [(locribjPull_queue s.journal).1, h.queue]
  have hnone : q.queue.head?.getD journalEmpty = journalEmpty ↔ q.queue = [] := by
    cases hq : q.queue with
    | nil => simp
    | cons a rest =>
      have hne : a ≠ journalEmpty := by
        intro e
        exact hval.2 (by simp [hq, e])
      simp [hne]
  refine ⟨?_, ?_, ?_, s.journal.rd_lt, s.journal.wr_lt⟩
  · rw [hpulled, ← htotal]
    exact List.prefix_append _ _
  · rw [hnext, hpulled, ← htotal, q.head?_queue]
  · rw [hnext, hnone, hpulled, ← htotal, q.queue_eq_nil_iff]

end JournalLog

/-- After each call of a run that never has more than `BIG-1` entries outstanding, no assertion
has failed and the values have come out in the order in which they went in. -/
theorem journal_is_queue (ops : List JournalOp) (hval : ∀ a, .push a ∈ ops → a ≠ journalEmpty)
    (hroom : StepsOk queuedStep LeavesCell [] ops) :
    ∀ pre, pre <+: ops →
      ∃ s, pre.foldlM JournalLog.step JournalLog.init = .ok s ∧ s.InOrder pre := by
  intro pre hpre
  obtain ⟨post, rfl⟩ := hpre
  have hval : ∀ a, .push a ∈ pre → a ≠ journalEmpty := by
    intro a ha
    exact hval a (List.mem_append_left post ha)
  obtain ⟨s, hs, hstands⟩ := JournalLog.stands_init.run ⟨hval, (stepsOk_append hroom).1⟩
  have htotal := JournalLog.total_fifo pre Fifo.init
  rw [Fifo.total_init, List.nil_append] at htotal
  refine ⟨s, hs, hstands.inOrder htotal ?_⟩
  intro hmem
  obtain ⟨op, hop, e⟩ := List.mem_filterMap.mp hmem
  cases op with
  | push a => exact hval a hop (Option.some.inj e)
  | pull => cases e

def drained : List JournalOp := [.push 7, .push 9, .pull, .pull, .pull, .push 7]

theorem journal_is_queue_drained :
    ∃ s, drained.foldlM JournalLog.step JournalLog.init = .ok s ∧ s.InOrder drained := by
  apply journal_is_queue drained _ (by decide) drained (List.prefix_refl _)
  intro a ha
  have ha : a = 7 ∨ a = 9 := by simpa [drained, or_comm, or_left_comm] using ha
  cases ha with
  | inl e =>
    rw [e]
    decide
  | inr e =>
    rw [e]
    decide

/-- `JOURNAL_EMPTY` itself is refused, with room for everything. -/
theorem push_empty_stops :
    StepsOk queuedStep LeavesCell [] [.push journalEmpty] ∧
      [JournalOp.push journalEmpty].foldlM JournalLog.step JournalLog.init = .error .assertion := by
  refine ⟨by decide, ?_⟩
  rw [List.foldlM_cons, JournalLog.step, locribjPush, assert, if_neg (not_not.mpr rfl)]
  rfl

end FastParse
