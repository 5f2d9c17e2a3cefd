import FastParse.Locrib.Journal

namespace FastParse

open Framework

inductive JournalOp where
  | push (addrref : Nat)
  | pull

def journalStep (j : Journal) : JournalOp → Exec Journal
  | .push a => locribjPush j a
  | .pull => return (locribjPull j).2

def queuedStep (q : List Nat) : JournalOp → Exec (List Nat)
  | .push a => return q ++ [a]
  | .pull => return q.tail

/-- The contract: addresses of the RIB, and none that is still queued. -/
def KeepsContract (q : List Nat) : JournalOp → Prop
  | .push a => a < big ∧ a ∉ q
  | .pull => True

def LeavesCell (q : List Nat) : JournalOp → Prop
  | .push _ => q.length + 1 < big
  | .pull => True

instance (q : List Nat) : ∀ op, Decidable (KeepsContract q op)
  | .push _ => inferInstanceAs (Decidable (_ ∧ _))
  | .pull => isTrue trivial

instance (q : List Nat) : ∀ op, Decidable (LeavesCell q op)
  | .push _ => inferInstanceAs (Decidable (_ < _))
  | .pull => isTrue trivial

theorem ne_journalEmpty {a : Nat} (ha : a < big) : a ≠ journalEmpty := by
  intro e
  rw [e] at ha
  exact absurd ha (by decide)

/-- With one cell left the push fails on the second assertion. -/
theorem locribjPush_full {j : Journal} (a : Nat) (hfull : ¬ j.queue.length + 1 < big) :
    locribjPush j a = .error .assertion := by
  have hlt := j.size_lt
  have hw : (j.push a).wr = (j.push a).rd := by
    show (j.push a).wr = j.rd
    rw [Ring.push_meets_iff]
    rw [Ring.queue_length] at hfull
    omega
  rw [locribjPush]
  by_cases ha : journalEmpty ≠ a
  · simp [assert, ha, hw, bind, Except.bind]
  · simp [assert, ha, bind, Except.bind]

/-- One call under the contract: with room the journal follows the queue, without it stops. -/
theorem journalStep_cases {j : Journal} {op : JournalOp} (hok : KeepsContract j.queue op) :
    LeavesCell j.queue op ∧
      (∃ j', journalStep j op = .ok j' ∧ queuedStep j.queue op = .ok j'.queue) ∨
    ¬ LeavesCell j.queue op ∧ journalStep j op = .error .assertion := by
  cases op with
  | push a =>
    by_cases hroom : LeavesCell j.queue (.push a)
    · obtain ⟨j', hj, hq⟩ := locribjPush_room (ne_journalEmpty hok.1) hroom
      refine .inl ⟨hroom, j', hj, ?_⟩
      rw [hq]
      rfl
    · exact .inr ⟨hroom, locribjPush_full a hroom⟩
  | pull =>
    refine .inl ⟨trivial, (locribjPull j).2, rfl, ?_⟩
    rw [(locribjPull_queue j).2]
    rfl

/-- A run under the contract gets through with the queue inside the ring, or stops on an
assertion. -/
theorem journal_runs (j : Journal) (ops : List JournalOp)
    (hok : StepsOk queuedStep KeepsContract j.queue ops) :
    StepsOk queuedStep LeavesCell j.queue ops ∧
      (∃ j', ops.foldlM journalStep j = .ok j' ∧ ops.foldlM queuedStep j.queue = .ok j'.queue) ∨
    ¬ StepsOk queuedStep LeavesCell j.queue ops ∧
      ops.foldlM journalStep j = .error .assertion := by
  induction ops generalizing j with
  | nil => exact .inl ⟨trivial, j, rfl, rfl⟩
  | cons op ops ih =>
    cases journalStep_cases hok.1 with
    | inl hc =>
      obtain ⟨hroom, j1, hj, hq⟩ := hc
      have hrest := ih j1 (stepsOk_cons hok hq).2
      simp only [StepsOk, hq, hroom, true_and, List.foldlM_cons, hj, bind, Except.bind]
      exact hrest
    | inr hc =>
      obtain ⟨hfull, hj⟩ := hc
      refine .inr ⟨fun h => hfull h.1, ?_⟩
      rw [List.foldlM_cons, hj]
      rfl

/-- The contract lets `BIG` addresses be queued at once, and the ring holds one fewer: under
the contract no assertion fails exactly if the queue never has to hold all of them. -/
theorem journal_capacity (ops : List JournalOp) (h : StepsOk queuedStep KeepsContract [] ops) :
    (∃ j, ops.foldlM journalStep locribjInit = .ok j) ↔ StepsOk queuedStep LeavesCell [] ops := by
  have hq : locribjInit.queue = [] := Ring.queue_init _ _
  have hruns := journal_runs locribjInit ops (by rwa [hq])
  rw [hq] at hruns
  cases hruns with
  | inl hc =>
    obtain ⟨hroom, j, hj, _⟩ := hc
    exact ⟨fun _ => hroom, fun _ => ⟨j, hj⟩⟩
  | inr hc =>
    obtain ⟨hfull, herr⟩ := hc
    constructor
    · intro hj
      obtain ⟨j, hj⟩ := hj
      rw [herr] at hj
      cases hj
    · intro hroom
      exact absurd hroom hfull

/-- An address may come back once it has been pulled. -/
theorem journal_capacity_again :
    ∃ j, [JournalOp.push 3, .push 999999, .pull, .push 3].foldlM journalStep locribjInit =
      .ok j := by
  apply (journal_capacity [.push 3, .push 999999, .pull, .push 3] (by decide)).mpr
  decide

/-- The first `n` addresses, one after the other. -/
def pushUpTo (n : Nat) : List JournalOp := (List.range n).map .push

theorem pushes_keepContract {q l : List Nat} (hnd : (q ++ l).Nodup) (hl : ∀ a ∈ l, a < big) :
    StepsOk queuedStep KeepsContract q (l.map .push) := by
  induction l generalizing q with
  | nil => trivial
  | cons a l ih =>
    refine ⟨⟨hl a (by simp), ?_⟩, ?_⟩
    · intro ha
      exact (List.nodup_append.mp hnd).2.2 a ha a (by simp) rfl
    · apply ih
      · simpa using hnd
      · intro b hb
        exact hl b (by simp [hb])

theorem pushes_leaveCell {q l : List Nat} (hne : l ≠ [])
    (h : StepsOk queuedStep LeavesCell q (l.map .push)) : q.length + l.length < big := by
  induction l generalizing q with
  | nil => exact absurd rfl hne
  | cons a l ih =>
    obtain ⟨hroom, hrest⟩ := h
    have hroom : q.length + 1 < big := hroom
    cases l with
    | nil => exact hroom
    | cons b l =>
      have hlt := ih (by simp) hrest
      simp only [List.length_append, List.length_cons, List.length_nil] at hlt ⊢
      omega

theorem pushUpTo_overflows {n : Nat} (hn : 0 < n) (hbig : n = big) :
    StepsOk queuedStep KeepsContract [] (pushUpTo n) ∧
      (pushUpTo n).foldlM journalStep locribjInit = .error .assertion := by
  have hok : StepsOk queuedStep KeepsContract [] (pushUpTo n) := by
    apply pushes_keepContract
    · rw [List.nil_append]
      exact List.nodup_range
    · intro a ha
      rw [← hbig]
      exact List.mem_range.mp ha
  have hq : locribjInit.queue = [] := Ring.queue_init _ _
  have hruns := journal_runs locribjInit (pushUpTo n) (by rwa [hq])
  rw [hq] at hruns
  cases hruns with
  | inl hc =>
    exfalso
    have hne : List.range n ≠ [] := by
      rw [ne_eq, List.range_eq_nil]
      omega
    have hlt := pushes_leaveCell hne hc.1
    rw [List.length_nil, List.length_range] at hlt
    omega
  | inr hc => exact ⟨hok, hc.2⟩

/-- With every address of the RIB queued once, the last push fails. -/
theorem journal_overflows :
    StepsOk queuedStep KeepsContract [] (pushUpTo big) ∧
      (pushUpTo big).foldlM journalStep locribjInit = .error .assertion :=
  pushUpTo_overflows (by decide) rfl

end FastParse
