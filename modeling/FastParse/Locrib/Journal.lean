import FastParse.Base
import FastParse.Framework.Ring
import FastParse.Framework.Run
import FastParse.Table.Bigtable

namespace FastParse

open Framework

def journalEmpty : Nat := 0xffffffff

/-- `_LRJOURNAL` with `jread` and `jwrite`. -/
abbrev Journal := Ring big Nat

/-- The array comes from `malloc`; no cell is read before it is written. -/
def locribjInit : Journal := Ring.init (by decide) fun _ => 0

def locribjPush (j : Journal) (addrref : Nat) : Exec Journal := do
  assert (journalEmpty ≠ addrref)
  let j := j.push addrref
  assert (j.wr ≠ j.rd)
  return j

def locribjPull (j : Journal) : Nat × Journal :=
  if j.wr ≠ j.rd then (j.front, j.drop) else (journalEmpty, j)

theorem locribjPush_ok {j j' : Journal} {a : Nat} (h : locribjPush j a = .ok j') :
    a ≠ journalEmpty ∧ j'.queue = j.queue ++ [a] := by
  simp only [locribjPush, assert_bind_ok] at h
  obtain ⟨ha, hw, e⟩ := h
  cases e
  exact ⟨ha.symm, Ring.queue_push j a hw⟩

theorem locribjPull_nil {j : Journal} (h : j.queue = []) : locribjPull j = (journalEmpty, j) := by
  simp [locribjPull, (Ring.queue_eq_nil j).mp h]

theorem locribjPull_cons {j : Journal} {a : Nat} {rest : List Nat} (h : j.queue = a :: rest) :
    ∃ j', locribjPull j = (a, j') ∧ j'.queue = rest := by
  have hne : j.wr ≠ j.rd := by
    intro e
    rw [(Ring.queue_eq_nil j).mpr e] at h
    simp at h
  have hq := Ring.queue_drop j hne
  rw [h] at hq
  obtain ⟨ha, hr⟩ := List.cons.inj hq
  exact ⟨j.drop, by simp [locribjPull, hne, ha], hr.symm⟩

/-- A pull returns the oldest entry, or `JOURNAL_EMPTY`. -/
theorem locribjPull_queue (j : Journal) :
    (locribjPull j).1 = j.queue.head?.getD journalEmpty ∧
      (locribjPull j).2.queue = j.queue.tail := by
  cases hq : j.queue with
  | nil =>
    rw [locribjPull_nil hq, hq]
    exact ⟨rfl, rfl⟩
  | cons a rest =>
    obtain ⟨j', hj, hrest⟩ := locribjPull_cons hq
    rw [hj]
    exact ⟨rfl, hrest⟩

theorem locribjPush_room {j : Journal} {a : Nat} (ha : a ≠ journalEmpty)
    (hroom : j.queue.length + 1 < big) :
    ∃ j', locribjPush j a = .ok j' ∧ j'.queue = j.queue ++ [a] := by
  have hw : (j.push a).wr ≠ j.rd := by
    intro e
    rw [Ring.push_meets_iff] at e
    rw [Ring.queue_length] at hroom
    omega
  have hw' : (j.push a).wr ≠ (j.push a).rd := hw
  refine ⟨j.push a, ?_, Ring.queue_push j a hw⟩
  simp only [locribjPush, assert_bind_ok]
  exact ⟨ha.symm, hw', rfl⟩

end FastParse
