import Mathlib.Data.List.ReduceOption
import Mathlib.Tactic.Common

namespace FastParse.Framework

/-- The entries that are outstanding, oldest first, and one answer for each pull so far. -/
structure Fifo (α : Type) where
  queue : List α
  answers : List (Option α)

namespace Fifo

variable {α : Type}

def init : Fifo α := ⟨[], []⟩

def push (s : Fifo α) (a : α) : Fifo α := { s with queue := s.queue ++ [a] }

def pull (s : Fifo α) : Fifo α := ⟨s.queue.tail, s.answers ++ [s.queue.head?]⟩

def pulled (s : Fifo α) : List α := s.answers.reduceOption

def total (s : Fifo α) : List α := s.pulled ++ s.queue

@[simp] theorem total_init : (init : Fifo α).total = [] := rfl

@[simp] theorem total_push (s : Fifo α) (a : α) : (s.push a).total = s.total ++ [a] := by
  simp [total, push, pulled]

/-- An entry that is pulled leaves the queue, and none is lost. -/
@[simp] theorem total_pull (s : Fifo α) : s.pull.total = s.total := by
  cases hq : s.queue with
  | nil => simp [total, pulled, pull, hq, List.reduceOption_append]
  | cons a rest => simp [total, pulled, pull, hq, List.reduceOption_append]

/-- The next answer is the first entry that has not been pulled. -/
theorem head?_queue (s : Fifo α) : s.queue.head? = s.total[s.pulled.length]? := by
  rw [← List.head?_drop, total, List.drop_left]

theorem queue_eq_nil_iff (s : Fifo α) : s.queue = [] ↔ s.pulled = s.total := by
  rw [total, List.self_eq_append_right]

end Fifo

end FastParse.Framework
