import Mathlib.Logic.Function.Basic
import Mathlib.Tactic.Common

namespace FastParse.Framework

structure Ring (n : Nat) (α : Type) where
  cell : Nat → α
  rd : Nat
  wr : Nat
  rd_lt : rd < n
  wr_lt : wr < n

namespace Ring

variable {n : Nat} {α : Type}

def init (hn : 0 < n) (cell : Nat → α) : Ring n α := ⟨cell, 0, 0, hn, hn⟩

/-- Store at the write cursor, then advance it with wrap-around. -/
def push (r : Ring n α) (x : α) : Ring n α :=
  ⟨Function.update r.cell r.wr x, r.rd, (r.wr + 1) % n, r.rd_lt,
    Nat.mod_lt _ (Nat.zero_lt_of_lt r.wr_lt)⟩

def front (r : Ring n α) : α := r.cell r.rd

def drop (r : Ring n α) : Ring n α :=
  ⟨r.cell, (r.rd + 1) % n, r.wr, Nat.mod_lt _ (Nat.zero_lt_of_lt r.rd_lt), r.wr_lt⟩

def size (r : Ring n α) : Nat := (r.wr + n - r.rd) % n

/-- The cells from the read cursor up to the write cursor, oldest first. -/
def queue (r : Ring n α) : List α :=
  (List.range r.size).map fun k => r.cell ((r.rd + k) % n)

@[simp] theorem push_rd (r : Ring n α) (x : α) : (r.push x).rd = r.rd := rfl
@[simp] theorem drop_wr (r : Ring n α) : r.drop.wr = r.wr := rfl

private theorem mod_wrap {a n : Nat} (h : a < 2 * n) : a % n = if a < n then a else a - n := by
  split_ifs with hlt
  · exact Nat.mod_eq_of_lt hlt
  · rw [Nat.mod_eq_sub_mod (by omega), Nat.mod_eq_of_lt (by omega)]

theorem push_wr (r : Ring n α) (x : α) :
    (r.push x).wr = r.wr + 1 ∧ r.wr + 1 < n ∨ (r.push x).wr = 0 ∧ r.wr + 1 = n := by
  have hw := r.wr_lt
  have e : (r.push x).wr = if r.wr + 1 < n then r.wr + 1 else r.wr + 1 - n :=
    mod_wrap (by omega)
  rw [e]
  split_ifs <;> omega

theorem drop_rd (r : Ring n α) :
    r.drop.rd = r.rd + 1 ∧ r.rd + 1 < n ∨ r.drop.rd = 0 ∧ r.rd + 1 = n := by
  have hr := r.rd_lt
  have e : r.drop.rd = if r.rd + 1 < n then r.rd + 1 else r.rd + 1 - n := mod_wrap (by omega)
  rw [e]
  split_ifs <;> omega

theorem size_cases (r : Ring n α) :
    r.rd ≤ r.wr ∧ r.rd + r.size = r.wr ∨ r.wr < r.rd ∧ r.rd + r.size = r.wr + n := by
  have hr := r.rd_lt
  have hw := r.wr_lt
  rw [size, mod_wrap (by omega)]
  split_ifs <;> omega

theorem size_lt (r : Ring n α) : r.size < n := Nat.mod_lt _ (Nat.zero_lt_of_lt r.rd_lt)

@[simp] theorem queue_length (r : Ring n α) : r.queue.length = r.size := by simp [queue]

theorem size_eq_zero (r : Ring n α) : r.size = 0 ↔ r.wr = r.rd := by
  have hr := r.rd_lt
  have hs := size_cases r
  omega

theorem queue_eq_nil (r : Ring n α) : r.queue = [] ↔ r.wr = r.rd := by
  rw [← List.length_eq_zero_iff, queue_length, size_eq_zero]

@[simp] theorem queue_init (hn : 0 < n) (cell : Nat → α) : (init hn cell).queue = [] :=
  (queue_eq_nil _).mpr rfl

theorem size_push (r : Ring n α) (x : α) (h : (r.push x).wr ≠ r.rd) :
    (r.push x).size = r.size + 1 := by
  have hr := r.rd_lt
  have hs := size_cases r
  have hp := push_wr r x
  have ht := size_cases (r.push x)
  simp only [push_rd] at ht
  omega

theorem size_drop (r : Ring n α) (h : r.wr ≠ r.rd) : r.size = r.drop.size + 1 := by
  have hw := r.wr_lt
  have hs := size_cases r
  have hd := drop_rd r
  have ht := size_cases r.drop
  simp only [drop_wr] at ht
  omega

/-- A push that leaves the cursors apart appends to the queue. -/
theorem queue_push (r : Ring n α) (x : α) (h : (r.push x).wr ≠ r.rd) :
    (r.push x).queue = r.queue ++ [x] := by
  have hr := r.rd_lt
  have hw := r.wr_lt
  have hs := size_lt r
  have hfull := size_lt (r.push x)
  rw [queue, size_push r x h, List.range_succ, List.map_append, queue]
  rw [size_push r x h] at hfull
  have hlast : (r.rd + r.size) % n = r.wr := by
    have hc := size_cases r
    rw [mod_wrap (by omega)]
    split_ifs <;> omega
  congr 1
  · apply List.map_congr_left
    intro k hk
    have hk : k < r.size := List.mem_range.mp hk
    have hne : (r.rd + k) % n ≠ r.wr := by
      rw [← hlast, mod_wrap (by omega), mod_wrap (by omega)]
      split_ifs <;> omega
    simp [push, Function.update_of_ne hne]
  · simp [push, hlast]

/-- Reading off the front of a non-empty ring takes the oldest entry of the queue. -/
theorem queue_drop (r : Ring n α) (h : r.wr ≠ r.rd) : r.queue = r.front :: r.drop.queue := by
  have hr := r.rd_lt
  rw [queue, size_drop r h, List.range_succ_eq_map, List.map_cons, List.map_map, queue]
  congr 1
  · simp [front, Nat.mod_eq_of_lt hr]
  · apply List.map_congr_left
    intro k hk
    have hk : k < r.drop.size := List.mem_range.mp hk
    have e : (r.rd + (k + 1)) % n = ((r.rd + 1) % n + k) % n := by
      rw [Nat.mod_add_mod]
      congr 1
      omega
    simp [drop, e]

/-- The cursors meet after a push exactly when all the other cells are in use. -/
theorem push_meets_iff (r : Ring n α) (x : α) : (r.push x).wr = r.rd ↔ r.size + 1 = n := by
  have hr := r.rd_lt
  have hs := size_cases r
  have hp := push_wr r x
  omega

end Ring

end FastParse.Framework
