import Mathlib.Algebra.BigOperators.Group.Finset.Piecewise
import Mathlib.Algebra.BigOperators.Ring.Finset
import Mathlib.Data.Fintype.Basic
import Mathlib.Data.Int.Order.Basic
import Mathlib.Data.List.Infix
import Mathlib.Tactic.Common

namespace FastParse.Framework

/-- One thing is taken from stock `k`, or given back to it. -/
inductive Move (κ : Type) where
  | take (k : κ)
  | give (k : κ)
  deriving DecidableEq

variable {κ : Type} [DecidableEq κ]

/-- How many more have been taken from `k` than given back. -/
def balance (k : κ) (moves : List (Move κ)) : Int :=
  moves.count (.take k) - moves.count (.give k)

def peak (k : κ) (moves : List (Move κ)) : Int :=
  (moves.inits.map (balance k)).foldl max 0

@[simp] theorem balance_nil (k : κ) : balance k [] = 0 := rfl

@[simp] theorem peak_nil (k : κ) : peak k [] = 0 := rfl

theorem balance_take (k : κ) (moves : List (Move κ)) (j : κ) :
    balance k (moves ++ [.take j]) = balance k moves + if j = k then 1 else 0 := by
  by_cases e : j = k
  · simp [balance, e]
    omega
  · simp [balance, e]

theorem balance_give (k : κ) (moves : List (Move κ)) (j : κ) :
    balance k (moves ++ [.give j]) = balance k moves - if j = k then 1 else 0 := by
  by_cases e : j = k
  · simp [balance, e]
    omega
  · simp [balance, e]

theorem peak_concat (k : κ) (moves : List (Move κ)) (m : Move κ) :
    peak k (moves ++ [m]) = max (peak k moves) (balance k (moves ++ [m])) := by
  simp [peak, List.inits_append]

/-- What is in each stock, and what has been drawn for it from the supply. -/
structure Stock (κ : Type) where
  held : κ → Nat
  drawn : κ → Nat

namespace Stock

def empty : Stock κ := ⟨fun _ => 0, fun _ => 0⟩

def step (s : Stock κ) : Move κ → Stock κ
  | .take k =>
    if s.held k = 0 then { s with drawn := Function.update s.drawn k (s.drawn k + 1) }
    else { s with held := Function.update s.held k (s.held k - 1) }
  | .give k => { s with held := Function.update s.held k (s.held k + 1) }

/-- The supply is drawn on exactly when a balance comes to a new peak, and a stock holds what is
missing to its peak. -/
theorem run_eq (moves : List (Move κ)) (k : κ) :
    ((moves.foldl step empty).drawn k : Int) = peak k moves ∧
      ((moves.foldl step empty).held k : Int) = peak k moves - balance k moves := by
  induction moves using List.reverseRecOn with
  | nil => exact ⟨rfl, rfl⟩
  | append_singleton moves m ih =>
    obtain ⟨hdrawn, hheld⟩ := ih
    rw [List.foldl_append, List.foldl_cons, List.foldl_nil, peak_concat]
    generalize moves.foldl step empty = s at hdrawn hheld
    cases m with
    | take j =>
      rw [balance_take, step]
      by_cases e : j = k
      · subst e
        by_cases hzero : s.held j = 0
        · rw [if_pos hzero, if_pos rfl]
          simp only [Function.update_self]
          omega
        · rw [if_neg hzero, if_pos rfl]
          simp only [Function.update_self]
          omega
      · have hk : k ≠ j := fun h => e h.symm
        rw [if_neg e]
        split_ifs
        · simp only [Function.update_of_ne hk]
          omega
        · simp only [Function.update_of_ne hk]
          omega
    | give j =>
      rw [balance_give, step]
      by_cases e : j = k
      · subst e
        rw [if_pos rfl]
        simp only [Function.update_self]
        omega
      · have hk : k ≠ j := fun h => e h.symm
        rw [if_neg e]
        simp only [Function.update_of_ne hk]
        omega

end Stock

theorem sum_update_succ [Fintype κ] (f : κ → Nat) (k : κ) :
    ∑ j, Function.update f k (f k + 1) j = (∑ j, f j) + 1 := by
  rw [Finset.sum_update_of_mem (Finset.mem_univ k), ← Finset.sum_sdiff (Finset.subset_univ {k}),
    Finset.sum_singleton]
  omega

end FastParse.Framework
