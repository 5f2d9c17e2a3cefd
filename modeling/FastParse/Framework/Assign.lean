import Mathlib.Logic.Function.Basic
import Mathlib.Tactic.Common

namespace FastParse.Framework

variable {κ α : Type} [DecidableEq κ]

/-- The map with `v` at each of the keys. -/
def assign (ks : List κ) (v : α) (m : κ → α) : κ → α := fun k => if k ∈ ks then v else m k

theorem assign_of_mem {ks : List κ} {k : κ} (h : k ∈ ks) (v : α) (m : κ → α) :
    assign ks v m k = v := if_pos h

theorem assign_of_notMem {ks : List κ} {k : κ} (h : k ∉ ks) (v : α) (m : κ → α) :
    assign ks v m k = m k := if_neg h

@[simp] theorem assign_nil (v : α) (m : κ → α) : assign [] v m = m := by
  funext k
  exact assign_of_notMem List.not_mem_nil v m

theorem assign_singleton (k : κ) (v : α) (m : κ → α) :
    assign [k] v m = Function.update m k v := by
  funext j
  by_cases e : j = k
  · subst e
    rw [assign_of_mem List.mem_cons_self, Function.update_self]
  · rw [assign_of_notMem (by simp [e]), Function.update_of_ne e]

theorem assign_append (ks ls : List κ) (v : α) (m : κ → α) :
    assign (ks ++ ls) v m = assign ls v (assign ks v m) := by
  funext k
  by_cases hl : k ∈ ls
  · rw [assign_of_mem (List.mem_append_right ks hl), assign_of_mem hl]
  · rw [assign_of_notMem hl]
    by_cases hk : k ∈ ks
    · rw [assign_of_mem (List.mem_append_left ls hk), assign_of_mem hk]
    · have happend : k ∉ ks ++ ls := by simp [hk, hl]
      rw [assign_of_notMem happend, assign_of_notMem hk]

/-- The order of two writes does not matter when they agree on the keys they share. -/
theorem assign_comm {ks ls : List κ} {v w : α} (h : ∀ k ∈ ks, k ∈ ls → v = w) (m : κ → α) :
    assign ks v (assign ls w m) = assign ls w (assign ks v m) := by
  funext k
  by_cases hk : k ∈ ks
  · by_cases hl : k ∈ ls
    · rw [assign_of_mem hk, assign_of_mem hl, h k hk hl]
    · rw [assign_of_mem hk, assign_of_notMem hl, assign_of_mem hk]
  · by_cases hl : k ∈ ls
    · rw [assign_of_notMem hk, assign_of_mem hl, assign_of_mem hl]
    · rw [assign_of_notMem hk, assign_of_notMem hl, assign_of_notMem hl, assign_of_notMem hk]

end FastParse.Framework
