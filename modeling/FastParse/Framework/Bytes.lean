import Mathlib.Data.List.GetD
import Mathlib.Logic.Function.Basic
import Mathlib.Tactic.Common

namespace FastParse.Framework

variable {β : Type}

/-- The `n` cells from `p` on. -/
def slice (m : Nat → β) (p n : Nat) : List β := (List.range n).map fun i => m (p + i)

@[simp] theorem length_slice (m : Nat → β) (p n : Nat) : (slice m p n).length = n := by
  simp [slice]

@[simp] theorem slice_zero (m : Nat → β) (p : Nat) : slice m p 0 = [] := rfl

theorem slice_succ (m : Nat → β) (p n : Nat) : slice m p (n + 1) = m p :: slice m (p + 1) n := by
  rw [slice, List.range_succ_eq_map, List.map_cons, List.map_map, slice]
  congr 1
  apply List.map_congr_left
  intro i _
  simp only [Function.comp]
  congr 1
  omega

theorem slice_add (m : Nat → β) (p n k : Nat) :
    slice m p (n + k) = slice m p n ++ slice m (p + n) k := by
  induction n generalizing p with
  | zero => simp
  | succ n ih =>
    have e : n + 1 + k = (n + k) + 1 := by omega
    rw [e, slice_succ, ih, slice_succ, List.cons_append]
    congr 3
    omega

theorem slice_congr {m m' : Nat → β} {p p' n : Nat} (h : ∀ i < n, m (p + i) = m' (p' + i)) :
    slice m p n = slice m' p' n := by
  apply List.map_congr_left
  intro i hi
  exact h i (List.mem_range.mp hi)

theorem slice_inj {m m' : Nat → β} {p p' n : Nat} (h : slice m p n = slice m' p' n) :
    ∀ i < n, m (p + i) = m' (p' + i) := by
  intro i hi
  have e : (slice m p n)[i]? = (slice m' p' n)[i]? := by rw [h]
  simpa [slice, hi] using e

/-- The list `bs` written from `q` on. -/
def overlay : (Nat → β) → Nat → List β → Nat → β
  | m, _, [] => m
  | m, q, b :: bs => overlay (Function.update m q b) (q + 1) bs

theorem overlay_cons (m : Nat → β) (q : Nat) (b : β) (bs : List β) :
    overlay m q (b :: bs) = overlay (Function.update m q b) (q + 1) bs := rfl

theorem overlay_append (m : Nat → β) (q : Nat) (bs cs : List β) :
    overlay m q (bs ++ cs) = overlay (overlay m q bs) (q + bs.length) cs := by
  induction bs generalizing m q with
  | nil => rfl
  | cons b bs ih =>
    rw [List.cons_append, overlay_cons, ih, overlay_cons, List.length_cons]
    congr 1
    omega

theorem overlay_outside (m : Nat → β) (bs : List β) {q i : Nat}
    (h : i < q ∨ q + bs.length ≤ i) : overlay m q bs i = m i := by
  induction bs generalizing m q with
  | nil => rfl
  | cons b bs ih =>
    rw [List.length_cons] at h
    rw [overlay_cons, ih _ (by omega), Function.update_of_ne (by omega)]

theorem slice_overlay_outside (m : Nat → β) (bs : List β) {q p n : Nat}
    (h : p + n ≤ q ∨ q + bs.length ≤ p) : slice (overlay m q bs) p n = slice m p n := by
  apply slice_congr
  intro i hi
  apply overlay_outside
  omega

theorem slice_overlay (m : Nat → β) (q : Nat) (bs : List β) :
    slice (overlay m q bs) q bs.length = bs := by
  induction bs generalizing m q with
  | nil => rfl
  | cons b bs ih =>
    rw [List.length_cons, slice_succ, overlay_cons, ih, overlay_outside _ _ (by omega),
      Function.update_self]

end FastParse.Framework
