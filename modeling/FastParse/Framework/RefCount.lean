import Mathlib.Data.Set.Card
import Mathlib.Tactic.Common

namespace FastParse.Framework

variable {ι α : Type}

/-- The number of slots that hold `p`. -/
noncomputable def refs (slot : ι → α) (p : α) : ℕ∞ := {i | slot i = p}.encard

theorem refs_eq_zero {slot : ι → α} {p : α} : refs slot p = 0 ↔ ∀ i, slot i ≠ p := by
  rw [refs, Set.encard_eq_zero, Set.eq_empty_iff_forall_notMem]
  rfl

theorem refs_ne_zero {slot : ι → α} {i : ι} {p : α} (h : slot i = p) : refs slot p ≠ 0 :=
  fun e => refs_eq_zero.mp e i h

section
variable [DecidableEq ι] (slot : ι → α) (i : ι)

/-- Overwriting a slot leaves the count of every reference that is neither the
old nor the new content. -/
theorem refs_update_of_ne {p q : α} (hold : slot i ≠ p) (hnew : q ≠ p) :
    refs (Function.update slot i q) p = refs slot p := by
  unfold refs
  congr 1
  ext j
  by_cases h : j = i
  · subst j
    simp [hold, hnew]
  · simp [h]

theorem refs_update_new {q : α} (hold : slot i ≠ q) :
    refs (Function.update slot i q) q = refs slot q + 1 := by
  have e : {j | Function.update slot i q j = q} = insert i {j | slot j = q} := by
    ext j
    by_cases h : j = i
    · simp [h]
    · simp [h]
  rw [refs, e, Set.encard_insert_of_notMem (by simpa using hold), refs]

theorem refs_update_old {q : α} (hnew : q ≠ slot i) :
    refs (Function.update slot i q) (slot i) + 1 = refs slot (slot i) := by
  have h := refs_update_new (Function.update slot i q) i (q := slot i) (by simpa using hnew)
  rw [← h, Function.update_idem, Function.update_eq_self]

theorem refs_update_old_eq {q : α} {n : ℕ} (hnew : q ≠ slot i)
    (h : refs slot (slot i) = (n + 1 : ℕ)) :
    refs (Function.update slot i q) (slot i) = n := by
  have hadd := refs_update_old slot i hnew
  rw [h, Nat.cast_add, Nat.cast_one] at hadd
  exact ENat.add_left_injective_of_ne_top ENat.one_ne_top hadd

/-- What a reference that the slot did not hold counts afterwards. -/
theorem refs_update_gain [DecidableEq α] {p q : α} {n : ℕ} (hold : slot i ≠ p)
    (h : refs slot p = n) :
    refs (Function.update slot i q) p = (n + if p = q then 1 else 0 : ℕ) := by
  split_ifs with e
  · subst e
    rw [refs_update_new slot i hold, h, Nat.cast_add, Nat.cast_one]
  · rw [refs_update_of_ne slot i hold (Ne.symm e), h, Nat.add_zero]

end

end FastParse.Framework
