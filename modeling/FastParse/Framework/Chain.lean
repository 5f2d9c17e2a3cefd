import Mathlib.Logic.Function.Basic
import Mathlib.Tactic.Common

namespace FastParse.Framework

variable {α : Type} (next : α → α) (null : α)

/-- `q` is met when the links are followed from `p`. -/
inductive Linked : α → α → Prop
  | here {p : α} : p ≠ null → Linked p p
  | there {p q : α} : p ≠ null → Linked (next p) q → Linked p q

/-- From `p` the links run through exactly the list and end in `null`. -/
def Chain : α → List α → Prop
  | p, [] => p = null
  | p, x :: l => p = x ∧ x ≠ null ∧ Chain (next x) l

variable {next null}

/-- A non-null start is the first cell, and the rest hangs off its link. -/
theorem Chain.cases_ne {p : α} {l : List α} (h : Chain next null p l) (hp : p ≠ null) :
    ∃ r, l = p :: r ∧ Chain next null (next p) r := by
  cases l with
  | nil => exact absurd h hp
  | cons x r =>
    obtain ⟨rfl, _, hr⟩ := h
    exact ⟨r, rfl, hr⟩

theorem Chain.ne_null {p x : α} {l : List α} (h : Chain next null p l) (hx : x ∈ l) :
    x ≠ null := by
  induction l generalizing p with
  | nil => simp at hx
  | cons y l ih =>
    obtain ⟨_, hy, hl⟩ := h
    rcases List.mem_cons.mp hx with rfl | hx
    · exact hy
    · exact ih hl hx

theorem Chain.linked_iff {p q : α} {l : List α} (h : Chain next null p l) :
    Linked next null p q ↔ q ∈ l := by
  induction l generalizing p with
  | nil =>
    have hp : p = null := h
    constructor
    · intro hq
      cases hq with
      | here hne => exact absurd hp hne
      | there hne _ => exact absurd hp hne
    · intro hq
      simp at hq
  | cons x l ih =>
    obtain ⟨rfl, hx, hl⟩ := h
    rw [List.mem_cons]
    constructor
    · intro hq
      cases hq with
      | here _ => exact .inl rfl
      | there _ ht => exact .inr ((ih hl).mp ht)
    · rintro (rfl | hq)
      · exact .here hx
      · exact .there hx ((ih hl).mpr hq)

/-- Only the link words of the cells on the list matter. -/
theorem Chain.congr {next' : α → α} {p : α} {l : List α} (h : Chain next null p l)
    (e : ∀ x ∈ l, next' x = next x) : Chain next' null p l := by
  induction l generalizing p with
  | nil => exact h
  | cons x l ih =>
    obtain ⟨hp, hx, hl⟩ := h
    refine ⟨hp, hx, ?_⟩
    rw [e x (by simp)]
    exact ih hl (fun y hy => e y (by simp [hy]))

/-- A cell linked to the start of a list goes in front of it. -/
theorem Chain.push {p x : α} {l : List α} (h : Chain next null p l) (hx : x ≠ null)
    (hlink : next x = p) : Chain next null x (x :: l) := by
  refine ⟨rfl, hx, ?_⟩
  rw [hlink]
  exact h

end FastParse.Framework
