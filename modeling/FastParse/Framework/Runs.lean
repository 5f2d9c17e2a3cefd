import Mathlib.Data.List.SplitBy
import Mathlib.Tactic.Common

namespace FastParse.Framework

variable {α β : Type} {f : α → β}

/-- No more than `n` consecutive elements have one value. -/
def RunsAtMost (f : α → β) (n : Nat) (l : List α) : Prop :=
  ∀ r, r <:+: l → (∀ a ∈ r, ∀ b ∈ r, f a = f b) → r.length ≤ n

theorem RunsAtMost.part {n : Nat} {l l' : List α} (h : RunsAtMost f n l) (hl : l' <:+: l) :
    RunsAtMost f n l' := fun r hr => h r (hr.trans hl)

theorem runsAtMost_of_length {n : Nat} {l : List α} (h : l.length ≤ n) : RunsAtMost f n l :=
  fun _ hr _ => hr.length_le.trans h

variable [DecidableEq β]

def runsBy (f : α → β) (l : List α) : List (List α) := l.splitBy fun a b => f a = f b

theorem runsBy_flatten (f : α → β) (l : List α) : (runsBy f l).flatten = l :=
  List.flatten_splitBy _ l

theorem ne_nil_of_mem_runsBy {l r : List α} (h : r ∈ runsBy f l) : r ≠ [] :=
  List.ne_nil_of_mem_splitBy h

theorem isChain_of_const {r : List α} {v : β} (h : ∀ a ∈ r, f a = v) :
    r.IsChain fun a b => decide (f a = f b) = true := by
  induction r with
  | nil => simp
  | cons a r ih =>
    rw [List.isChain_cons]
    refine ⟨?_, ih fun b hb => h b (by simp [hb])⟩
    intro b hb
    have ha := h a (by simp)
    have hb := h b (by simp [List.mem_of_mem_head? hb])
    simp [ha, hb]

theorem const_of_isChain {a : α} {r : List α}
    (h : (a :: r).IsChain fun a b => decide (f a = f b) = true) : ∀ b ∈ r, f b = f a := by
  induction r generalizing a with
  | nil => simp
  | cons b r ih =>
    rw [List.isChain_cons_cons] at h
    have hab : f a = f b := by simpa using h.1
    intro c hc
    cases List.mem_cons.mp hc with
    | inl e => rw [e, hab]
    | inr hc => rw [ih h.2 c hc, hab]

theorem const_of_mem_runsBy {l r : List α} (h : r ∈ runsBy f l) :
    ∃ a ∈ r, ∀ b ∈ r, f b = f a := by
  have hne := ne_nil_of_mem_runsBy h
  have hc := List.isChain_of_mem_splitBy h
  obtain ⟨a, r, rfl⟩ := List.exists_cons_of_ne_nil hne
  refine ⟨a, by simp, ?_⟩
  intro b hb
  cases List.mem_cons.mp hb with
  | inl e => rw [e]
  | inr hb => exact const_of_isChain hc b hb

theorem runsBy_const {r : List α} {v : β} (hne : r ≠ []) (h : ∀ a ∈ r, f a = v) :
    runsBy f r = [r] :=
  List.splitBy_of_isChain hne (isChain_of_const h)

theorem runsBy_append_cons {r : List α} {v : β} {b : α} (hne : r ≠ []) (h : ∀ a ∈ r, f a = v)
    (hb : f b ≠ v) (l : List α) : runsBy f (r ++ b :: l) = r :: runsBy f (b :: l) := by
  have hcut : ∀ a ∈ r.getLast?, decide (f a = f b) = false := by
    intro a ha
    have e := h a (List.mem_of_mem_getLast? ha)
    simp [e, Ne.symm hb]
  have e := @List.splitBy_append_cons α (fun a b => decide (f a = f b)) r b l hcut
  have hr : r.splitBy (fun a b => decide (f a = f b)) = [r] := runsBy_const hne h
  rw [runsBy, e, hr]
  rfl

theorem runsBy_change (f : α → β) (l : List α) :
    (runsBy f l).IsChain fun r r' => ∀ a ∈ r, ∀ b ∈ r', f a ≠ f b := by
  refine (List.isChain_getLast_head_splitBy _ l).imp_of_mem_imp ?_
  intro r r' hr hr' hcut a ha b hb e
  obtain ⟨hne, hne', hcut⟩ := hcut
  obtain ⟨c, _, hc⟩ := const_of_mem_runsBy hr
  obtain ⟨d, _, hd⟩ := const_of_mem_runsBy hr'
  have hlast := hc _ (List.getLast_mem hne)
  have hhead := hd _ (List.head_mem hne')
  rw [hc a ha, hd b hb] at e
  simp [hlast, hhead, e] at hcut

end FastParse.Framework
