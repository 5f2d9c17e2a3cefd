import FastParse.Framework.Run

namespace FastParse.Framework

variable {ε σ τ α : Type}

/-- The inputs of `as` and those of `bs`, each in their own order. -/
inductive Interleaves : List α → List α → List α → Prop
  | nil : Interleaves [] [] []
  | left {x : α} {as bs l : List α} : Interleaves as bs l → Interleaves (x :: as) bs (x :: l)
  | right {x : α} {as bs l : List α} : Interleaves as bs l → Interleaves as (x :: bs) (x :: l)

namespace Interleaves

variable {as bs l : List α}

theorem symm (h : Interleaves as bs l) : Interleaves bs as l := by
  induction h with
  | nil => exact .nil
  | left _ ih => exact ih.right
  | right _ ih => exact ih.left

theorem append (as bs : List α) : Interleaves as bs (as ++ bs) := by
  induction as with
  | nil =>
    induction bs with
    | nil => exact .nil
    | cons b bs ih => exact ih.right
  | cons a as ih => exact ih.left

theorem mem_iff (h : Interleaves as bs l) {x : α} : x ∈ l ↔ x ∈ as ∨ x ∈ bs := by
  induction h with
  | nil => simp
  | left _ ih => rw [List.mem_cons, ih, List.mem_cons, or_assoc]
  | right _ ih => rw [List.mem_cons, ih, List.mem_cons, or_left_comm]

/-- The inputs of one party are found again among all. -/
theorem filter_left {p : α → Prop} [DecidablePred p] (h : Interleaves as bs l)
    (ha : ∀ x ∈ as, p x) (hb : ∀ x ∈ bs, ¬ p x) : l.filter (p ·) = as := by
  induction h with
  | nil => rfl
  | left _ ih =>
    obtain ⟨hx, ha⟩ := List.forall_mem_cons.mp ha
    rw [List.filter_cons_of_pos (by simpa using hx), ih ha hb]
  | right _ ih =>
    obtain ⟨hx, hb⟩ := List.forall_mem_cons.mp hb
    rw [List.filter_cons_of_neg (by simpa using hx), ih ha hb]

end Interleaves

/-- Two runs over the same inputs, step by step; the relation may depend on how many inputs
are still to come. -/
theorem run_lockstep {R : Nat → σ → τ → Prop} {step : σ → α → Except ε σ}
    {step' : τ → α → Except ε τ} {ok : σ → α → Prop} {ok' : τ → α → Prop}
    (h : ∀ n s t x s' t', R (n + 1) s t → ok s x → ok' t x → step s x = .ok s' →
      step' t x = .ok t' → R n s' t')
    {s s' : σ} {t t' : τ} {xs : List α} (hR : R xs.length s t) (hs : StepsOk step ok s xs)
    (ht : StepsOk step' ok' t xs) (rs : xs.foldlM step s = .ok s')
    (rt : xs.foldlM step' t = .ok t') : R 0 s' t' := by
  induction xs generalizing s t with
  | nil =>
    cases rs
    cases rt
    exact hR
  | cons x xs ih =>
    rw [List.foldlM_cons, bind_eq_ok] at rs rt
    obtain ⟨u, hu, rs⟩ := rs
    obtain ⟨v, hv, rt⟩ := rt
    obtain ⟨hsx, hs⟩ := stepsOk_cons hs hu
    obtain ⟨htx, ht⟩ := stepsOk_cons ht hv
    exact ih (h _ s t x u v hR hsx htx hu hv) hs ht rs rt

/-- A relation between states that says what they have in common for one party: its own
inputs keep it when both runs take them, the inputs of others when either run does. -/
structure Unwinds (step : σ → α → Except ε σ) (ok : σ → α → Prop) (mine : α → Prop)
    (R : σ → σ → Prop) : Prop where
  symm : ∀ s t, R s t → R t s
  own : ∀ s t x s' t', R s t → mine x → ok s x → ok t x → step s x = .ok s' →
    step t x = .ok t' → R s' t'
  other : ∀ s t x s', R s t → ¬ mine x → ok s x → step s x = .ok s' → R s' t

namespace Unwinds

variable {step : σ → α → Except ε σ} {ok : σ → α → Prop} {mine : α → Prop}
  {R : σ → σ → Prop}

theorem others (h : Unwinds step ok mine R) {s s' t : σ} {l : List α} (hl : ∀ x ∈ l, ¬ mine x)
    (hR : R s t) (hs : StepsOk step ok s l) (rs : l.foldlM step s = .ok s') : R s' t :=
  run_invariant (I := fun s => R s t) (fun s x s' hR ho hst => h.other s t x s' hR ho.2 ho.1 hst)
    hR (stepsOk_and hs (stepsOk_of_forall (fun x hx _ => hl x hx) s)) rs

/-- Runs in which the party has the same inputs in the same order end related. -/
theorem run [DecidablePred mine] (h : Unwinds step ok mine R) {l l' : List α}
    (hl : l.filter (mine ·) = l'.filter (mine ·)) {s s' t t' : σ} (hR : R s t)
    (hs : StepsOk step ok s l) (ht : StepsOk step ok t l') (rs : l.foldlM step s = .ok s')
    (rt : l'.foldlM step t = .ok t') : R s' t' := by
  induction l generalizing l' s t with
  | nil =>
    cases rs
    have hnone : ∀ x ∈ l', ¬ mine x := by
      intro x hx
      have hf := List.filter_eq_nil_iff.mp hl.symm x hx
      simpa using hf
    exact h.symm _ _ (h.others hnone (h.symm _ _ hR) ht rt)
  | cons x l ih =>
    rw [List.foldlM_cons, bind_eq_ok] at rs
    obtain ⟨u, hu, rs⟩ := rs
    obtain ⟨hsx, hs⟩ := stepsOk_cons hs hu
    by_cases hx : mine x
    · -- the other run takes `x` after some inputs of others
      rw [List.filter_cons_of_pos (by simpa using hx)] at hl
      obtain ⟨pre, post, rfl, hpre, _, hpost⟩ := List.filter_eq_cons_iff.mp hl.symm
      obtain ⟨ht, hrest⟩ := stepsOk_append ht
      rw [List.foldlM_append, bind_eq_ok] at rt
      obtain ⟨v, hv, rt⟩ := rt
      rw [List.foldlM_cons, bind_eq_ok] at rt
      obtain ⟨w, hw, rt⟩ := rt
      obtain ⟨htx, hrest⟩ := stepsOk_cons (hrest v hv) hw
      have hpre : ∀ y ∈ pre, ¬ mine y := by
        intro y hy
        simpa using hpre y hy
      have hRv := h.symm _ _ (h.others hpre (h.symm _ _ hR) ht hv)
      exact ih hpost.symm (h.own s v x u w hRv hx hsx htx hu hw) hs hrest rs rt
    · rw [List.filter_cons_of_neg (by simpa using hx)] at hl
      exact ih hl (h.other s t x u hR hx hsx hu) hs ht rs rt

end Unwinds

end FastParse.Framework
