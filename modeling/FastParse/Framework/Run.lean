import Mathlib.Logic.Relation
import Mathlib.Tactic.Common

namespace FastParse.Framework

variable {ε σ τ α : Type}

/-- A bind returns exactly when both of its parts return. -/
theorem bind_eq_ok {x : Except ε α} {f : α → Except ε τ} {b : τ} :
    x >>= f = .ok b ↔ ∃ a, x = .ok a ∧ f a = .ok b := by
  cases x with
  | error e => simp [bind, Except.bind]
  | ok a => simp [bind, Except.bind]

/-- A view of the result that can be evaluated gives the result. -/
theorem exists_of_map_eq_ok {x : Except ε α} {f : α → τ} {b : τ} (h : x.map f = .ok b) :
    ∃ a, x = .ok a ∧ f a = b := by
  cases x with
  | error e => simp [Except.map] at h
  | ok a => exact ⟨a, rfl, by simpa [Except.map] using h⟩

theorem eq_error_of_map {x : Except ε α} {f : α → τ} {e : ε} (h : x.map f = .error e) :
    x = .error e := by
  cases x with
  | error e' => simpa [Except.map] using h
  | ok a => simp [Except.map] at h

/-- Every step of the run starts in a state that meets `ok` together with its input. -/
def StepsOk (step : σ → α → Except ε σ) (ok : σ → α → Prop) : σ → List α → Prop
  | _, [] => True
  | s, x :: xs => ok s x ∧
      match step s x with
      | .ok t => StepsOk step ok t xs
      | .error _ => True

instance StepsOk.decidable (step : σ → α → Except ε σ) (ok : σ → α → Prop)
    [∀ s x, Decidable (ok s x)] : ∀ (s : σ) (xs : List α), Decidable (StepsOk step ok s xs)
  | _, [] => isTrue trivial
  | s, x :: xs =>
    match h : step s x with
    | .ok t =>
      have := StepsOk.decidable step ok t xs
      decidable_of_iff (ok s x ∧ StepsOk step ok t xs) (by simp [StepsOk, h])
    | .error _ => decidable_of_iff (ok s x) (by simp [StepsOk, h])

theorem stepsOk_cons {step : σ → α → Except ε σ} {ok : σ → α → Prop} {s t : σ} {x : α}
    {xs : List α} (h : StepsOk step ok s (x :: xs)) (hx : step s x = .ok t) :
    ok s x ∧ StepsOk step ok t xs := by
  simpa [StepsOk, hx] using h

theorem stepsOk_of_forall {step : σ → α → Except ε σ} {ok : σ → α → Prop} {xs : List α}
    (h : ∀ x ∈ xs, ∀ s, ok s x) (s : σ) : StepsOk step ok s xs := by
  induction xs generalizing s with
  | nil => trivial
  | cons x xs ih =>
    refine ⟨h x List.mem_cons_self s, ?_⟩
    cases step s x with
    | ok t => exact ih (fun y hy => h y (List.mem_cons_of_mem x hy)) t
    | error e => trivial

theorem stepsOk_and {step : σ → α → Except ε σ} {ok ok' : σ → α → Prop} {s : σ} {xs : List α}
    (h : StepsOk step ok s xs) (h' : StepsOk step ok' s xs) :
    StepsOk step (fun s x => ok s x ∧ ok' s x) s xs := by
  induction xs generalizing s with
  | nil => trivial
  | cons x xs ih =>
    refine ⟨⟨h.1, h'.1⟩, ?_⟩
    have h := h.2
    have h' := h'.2
    cases hst : step s x with
    | ok t =>
      rw [hst] at h h'
      exact ih h h'
    | error e => trivial

theorem stepsOk_append {step : σ → α → Except ε σ} {ok : σ → α → Prop} {s : σ} {xs ys : List α}
    (h : StepsOk step ok s (xs ++ ys)) :
    StepsOk step ok s xs ∧ ∀ t, xs.foldlM step s = .ok t → StepsOk step ok t ys := by
  induction xs generalizing s with
  | nil =>
    refine ⟨trivial, ?_⟩
    intro t ht
    cases ht
    exact h
  | cons x xs ih =>
    rw [List.cons_append] at h
    have hrest := h.2
    simp only [StepsOk, List.foldlM_cons, bind_eq_ok]
    cases hst : step s x with
    | ok u =>
      rw [hst] at hrest
      obtain ⟨hxs, hys⟩ := ih hrest
      refine ⟨⟨h.1, hxs⟩, ?_⟩
      intro t ht
      obtain ⟨v, hv, ht⟩ := ht
      cases hv
      exact hys t ht
    | error e =>
      refine ⟨⟨h.1, trivial⟩, ?_⟩
      intro t ht
      obtain ⟨v, hv, _⟩ := ht
      cases hv

theorem stepsOk_true (step : σ → α → Except ε σ) (s : σ) (xs : List α) :
    StepsOk step (fun _ _ => True) s xs :=
  stepsOk_of_forall (fun _ _ _ => trivial) s

/-- The run rule for an invariant that may depend on how many inputs are still to come. -/
theorem run_counted {step : σ → α → Except ε σ} {ok : σ → α → Prop} {I : Nat → σ → Prop}
    (keep : ∀ n s x t, I (n + 1) s → ok s x → step s x = .ok t → I n t)
    {s t : σ} {xs : List α} (hs : I xs.length s) (hok : StepsOk step ok s xs)
    (hr : xs.foldlM step s = .ok t) : I 0 t := by
  induction xs generalizing s with
  | nil =>
    have e : s = t := by simpa [pure, Except.pure] using hr
    exact e ▸ hs
  | cons x xs ih =>
    rw [List.foldlM_cons, bind_eq_ok] at hr
    obtain ⟨u, hu, hr⟩ := hr
    obtain ⟨hx, hxs⟩ := stepsOk_cons hok hu
    exact ih (keep xs.length s x u hs hx hu) hxs hr

/-- An invariant kept by every step that meets `ok` holds at the end. -/
theorem run_invariant {step : σ → α → Except ε σ} {ok : σ → α → Prop} {I : σ → Prop}
    (keep : ∀ s x t, I s → ok s x → step s x = .ok t → I t)
    {s t : σ} {xs : List α} (hs : I s) (hok : StepsOk step ok s xs)
    (hr : xs.foldlM step s = .ok t) : I t :=
  run_counted (I := fun _ => I) (fun _ s x t => keep s x t) hs hok hr

/-- What one input brings about and all inputs keep holds at the end of every run that has it;
both may depend on how many inputs are still to come. -/
theorem run_reaches_counted {step : σ → α → Except ε σ} {ok : σ → α → Prop} {I G : Nat → σ → Prop}
    {x : α}
    (keep : ∀ n s y t, I (n + 1) s → ok s y → step s y = .ok t →
      I n t ∧ (G (n + 1) s → G n t))
    (set : ∀ n s t, I (n + 1) s → ok s x → step s x = .ok t → G n t)
    {s t : σ} {xs : List α} (hx : x ∈ xs) (hs : I xs.length s) (hok : StepsOk step ok s xs)
    (hr : xs.foldlM step s = .ok t) : G 0 t := by
  induction xs generalizing s with
  | nil => cases hx
  | cons y ys ih =>
    rw [List.foldlM_cons, bind_eq_ok] at hr
    obtain ⟨u, hu, hr⟩ := hr
    obtain ⟨hy, hys⟩ := stepsOk_cons hok hu
    have hI := (keep ys.length s y u hs hy hu).1
    cases List.mem_cons.mp hx with
    | inl e =>
      subst e
      have hG := set ys.length s u hs hy hu
      have hboth : I 0 t ∧ G 0 t := by
        refine run_counted (I := fun n s => I n s ∧ G n s) ?_ ⟨hI, hG⟩ hys hr
        intro n s z v hs hz hv
        obtain ⟨hkeep, hgoal⟩ := keep n s z v hs.1 hz hv
        exact ⟨hkeep, hgoal hs.2⟩
      exact hboth.2
    | inr hx => exact ih hx hI hys hr

theorem run_reaches {step : σ → α → Except ε σ} {ok : σ → α → Prop} {I G : σ → Prop} {x : α}
    (keep : ∀ s y t, I s → ok s y → step s y = .ok t → I t ∧ (G s → G t))
    (set : ∀ s t, I s → ok s x → step s x = .ok t → G t)
    {s t : σ} {xs : List α} (hx : x ∈ xs) (hs : I s) (hok : StepsOk step ok s xs)
    (hr : xs.foldlM step s = .ok t) : G t :=
  run_reaches_counted (I := fun _ => I) (G := fun _ => G) (fun _ => keep) (fun _ => set) hx hs hok
    hr

/-- A property of every state a run goes through, which may refer to the inputs so far: it holds
throughout exactly when all inputs meet `P`, if it holds where the invariant does and `P` is what
a step needs for either of them. -/
theorem run_tracks_iff {step : σ → α → Except ε σ} {legal : σ → α → Prop} {track : τ → α → τ}
    {I F : τ → σ → Prop} {P : α → Prop} (now : ∀ a s, I a s → F a s)
    (next : ∀ a s x t, I a s → legal s x → step s x = .ok t →
      (F (track a x) t → P x) ∧ (P x → I (track a x) t))
    {a : τ} {s t : σ} {xs : List α} (hs : I a s) (hlegal : StepsOk step legal s xs)
    (hr : xs.foldlM step s = .ok t) :
    (∀ pre post u, xs = pre ++ post → pre.foldlM step s = .ok u → F (pre.foldl track a) u) ↔
      ∀ x ∈ xs, P x := by
  induction xs generalizing a s with
  | nil =>
    refine ⟨fun _ x hx => (nomatch hx), ?_⟩
    intro _ pre post u e hu
    obtain ⟨rfl, _⟩ := List.append_eq_nil_iff.mp e.symm
    cases hu
    exact now a s hs
  | cons x xs ih =>
    rw [List.foldlM_cons, bind_eq_ok] at hr
    obtain ⟨v, hv, hr⟩ := hr
    obtain ⟨hx, hxs⟩ := stepsOk_cons hlegal hv
    obtain ⟨hneeds, hkeeps⟩ := next a s x v hs hx hv
    have hfirst (pre : List α) (u : σ) (hu : pre.foldlM step v = .ok u) :
        (x :: pre).foldlM step s = .ok u := by
      rw [List.foldlM_cons, bind_eq_ok]
      exact ⟨v, hv, hu⟩
    constructor
    · intro h
      have hP := hneeds (h [x] xs v rfl (hfirst [] v rfl))
      have hrest := (ih (hkeeps hP) hxs hr).mp fun pre post u e hu =>
        h (x :: pre) post u (by rw [e, List.cons_append]) (hfirst pre u hu)
      intro y hy
      cases List.mem_cons.mp hy with
      | inl e => exact e ▸ hP
      | inr hy => exact hrest y hy
    · intro h pre post u e hu
      cases pre with
      | nil =>
        cases hu
        exact now a s hs
      | cons y pre =>
        obtain ⟨rfl, rfl⟩ := List.cons.inj e
        rw [List.foldlM_cons, bind_eq_ok] at hu
        obtain ⟨w, hw, hu⟩ := hu
        obtain rfl : v = w := Except.ok.inj (hv.symm.trans hw)
        have hP := h x List.mem_cons_self
        exact (ih (hkeeps hP) hxs hr).mpr (fun y hy => h y (List.mem_cons_of_mem x hy)) pre post u
          rfl hu

/-- What never goes down along a run that ends at `b` or below stays at `b` or below. -/
theorem stepsOk_below {step : σ → α → Except ε σ} {f : σ → Nat} {b : Nat}
    (mono : ∀ s x t, step s x = .ok t → f s ≤ f t) {s t : σ} {xs : List α}
    (hr : xs.foldlM step s = .ok t) (hb : f t ≤ b) :
    f s ≤ b ∧ StepsOk step (fun s x => ∀ u, step s x = .ok u → f u ≤ b) s xs := by
  induction xs generalizing s with
  | nil =>
    cases hr
    exact ⟨hb, trivial⟩
  | cons x xs ih =>
    rw [List.foldlM_cons, bind_eq_ok] at hr
    obtain ⟨u, hu, hr⟩ := hr
    obtain ⟨hle, hxs⟩ := ih hr
    refine ⟨Nat.le_trans (mono s x u hu) hle, ?_, ?_⟩
    · intro v hv
      obtain rfl : u = v := Except.ok.inj (hu.symm.trans hv)
      exact hle
    · rw [hu]
      exact hxs

/-- In a run that returns, two conditions are met by the same steps if they agree wherever an
invariant holds that the second one keeps. -/
theorem stepsOk_iff {step : σ → α → Except ε σ} {legal ok ok' : σ → α → Prop} {I : σ → Prop}
    (h : ∀ s x t, I s → legal s x → step s x = .ok t → (ok s x ↔ ok' s x) ∧ (ok' s x → I t))
    {s t : σ} {xs : List α} (hs : I s) (hlegal : StepsOk step legal s xs)
    (hr : xs.foldlM step s = .ok t) : StepsOk step ok s xs ↔ StepsOk step ok' s xs := by
  induction xs generalizing s with
  | nil => exact Iff.rfl
  | cons x xs ih =>
    rw [List.foldlM_cons, bind_eq_ok] at hr
    obtain ⟨u, hu, hr⟩ := hr
    obtain ⟨hx, hxs⟩ := stepsOk_cons hlegal hu
    obtain ⟨hiff, hkeep⟩ := h s x u hs hx hu
    simp only [StepsOk, hu]
    constructor
    · intro hok
      exact ⟨hiff.mp hok.1, (ih (hkeep (hiff.mp hok.1)) hxs hr).mp hok.2⟩
    · intro hok
      exact ⟨hiff.mpr hok.1, (ih (hkeep hok.1) hxs hr).mpr hok.2⟩

/-- The same for an invariant that every step keeps. -/
theorem stepsOk_congr {step : σ → α → Except ε σ} {ok ok' : σ → α → Prop} {I : σ → Prop}
    (keep : ∀ s x t, I s → step s x = .ok t → I t)
    (h : ∀ s x t, I s → step s x = .ok t → (ok s x ↔ ok' s x))
    {s t : σ} {xs : List α} (hs : I s) (hr : xs.foldlM step s = .ok t) :
    StepsOk step ok s xs ↔ StepsOk step ok' s xs :=
  @stepsOk_iff ε σ α step (fun _ _ => True) ok ok' I
    (fun s x t hI _ hst => ⟨h s x t hI hst, fun _ => keep s x t hI hst⟩) s t xs hs
    (stepsOk_true step s xs) hr

/-- Every input of a run that returns has made a step. -/
theorem exists_step {step : σ → α → Except ε σ} {s t : σ} {x : α} {xs : List α} (hx : x ∈ xs)
    (hr : xs.foldlM step s = .ok t) : ∃ u v, step u x = .ok v := by
  induction xs generalizing s with
  | nil => cases hx
  | cons y ys ih =>
    rw [List.foldlM_cons, bind_eq_ok] at hr
    obtain ⟨u, hu, hr⟩ := hr
    cases List.mem_cons.mp hx with
    | inl e => exact ⟨s, u, e ▸ hu⟩
    | inr hx => exact ih hx hr

/-- A run whose inputs can each be taken in any state returns. -/
theorem run_returns {step : σ → α → Except ε σ} {xs : List α}
    (h : ∀ x ∈ xs, ∀ s, ∃ t, step s x = .ok t) (s : σ) : ∃ t, xs.foldlM step s = .ok t := by
  induction xs generalizing s with
  | nil => exact ⟨s, rfl⟩
  | cons x xs ih =>
    obtain ⟨u, hu⟩ := h x List.mem_cons_self s
    obtain ⟨t, ht⟩ := ih (fun y hy => h y (List.mem_cons_of_mem x hy)) u
    refine ⟨t, ?_⟩
    rw [List.foldlM_cons, bind_eq_ok]
    exact ⟨u, hu, ht⟩

theorem foldlM_eq_foldl {step : σ → α → Except ε σ} {next : σ → α → σ} {xs : List α}
    (h : ∀ x ∈ xs, ∀ s, step s x = .ok (next s x)) (s : σ) :
    xs.foldlM step s = .ok (xs.foldl next s) := by
  induction xs generalizing s with
  | nil => rfl
  | cons x xs ih =>
    rw [List.foldlM_cons, h x List.mem_cons_self]
    exact ih (fun y hy => h y (List.mem_cons_of_mem x hy)) (next s x)

theorem foldlM_record {f : α → τ} {step : List τ → α → Except ε (List τ)}
    (h : ∀ l x, step l x = .ok (l ++ [f x])) (xs : List α) (l : List τ) :
    xs.foldlM step l = .ok (l ++ xs.map f) := by
  rw [foldlM_eq_foldl (fun x _ l => h l x), List.foldl_append_eq_append, ← List.flatMap_def,
    ← List.map_eq_flatMap]

/-- The run rule for a simulation: where every step goes through and keeps a relation to the
abstract state, a whole run does. The relation may speak of the inputs still to come. -/
theorem run_simulates {step : σ → α → Except ε σ} {abstract : τ → α → τ}
    {R : List α → σ → τ → Prop}
    (h : ∀ x xs s a, R (x :: xs) s a → ∃ t, step s x = .ok t ∧ R xs t (abstract a x))
    {xs : List α} {s : σ} {a : τ} (hs : R xs s a) :
    ∃ t, xs.foldlM step s = .ok t ∧ R [] t (xs.foldl abstract a) := by
  induction xs generalizing s a with
  | nil => exact ⟨s, rfl, hs⟩
  | cons x xs ih =>
    obtain ⟨u, hu, hrest⟩ := h x xs s a hs
    obtain ⟨t, ht, hend⟩ := ih hrest
    refine ⟨t, ?_, hend⟩
    rw [List.foldlM_cons, hu]
    exact ht

/-- The run rule for a step that keeps the invariant on every input. -/
theorem run_keeps {step : σ → α → Except ε σ} {I : σ → Prop}
    (keep : ∀ s x t, I s → step s x = .ok t → I t)
    {s t : σ} {xs : List α} (hs : I s) (hr : xs.foldlM step s = .ok t) : I t :=
  @run_invariant ε σ α step (fun _ _ => True) I (fun s x t h _ => keep s x t h) s t xs hs
    (stepsOk_true step s xs) hr

/-- Every step of a run that cannot stop starts in a state that meets `ok`. -/
def Always (step : σ → α → σ) (ok : σ → α → Prop) : σ → List α → Prop
  | _, [] => True
  | s, x :: xs => ok s x ∧ Always step ok (step s x) xs

section
variable {β : Type} {step : σ → α → Except ε σ} {abstract : τ → β → τ}

/-- A run seen through `view` is the abstract run of the same inputs, and the same steps meet
a condition on what is seen. -/
theorem run_view {I : σ → Prop} (view : σ → τ) (tr : α → β)
    (h : ∀ s x t, I s → step s x = .ok t → I t ∧ view t = abstract (view s) (tr x))
    (ok : τ → β → Prop) {s t : σ} {xs : List α} (hs : I s) (hr : xs.foldlM step s = .ok t) :
    I t ∧ view t = (xs.map tr).foldl abstract (view s) ∧
      (StepsOk step (fun s x => ok (view s) (tr x)) s xs ↔
        Always abstract ok (view s) (xs.map tr)) := by
  induction xs generalizing s with
  | nil =>
    have e : s = t := by simpa [pure, Except.pure] using hr
    subst e
    exact ⟨hs, rfl, Iff.rfl⟩
  | cons x xs ih =>
    rw [List.foldlM_cons, bind_eq_ok] at hr
    obtain ⟨u, hu, hr⟩ := hr
    obtain ⟨hI, e⟩ := h s x u hs hu
    obtain ⟨ht, hview, hok⟩ := ih hI hr
    rw [e] at hview hok
    refine ⟨ht, hview, ?_⟩
    simp only [StepsOk, hu, hok, List.map_cons, Always]

end

end FastParse.Framework
