import FastParse.Framework.Run
import Mathlib.Data.Fintype.Pigeonhole

namespace FastParse.Framework

variable {ε σ τ κ : Type}

/-- `step` takes the state of a round to that of the next one, or ends the loop; `dry` is the
error of a loop whose fuel is used up. -/
def loop (dry : ε) (step : σ → Except ε (σ ⊕ τ)) : Nat → σ → Except ε τ
  | 0, _ => .error dry
  | fuel + 1, s =>
    match step s with
    | .error e => .error e
    | .ok (.inl t) => loop dry step fuel t
    | .ok (.inr b) => .ok b

/-- The rounds that a loop gets to from `s`. -/
def Reaches (step : σ → Except ε (σ ⊕ τ)) : σ → σ → Prop :=
  Relation.ReflTransGen fun s t => step s = .ok (.inl t)

section
variable {dry : ε} {step : σ → Except ε (σ ⊕ τ)}

theorem loop_next {s t : σ} (h : step s = .ok (.inl t)) (fuel : Nat) :
    loop dry step (fuel + 1) s = loop dry step fuel t := by
  rw [loop, h]

theorem loop_done {s : σ} {b : τ} (h : step s = .ok (.inr b)) (fuel : Nat) :
    loop dry step (fuel + 1) s = .ok b := by
  rw [loop, h]

theorem loop_error {s : σ} {e : ε} (h : step s = .error e) (fuel : Nat) :
    loop dry step (fuel + 1) s = .error e := by
  rw [loop, h]

theorem loop_bind {α : Type} {x : Except ε α} {f : α → σ} {s : σ}
    (h : step s = x >>= fun a => .ok (.inl (f a))) (fuel : Nat) :
    loop dry step (fuel + 1) s = x >>= fun a => loop dry step fuel (f a) := by
  rw [loop, h]
  cases x with
  | error e => rfl
  | ok a => rfl

/-- A loop that has not run dry has no use for more fuel. -/
theorem loop_mono {fuel more : Nat} {s : σ} (h : loop dry step fuel s ≠ .error dry)
    (hle : fuel ≤ more) : loop dry step more s = loop dry step fuel s := by
  induction fuel generalizing more s with
  | zero => exact absurd rfl h
  | succ fuel ih =>
    obtain ⟨more, rfl⟩ : ∃ k, more = k + 1 := ⟨more - 1, by omega⟩
    cases hs : step s with
    | error e => rw [loop_error hs, loop_error hs]
    | ok out =>
      cases out with
      | inl t =>
        rw [loop_next hs] at h
        rw [loop_next hs, loop_next hs, ih h (by omega)]
      | inr b => rw [loop_done hs, loop_done hs]

/-- What a round that the loop gets to comes to is what the loop comes to. -/
theorem loop_of_reaches {s t : σ} (h : Reaches step s t) :
    ∃ rounds, ∀ fuel, loop dry step (fuel + rounds) s = loop dry step fuel t := by
  induction h with
  | refl => exact ⟨0, fun _ => rfl⟩
  | tail _ hstep ih =>
    obtain ⟨rounds, hrounds⟩ := ih
    refine ⟨rounds + 1, ?_⟩
    intro fuel
    have e : fuel + (rounds + 1) = (fuel + 1) + rounds := by omega
    rw [e, hrounds, loop_next hstep]

theorem dry_of_reaches {s t : σ} (h : Reaches step s t)
    (hdry : ∀ fuel, loop dry step fuel t = .error dry) (fuel : Nat) :
    loop dry step fuel s = .error dry := by
  by_contra hne
  obtain ⟨rounds, hrounds⟩ := @loop_of_reaches ε σ τ dry step s t h
  apply hne
  rw [← loop_mono hne (Nat.le_add_right fuel rounds), hrounds, hdry]

/-- An invariant under which every round leads to another one keeps the loop going. -/
theorem loop_dry {I : σ → Prop} (keep : ∀ s, I s → ∃ t, step s = .ok (.inl t) ∧ I t) {s : σ}
    (hs : I s) (fuel : Nat) : loop dry step fuel s = .error dry := by
  induction fuel generalizing s with
  | zero => rfl
  | succ fuel ih =>
    obtain ⟨t, hstep, ht⟩ := keep s hs
    rw [loop_next hstep, ih ht]

/-- A measure that goes down in every round ends the loop. -/
theorem loop_ends {μ : σ → Nat} {s : σ} {fuel : Nat}
    (h : ∀ t, Reaches step s t →
      step t ≠ .error dry ∧ ∀ u, step t = .ok (.inl u) → μ u < μ t)
    (hfuel : μ s < fuel) : loop dry step fuel s ≠ .error dry := by
  induction fuel generalizing s with
  | zero => exact absurd hfuel (Nat.not_lt_zero _)
  | succ fuel ih =>
    obtain ⟨hne, hless⟩ := h s .refl
    cases hs : step s with
    | error e =>
      rw [loop_error hs]
      rw [hs] at hne
      intro he
      exact hne (by rw [Except.error.inj he])
    | ok out =>
      cases out with
      | inl t =>
        rw [loop_next hs]
        have hlt := hless t hs
        exact ih (fun u hu => h u (.head hs hu)) (by omega)
      | inr b =>
        rw [loop_done hs]
        intro he
        cases he

theorem rounds_of_dry (hne : ∀ s, step s ≠ .error dry) {fuel : Nat} {s : σ}
    (h : loop dry step fuel s = .error dry) :
    ∃ f : Nat → σ, f 0 = s ∧ ∀ n < fuel, step (f n) = .ok (.inl (f (n + 1))) := by
  induction fuel generalizing s with
  | zero => exact ⟨fun _ => s, rfl, fun n hn => absurd hn (Nat.not_lt_zero n)⟩
  | succ fuel ih =>
    cases hs : step s with
    | error e =>
      rw [loop_error hs] at h
      exact absurd (hs.trans (by rw [Except.error.inj h])) (hne s)
    | ok out =>
      cases out with
      | inl t =>
        rw [loop_next hs] at h
        obtain ⟨f, hf, hrounds⟩ := ih h
        refine ⟨fun n => n.casesOn s f, rfl, ?_⟩
        intro n hn
        cases n with
        | zero => exact hs.trans (by rw [← hf])
        | succ n => exact hrounds n (by omega)
      | inr b =>
        rw [loop_done hs] at h
        cases h

/-- If a round's course depends on a part of the state that has finitely many values, a loop
that takes more rounds than that never ends. -/
theorem dry_forever [Fintype κ] {ctl : σ → κ} (hne : ∀ s, step s ≠ .error dry)
    (hctl : ∀ s s' t, ctl s = ctl s' → step s = .ok (.inl t) →
      ∃ t', step s' = .ok (.inl t') ∧ ctl t = ctl t')
    {fuel : Nat} {s : σ} (hfuel : Fintype.card κ < fuel)
    (h : loop dry step fuel s = .error dry) (more : Nat) :
    loop dry step more s = .error dry := by
  obtain ⟨f, rfl, hrounds⟩ := rounds_of_dry hne h
  obtain ⟨a, b, hab, hsame⟩ : ∃ a b : Fin fuel, a < b ∧ ctl (f a) = ctl (f b) := by
    obtain ⟨a, b, hne, hsame⟩ :=
      Fintype.exists_ne_map_eq_of_card_lt (fun n : Fin fuel => ctl (f n)) (by simpa using hfuel)
    cases lt_or_gt_of_ne hne with
    | inl hlt => exact ⟨a, b, hlt, hsame⟩
    | inr hlt => exact ⟨b, a, hlt, hsame.symm⟩
  -- from round `a` on the loop goes through the rounds up to `b` again and again
  have hcycle : ∀ s, (∃ n, a.1 ≤ n ∧ n < b.1 ∧ ctl (f n) = ctl s) →
      ∃ t, step s = .ok (.inl t) ∧ ∃ n, a.1 ≤ n ∧ n < b.1 ∧ ctl (f n) = ctl t := by
    rintro s ⟨n, han, hnb, hn⟩
    obtain ⟨t, ht, hnext⟩ := hctl (f n) s _ hn (hrounds n (by omega))
    refine ⟨t, ht, ?_⟩
    by_cases hend : n + 1 = b.1
    · refine ⟨a.1, Nat.le_refl _, hab, ?_⟩
      rw [hsame, ← hend, hnext]
    · exact ⟨n + 1, by omega, by omega, hnext⟩
  have hreach : ∀ n ≤ a.1, Reaches step (f 0) (f n) := by
    intro n hn
    induction n with
    | zero => exact .refl
    | succ n ih => exact (ih (by omega)).tail (hrounds n (by omega))
  exact dry_of_reaches (hreach a.1 (Nat.le_refl _))
    (loop_dry hcycle ⟨a.1, Nat.le_refl _, hab, rfl⟩) more

theorem Reaches.keeps {I : σ → Prop} (keep : ∀ s t, I s → step s = .ok (.inl t) → I t)
    {s t : σ} (h : Reaches step s t) (hs : I s) : I t := by
  induction h with
  | refl => exact hs
  | tail _ hstep ih => exact keep _ _ ih hstep

end

section
variable {α β : Type} {e : ε}

/-- `x` does not stop with the error `e`. -/
def Avoids (e : ε) (x : Except ε α) : Prop := x ≠ .error e

@[simp] theorem avoids_ok (a : α) : Avoids e (.ok a) := by
  intro h
  cases h

@[simp] theorem avoids_pure (a : α) : Avoids e (pure a : Except ε α) := avoids_ok a

theorem Avoids.bind_ok {x : Except ε α} {f : α → Except ε β} (hx : Avoids e x)
    (hf : ∀ a, x = .ok a → Avoids e (f a)) : Avoids e (x >>= f) := by
  cases h : x with
  | error e' =>
    intro he
    exact hx (h.trans (by rw [Except.error.inj he]))
  | ok a => exact hf a h

theorem Avoids.bind {x : Except ε α} {f : α → Except ε β} (hx : Avoids e x)
    (hf : ∀ a, Avoids e (f a)) : Avoids e (x >>= f) := hx.bind_ok fun a _ => hf a

theorem Avoids.ite_cases {p : Prop} [Decidable p] {x y : Except ε α} (hx : p → Avoids e x)
    (hy : ¬ p → Avoids e y) : Avoids e (if p then x else y) := by
  split_ifs with h
  · exact hx h
  · exact hy h

theorem Avoids.ite {p : Prop} [Decidable p] {x y : Except ε α} (hx : Avoids e x)
    (hy : Avoids e y) : Avoids e (if p then x else y) := Avoids.ite_cases (fun _ => hx) fun _ => hy

/-- A bind ends with `e` in its first or in its second part. -/
theorem bind_eq_error {x : Except ε α} {f : α → Except ε β} :
    x >>= f = .error e ↔ x = .error e ∨ ∃ a, x = .ok a ∧ f a = .error e := by
  cases x with
  | error e' => simp [Bind.bind, Except.bind]
  | ok a => simp [Bind.bind, Except.bind]

theorem avoids_foldlM {step : σ → α → Except ε σ} {xs : List α}
    (h : ∀ x ∈ xs, ∀ s, Avoids e (step s x)) (s : σ) : Avoids e (xs.foldlM step s) := by
  induction xs generalizing s with
  | nil => exact avoids_pure s
  | cons x xs ih =>
    rw [List.foldlM_cons]
    exact (h x List.mem_cons_self s).bind
      fun t => ih (fun y hy => h y (List.mem_cons_of_mem x hy)) t

/-- The run rule: where the invariant holds and `ok` is met, no step stops with `e`. -/
theorem run_avoids {step : σ → α → Except ε σ} {ok : σ → α → Prop} {I : σ → Prop}
    (keep : ∀ s x t, I s → step s x = .ok t → I t)
    (h : ∀ s x, I s → ok s x → Avoids e (step s x)) {s : σ} {xs : List α} (hs : I s)
    (hok : StepsOk step ok s xs) : Avoids e (xs.foldlM step s) := by
  induction xs generalizing s with
  | nil => exact avoids_pure s
  | cons x xs ih =>
    rw [List.foldlM_cons]
    exact (h s x hs hok.1).bind_ok fun t ht => ih (keep s x t hs ht) (stepsOk_cons hok ht).2

/-- The same for the rounds of a loop, if `e` is not the error of one that has run dry. -/
theorem loop_avoids {dry : ε} {step : σ → Except ε (σ ⊕ τ)} (hdry : e ≠ dry) {s : σ}
    (h : ∀ t, Reaches step s t → Avoids e (step t)) (fuel : Nat) :
    Avoids e (loop dry step fuel s) := by
  induction fuel generalizing s with
  | zero => exact fun he => hdry (Except.error.inj he).symm
  | succ fuel ih =>
    have hfirst := h s .refl
    cases hs : step s with
    | error e' =>
      rw [loop_error hs]
      intro he
      exact hfirst (hs.trans (by rw [Except.error.inj he]))
    | ok out =>
      cases out with
      | inl t =>
        rw [loop_next hs]
        exact ih fun u hu => h u (.head hs hu)
      | inr b =>
        rw [loop_done hs]
        exact avoids_ok b

end

end FastParse.Framework
