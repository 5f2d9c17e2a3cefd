import FastParse.Framework.Run
import Mathlib.Data.List.Induction

namespace FastParse.Framework

variable {σ τ α β ε : Type}

theorem stepsOk_concat {step : σ → α → Except ε σ} {ok : σ → α → Prop} {s t : σ} {xs ys : List α}
    (hxs : StepsOk step ok s xs) (hr : xs.foldlM step s = .ok t) (hys : StepsOk step ok t ys) :
    StepsOk step ok s (xs ++ ys) := by
  induction xs generalizing s with
  | nil =>
    cases hr
    exact hys
  | cons x xs ih =>
    rw [List.foldlM_cons, bind_eq_ok] at hr
    obtain ⟨u, hu, hr⟩ := hr
    obtain ⟨hx, hrest⟩ := stepsOk_cons hxs hu
    refine ⟨hx, ?_⟩
    rw [hu]
    exact ih hrest hr

theorem foldlM_concat (step : σ → α → Except ε σ) (s : σ) (xs : List α) (x : α) :
    (xs ++ [x]).foldlM step s = xs.foldlM step s >>= fun u => step u x := by
  simp [List.foldlM_append]

/-- The calls of `ys`, which are legal from `a` on and among those that `made` allows, stop. -/
def CallsStop (whole : τ → β → Except ε τ) (ok : τ → β → Prop) (made : List β → Prop) (a : τ)
    (ys : List β) : Prop :=
  StepsOk whole ok a ys ∧ (∃ e, ys.foldlM whole a = .error e) ∧ made ys

/-- `R` relates the small steps so far and their state to the calls they stand for and theirs; `D`
holds of a state once the calls have stopped, and `made` of the calls that the small steps have
begun. -/
structure Serializes (step : σ → α → Except ε σ) (legal : σ → α → Prop)
    (whole : τ → β → Except ε τ) (ok : τ → β → Prop) (R : List α → σ → List β → τ → Prop)
    (D : σ → Prop) (made : List α → List β → Prop) : Prop where
  go : ∀ xs s ys a x t, R xs s ys a → legal s x → step s x = .ok t →
    (∃ zs b, StepsOk whole ok a zs ∧ zs.foldlM whole a = .ok b ∧ R (xs ++ [x]) t (ys ++ zs) b) ∨
      (∃ zs, CallsStop whole ok (fun zs => made (xs ++ [x]) (ys ++ zs)) a zs) ∧ D t
  stop : ∀ xs s ys a x e, R xs s ys a → legal s x → step s x = .error e →
    ∃ zs, CallsStop whole ok (fun zs => made (xs ++ [x]) (ys ++ zs)) a zs
  late : ∀ s x t, D s → legal s x → step s x = .ok t → D t
  grows : ∀ xs x ys, made xs ys → made (xs ++ [x]) ys

namespace Serializes

variable {step : σ → α → Except ε σ} {legal : σ → α → Prop} {whole : τ → β → Except ε τ}
  {ok : τ → β → Prop} {R : List α → σ → List β → τ → Prop} {D : σ → Prop}
  {made : List α → List β → Prop} {s t : σ} {a b : τ} {xs : List α}

theorem callsStop_concat {made : List β → Prop} {ys zs : List β} (hys : StepsOk whole ok a ys)
    (hb : ys.foldlM whole a = .ok b) (h : CallsStop whole ok (fun zs => made (ys ++ zs)) b zs) :
    CallsStop whole ok made a (ys ++ zs) := by
  obtain ⟨hzs, ⟨e, he⟩, hmade⟩ := h
  refine ⟨stepsOk_concat hys hb hzs, ⟨e, ?_⟩, hmade⟩
  rw [List.foldlM_append, hb]
  exact he

theorem callsStop_grows (h : Serializes step legal whole ok R D made) {x : α} {ys : List β}
    (hys : CallsStop whole ok (made xs) a ys) : CallsStop whole ok (made (xs ++ [x])) a ys :=
  ⟨hys.1, hys.2.1, h.grows xs x ys hys.2.2⟩

/-- A run of small steps is one of whole calls, unless the calls have stopped. -/
theorem run (h : Serializes step legal whole ok R D made) (hs : R [] s [] a)
    (hlegal : StepsOk step legal s xs) (hr : xs.foldlM step s = .ok t) :
    (∃ ys b, StepsOk whole ok a ys ∧ ys.foldlM whole a = .ok b ∧ R xs t ys b) ∨
      (∃ ys, CallsStop whole ok (made xs) a ys) ∧ D t := by
  induction xs using List.reverseRecOn generalizing t with
  | nil =>
    cases hr
    exact .inl ⟨[], a, trivial, rfl, hs⟩
  | append_singleton xs x ih =>
    rw [foldlM_concat, bind_eq_ok] at hr
    obtain ⟨u, hu, hst⟩ := hr
    obtain ⟨hxs, hx⟩ := stepsOk_append hlegal
    have hx := (hx u hu).1
    cases ih hxs hu with
    | inl hrun =>
      obtain ⟨ys, b, hys, hb, hR⟩ := hrun
      cases h.go xs u ys b x t hR hx hst with
      | inl hgo =>
        obtain ⟨zs, c, hzs, hc, hR'⟩ := hgo
        refine .inl ⟨ys ++ zs, c, stepsOk_concat hys hb hzs, ?_, hR'⟩
        rw [List.foldlM_append, hb]
        exact hc
      | inr hgo =>
        obtain ⟨⟨zs, hzs⟩, hD⟩ := hgo
        exact .inr ⟨⟨ys ++ zs, callsStop_concat hys hb hzs⟩, hD⟩
    | inr hdone =>
      obtain ⟨⟨ys, hys⟩, hD⟩ := hdone
      exact .inr ⟨⟨ys, h.callsStop_grows hys⟩, h.late u x t hD hx hst⟩

theorem run_stops (h : Serializes step legal whole ok R D made) (hs : R [] s [] a) {e : ε}
    (hlegal : StepsOk step legal s xs) (hr : xs.foldlM step s = .error e) :
    ∃ ys, CallsStop whole ok (made xs) a ys := by
  induction xs using List.reverseRecOn with
  | nil => cases hr
  | append_singleton xs x ih =>
    obtain ⟨hxs, hx⟩ := stepsOk_append hlegal
    rw [foldlM_concat] at hr
    cases hu : xs.foldlM step s with
    | error e' =>
      rw [hu] at hr
      cases hr
      obtain ⟨ys, hys⟩ := ih hxs hu
      exact ⟨ys, h.callsStop_grows hys⟩
    | ok u =>
      rw [hu] at hr
      have hst : step u x = .error e := hr
      cases h.run hs hxs hu with
      | inl hrun =>
        obtain ⟨ys, b, hys, hb, hR⟩ := hrun
        obtain ⟨zs, hzs⟩ := h.stop xs u ys b x e hR (hx u hu).1 hst
        exact ⟨ys ++ zs, callsStop_concat hys hb hzs⟩
      | inr hdone =>
        obtain ⟨⟨ys, hys⟩, _⟩ := hdone
        exact ⟨ys, h.callsStop_grows hys⟩

end Serializes

end FastParse.Framework
