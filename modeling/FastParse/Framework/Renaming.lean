import Mathlib.Logic.Function.Basic
import Mathlib.Tactic.Common

namespace FastParse.Framework

variable {α β γ : Type}

def OneToOne (ρ : α → β → Prop) : Prop := ∀ a b a' b', ρ a b → ρ a' b' → (a = a' ↔ b = b')

def Agree (ρ : α → β → Prop) (f : α → γ) (g : β → γ) : Prop := ∀ a b, ρ a b → f a = g b

/-- Two pointers that are both null, or point to partners. -/
def Matched (ρ : α → β → Prop) (null : α) (null' : β) (a : α) (b : β) : Prop :=
  a = null ∧ b = null' ∨ ρ a b

def Paired (ρ : α → β → Prop) (a : α) (b : β) (p : α) (q : β) : Prop := ρ p q ∨ p = a ∧ q = b

variable {ρ : α → β → Prop}

theorem OneToOne.flip (h : OneToOne ρ) : OneToOne (Function.swap ρ) :=
  fun b a b' a' hb hb' => (h a b a' b' hb hb').symm

theorem Agree.flip {f : α → γ} {g : β → γ} (h : Agree ρ f g) : Agree (Function.swap ρ) g f :=
  fun b a hab => (h a b hab).symm

theorem OneToOne.paired {a : α} {b : β} (h : OneToOne ρ) (ha : ∀ q, ¬ ρ a q)
    (hb : ∀ p, ¬ ρ p b) : OneToOne (Paired ρ a b) := by
  intro p q p' q' hp hp'
  cases hp with
  | inl hp =>
    cases hp' with
    | inl hp' => exact h p q p' q' hp hp'
    | inr hp' =>
      obtain ⟨rfl, rfl⟩ := hp'
      exact ⟨fun e => absurd (e ▸ hp) (ha q), fun e => absurd (e ▸ hp) (hb p)⟩
  | inr hp =>
    obtain ⟨rfl, rfl⟩ := hp
    cases hp' with
    | inl hp' => exact ⟨fun e => absurd (e ▸ hp') (ha q'), fun e => absurd (e ▸ hp') (hb p')⟩
    | inr hp' =>
      obtain ⟨rfl, rfl⟩ := hp'
      exact ⟨fun _ => rfl, fun _ => rfl⟩

theorem Agree.paired {f : α → γ} {g : β → γ} {a : α} {b : β} (h : Agree ρ f g)
    (hab : f a = g b) : Agree (Paired ρ a b) f g := by
  intro p q hp
  cases hp with
  | inl hp => exact h p q hp
  | inr hp =>
    obtain ⟨rfl, rfl⟩ := hp
    exact hab

section
variable [DecidableEq α]

theorem Agree.update_left {f : α → γ} {g : β → γ} {a : α} (h : Agree ρ f g)
    (ha : ∀ q, ¬ ρ a q) (x : γ) : Agree ρ (Function.update f a x) g := by
  intro p q hp
  have hne : p ≠ a := fun e => ha q (e ▸ hp)
  rw [Function.update_of_ne hne]
  exact h p q hp

theorem Agree.update [DecidableEq β] {f : α → γ} {g : β → γ} {a : α} {b : β}
    (h : Agree ρ f g) (hone : OneToOne ρ) (hab : ρ a b) (x : γ) :
    Agree ρ (Function.update f a x) (Function.update g b x) := by
  intro p q hp
  have e := hone p q a b hp hab
  by_cases hp' : p = a
  · rw [hp', Function.update_self, e.mp hp', Function.update_self]
  · have hq' : q ≠ b := fun hq' => hp' (e.mpr hq')
    rw [Function.update_of_ne hp', Function.update_of_ne hq']
    exact h p q hp

theorem Agree.modify [DecidableEq β] {f : α → γ} {g : β → γ} {a : α} {b : β}
    (h : Agree ρ f g) (hone : OneToOne ρ) (hab : ρ a b) (φ : γ → γ) :
    Agree ρ (Function.update f a (φ (f a))) (Function.update g b (φ (g b))) := by
  rw [h a b hab]
  exact h.update hone hab (φ (g b))

end

namespace Matched

variable {null : α} {null' : β} {a : α} {b : β}

theorem flip (h : Matched ρ null null' a b) : Matched (Function.swap ρ) null' null b a :=
  h.imp (fun h => ⟨h.2, h.1⟩) id

theorem mono {ρ' : α → β → Prop} (h : Matched ρ null null' a b) (hle : ∀ p q, ρ p q → ρ' p q) :
    Matched ρ' null null' a b :=
  h.imp id (hle a b)

theorem null_iff (h : Matched ρ null null' a b) (hne : ∀ p q, ρ p q → p ≠ null ∧ q ≠ null') :
    a = null ↔ b = null' := by
  cases h with
  | inl h => exact ⟨fun _ => h.2, fun _ => h.1⟩
  | inr h => exact ⟨fun e => absurd e (hne a b h).1, fun e => absurd e (hne a b h).2⟩

theorem partner (h : Matched ρ null null' a b) (ha : a ≠ null) : ρ a b :=
  h.resolve_left fun e => ha e.1

theorem update {κ : Type} [DecidableEq κ] {f : κ → α} {g : κ → β} {P : κ → Prop}
    (hfg : ∀ k, P k → Matched ρ null null' (f k) (g k)) {i : κ}
    (h : Matched ρ null null' a b) :
    ∀ k, P k → Matched ρ null null' (Function.update f i a k) (Function.update g i b k) := by
  intro k hk
  by_cases e : k = i
  · rw [e, Function.update_self, Function.update_self]
    exact h
  · rw [Function.update_of_ne e, Function.update_of_ne e]
    exact hfg k hk

end Matched

end FastParse.Framework
