import FastParse.Routes.Reachable

namespace FastParse

open Framework State

namespace Routing

/-- The call announces a route over nothing, over itself, or over one with another record. -/
def Supersedes (s : Routing) (pn : Fin npeers) (a : Nat) (route : Ptr) : Prop :=
  route ≠ null ∧
    (s.adjRibIn (pn, a) = null ∨ s.adjRibIn (pn, a) = route ∨
      s.tiebreak route ≠ s.tiebreak (s.adjRibIn (pn, a)))

instance (s : Routing) (pn : Fin npeers) (a : Nat) (route : Ptr) :
    Decidable (s.Supersedes pn a route) :=
  inferInstanceAs (Decidable (_ ∧ _))

def Follows (s : Routing) (pn : Fin npeers) : Prop := ∀ a, s.head a = s.adjRibIn (pn, a)

theorem Follows.called {s s' : Routing} {pn : Fin npeers} {a : Nat} {route : Ptr}
    (h : s.Follows pn) (hok : s.Supersedes pn a route) (hc : s.Called pn a route s') :
    s'.Follows pn := by
  obtain ⟨hr, hold⟩ := hok
  intro b
  rw [hc.adjRibIn]
  cases update_if_cases hc.head b with
  | inl hw =>
    obtain ⟨rfl, _, e⟩ := hw
    rw [e, Function.update_self]
  | inr hk =>
    obtain ⟨hlose, e⟩ := hk
    rw [e]
    by_cases hb : b = a
    · subst hb
      rw [Function.update_self]
      have hlose : ¬ (s.head b = null ∨ s.tiebreak route ≠ s.tiebreak (s.head b)) :=
        fun hw => hlose ⟨hr, hw⟩ rfl
      rw [← h b] at hold
      cases hold with
      | inl hnull => exact absurd (.inl hnull) hlose
      | inr hold =>
        cases hold with
        | inl hsame => exact hsame
        | inr hne => exact absurd (.inr hne) hlose
    · have hne : (pn, b) ≠ (pn, a) := fun e' => hb (Prod.mk.inj e').2
      rw [Function.update_of_ne hne]
      exact h b

end Routing

open Routing

/-- A message of the peer all of whose calls are such announcements. -/
def Announces (env : Env) (pn : Fin npeers) (s : State) (msg : Message) : Prop :=
  msg.peer = pn ∧ CallsOk env Supersedes s msg

instance (env : Env) (pn : Fin npeers) (s : State) (msg : Message) :
    Decidable (Announces env pn s msg) :=
  inferInstanceAs (Decidable (_ ∧ _))

end FastParse
