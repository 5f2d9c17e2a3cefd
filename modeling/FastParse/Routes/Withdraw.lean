import FastParse.Routes.Reachable

namespace FastParse

open Framework State

namespace Routing

variable {env : Env} {t : Bigtable}

/-- The head is another one, and the change is on its way out. -/
def WithdrawalTakesEffect (s s' : Routing) (a : Nat) : Prop :=
  s'.head a ≠ s.head a ∧ Queued s s' a

theorem head_of_withdrawal {s s' : Routing} {pn : Fin npeers} {x : Nat}
    (h : s.updateAdjRibIn env t pn x null = .ok s') : s'.head = s.head := by
  have hc := updateAdjRibIn_called h
  rw [hc.head, if_neg]
  intro hwin
  exact hwin.1 rfl

/-- In no state does a withdrawal take effect, be the withdrawn route the head or not. -/
theorem withdrawal_without_effect (env : Env) (t : Bigtable) (s s' : Routing) (pn : Fin npeers)
    (x : Nat) (h : s.updateAdjRibIn env t pn x null = .ok s') :
    ¬ WithdrawalTakesEffect s s' (x &&& lrIndexMask) := by
  intro heffect
  exact heffect.1 (congrFun (head_of_withdrawal h) (x &&& lrIndexMask))

end Routing

open Routing

def announceOne : List Message :=
  [updateMessage 0 [] (plainAttributes 0 7) [8, 10, 8, 11]]

theorem withdrawal_without_effect_announced :
    ∃ s s', announceOne.foldlM (parseUpdate (plainEnv true)) (start (plainEnv true)) = .ok s ∧
      s.routing.adjRibIn (0, 1) = 2 ^ 46 ∧ s.routing.head 1 = 2 ^ 46 ∧
      s.routing.updateAdjRibIn (plainEnv true) s.tables 0 (1 ||| lrEob) null = .ok s' ∧
      ¬ WithdrawalTakesEffect s.routing s' 1 := by
  have hr : (announceOne.foldlM (parseUpdate (plainEnv true)) (start (plainEnv true)) >>=
      fun s => (s.routing.updateAdjRibIn (plainEnv true) s.tables 0 (1 ||| lrEob) null).map
        fun _ => (s.routing.adjRibIn (0, 1), s.routing.head 1)) =
      .ok (2 ^ 46, 2 ^ 46) := by decide +kernel
  obtain ⟨s, hs, hr⟩ := bind_eq_ok.mp hr
  obtain ⟨s', hs', e⟩ := exists_of_map_eq_ok hr
  obtain ⟨hslot, hhead⟩ := Prod.mk.inj e
  exact ⟨s, s', hs, hslot, hhead, hs',
    withdrawal_without_effect (plainEnv true) s.tables s.routing s' 0 (1 ||| lrEob) hs'⟩

/-- After the withdrawal message the peer's slot is empty and its route is still the head. -/
theorem withdrawn_route_stays :
    ∃ s s', announceOne.foldlM (parseUpdate (plainEnv true)) (start (plainEnv true)) = .ok s ∧
      parseUpdate (plainEnv true) s (updateMessage 0 [8, 11] [] []) = .ok s' ∧
      s.routing.adjRibIn (0, 1) = s.routing.head 1 ∧ s.routing.head 1 ≠ null ∧
      s'.routing.adjRibIn (0, 1) = null ∧
      ¬ WithdrawalTakesEffect s.routing s'.routing 1 := by
  have hr : (announceOne.foldlM (parseUpdate (plainEnv true)) (start (plainEnv true)) >>=
      fun s => (parseUpdate (plainEnv true) s (updateMessage 0 [8, 11] [] [])).map
        fun s' => (s.routing.adjRibIn (0, 1), s.routing.head 1, s'.routing.adjRibIn (0, 1),
          s'.routing.head 1)) =
      .ok (2 ^ 46, 2 ^ 46, 0, 2 ^ 46) := by decide +kernel
  obtain ⟨s, hs, hr⟩ := bind_eq_ok.mp hr
  obtain ⟨s', hs', e⟩ := exists_of_map_eq_ok hr
  simp only [Prod.mk.injEq] at e
  obtain ⟨hslot, hhead, hslot', hhead'⟩ := e
  refine ⟨s, s', hs, hs', hslot.trans hhead.symm, ?_, hslot', ?_⟩
  · rw [hhead]
    decide
  · intro heffect
    exact heffect.1 (hhead'.trans hhead.symm)

end FastParse
