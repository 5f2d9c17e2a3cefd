import FastParse.Routes.RefCounts

namespace FastParse

open Framework State

namespace Routing

/-- Every head is on no cache line and still held by the slot of some peer. -/
def HeadsLive (s : Routing) : Prop :=
  ∀ a, s.head a ≠ null →
    (∀ pn z, ¬ Linked s.slab.link null (s.slab.cache pn z).free (s.head a)) ∧
    ∃ pn, s.adjRibIn (pn, a) = s.head a

def HeadsHeld (s : Routing) : Prop :=
  ∀ a, s.head a ≠ null → ∃ pn, s.adjRibIn (pn, a) = s.head a

theorem HeadsHeld.live {slab : Ptr} {n : Nat} {route : Ptr} {s : Routing} (h : s.HeadsHeld)
    (hs : s.Sound slab n route) : s.HeadsLive := by
  intro a ha
  obtain ⟨pn, e⟩ := h a ha
  refine ⟨?_, pn, e⟩
  intro qn z hlink
  exact hs.noFreeSlot qn z _ hlink (pn, a) e

/-- A call lets go of the head when the peer that holds it withdraws it, or replaces it by a
route with the same tiebreak record. -/
def KeepsHead (s : Routing) (pn : Fin npeers) (a : Nat) (route : Ptr) : Prop :=
  ¬ (s.head a ≠ null ∧ s.adjRibIn (pn, a) = s.head a ∧ route ≠ s.head a ∧
    (route = null ∨ s.tiebreak route = s.tiebreak (s.head a)))

instance (s : Routing) (pn : Fin npeers) (a : Nat) (route : Ptr) :
    Decidable (s.KeepsHead pn a route) := by
  unfold KeepsHead
  infer_instance

theorem HeadsHeld.called {s s' : Routing} {pn : Fin npeers} {a : Nat} {route : Ptr}
    (h : s.HeadsHeld) (hok : s.KeepsHead pn a route) (hc : s.Called pn a route s') :
    s'.HeadsHeld := by
  intro b hb
  cases update_if_cases hc.head b with
  | inl hw =>
    -- the new route is in the slot of its peer
    obtain ⟨rfl, _, e⟩ := hw
    refine ⟨pn, ?_⟩
    rw [hc.adjRibIn, Function.update_self, e]
  | inr hk =>
    obtain ⟨hlose, e⟩ := hk
    rw [e] at hb ⊢
    obtain ⟨qn, hq⟩ := h b hb
    by_cases hi : (qn, b) = (pn, a)
    · cases hi
      -- a losing route over the head can only be the head
      have hroute : route = s.head a := by
        by_contra hne
        apply hok
        refine ⟨hb, hq, hne, ?_⟩
        by_contra hno
        rw [not_or] at hno
        exact hlose ⟨hno.1, .inr hno.2⟩ rfl
      refine ⟨pn, ?_⟩
      rw [hc.adjRibIn, Function.update_self, hroute]
    · refine ⟨qn, ?_⟩
      rw [hc.adjRibIn, Function.update_of_ne hi, hq]

def KeepsRoute (s : Routing) (pn : Fin npeers) (a : Nat) (route : Ptr) : Prop :=
  s.KeepsCount pn a route ∧ s.KeepsHead pn a route

instance (s : Routing) (pn : Fin npeers) (a : Nat) (route : Ptr) :
    Decidable (s.KeepsRoute pn a route) :=
  inferInstanceAs (Decidable (_ ∧ _))

end Routing

open Routing

/-- A message all of whose calls keep their counts and the heads. -/
def HeadsKept (env : Env) (s : State) (msg : Message) : Prop :=
  msg.Fits s ∧ CallsOk env KeepsRoute s msg

instance (env : Env) (s : State) (msg : Message) : Decidable (HeadsKept env s msg) :=
  inferInstanceAs (Decidable (_ ∧ _))

theorem messageRoute_frame {env : Env} {s s' : State} {msg : Message} {r : Ptr}
    (h : messageRoute env s msg = .ok (r, s')) :
    s'.routing.adjRibIn = s.routing.adjRibIn ∧ s'.routing.rib = s.routing.rib := by
  cases messageRoute_cases h with
  | inl hc =>
    obtain ⟨_, rfl⟩ := hc
    exact ⟨rfl, rfl⟩
  | inr hc =>
    obtain ⟨slab, _, rec, _, e⟩ := hc
    rw [e]
    exact ⟨rfl, rfl⟩

theorem HeadsHeld.congr {s s' : Routing} (h : s.HeadsHeld) (hadj : s'.adjRibIn = s.adjRibIn)
    (hrib : s'.rib = s.rib) : s'.HeadsHeld := by
  intro a ha
  have hhead : s'.head = s.head := congrArg Rib.head hrib
  rw [hhead] at ha ⊢
  rw [hadj]
  exact h a ha

theorem parseUpdate_headsHeld {env : Env} {s s' : State} {msg : Message}
    (hs : s.routing.Sound env.slab 0 null ∧ s.routing.HeadsHeld) (hok : HeadsKept env s msg)
    (h : s.parseUpdate env msg = .ok s') :
    s'.routing.Sound env.slab 0 null ∧ s'.routing.HeadsHeld := by
  refine parseUpdate_keeps (I := fun n r s => s.Sound env.slab n r ∧ s.HeadsHeld) ?_ ?_ ?_ hs ?_
    hok.2 h
  · intro n r s hs
    exact ⟨hs.1.less, hs.2⟩
  · intro m n r s hs
    exact ⟨hs.1.drop, hs.2⟩
  · intro n t r s s' x hs ho hcall
    exact ⟨hs.1.call ho.1 hcall, hs.2.called ho.2 (updateAdjRibIn_called hcall)⟩
  · intro r s1 hr
    obtain ⟨hadj, hrib⟩ := messageRoute_frame hr
    exact ⟨messageRoute_sound (s := { s with msgCount := s.msgCount + 1 }) hs.1 hok.1 hr,
      HeadsHeld.congr hs.2 hadj hrib⟩

/-- In a run whose messages all meet the condition every head is live after every message. -/
theorem heads_live (env : Env) (msgs : List Message) (s : State)
    (hok : StepsOk (parseUpdate env) (HeadsKept env) (start env) msgs)
    (hr : msgs.foldlM (parseUpdate env) (start env) = .ok s) : s.routing.HeadsLive := by
  have hstart : (start env).routing.HeadsHeld := fun a ha => absurd rfl ha
  have h : s.routing.Sound env.slab 0 null ∧ s.routing.HeadsHeld :=
    run_invariant (I := fun s => s.routing.Sound env.slab 0 null ∧ s.routing.HeadsHeld)
      (fun s msg t hs ho hst => parseUpdate_headsHeld hs ho hst) ⟨start_sound env, hstart⟩ hok hr
  exact h.2.live h.1

/-- Another peer takes a prefix over before the first one withdraws it. -/
def takeOverAndWithdraw : List Message :=
  [updateMessage 0 [] (plainAttributes 0 7) [8, 10, 8, 11],
    updateMessage 1 [] (plainAttributes 0 7) [8, 11],
    updateMessage 0 [8, 11] [] []]

theorem heads_live_taken_over :
    ∃ s, takeOverAndWithdraw.foldlM (parseUpdate (plainEnv true)) (start (plainEnv true)) = .ok s ∧
      s.routing.HeadsLive := by
  have hr : (takeOverAndWithdraw.foldlM (parseUpdate (plainEnv true))
      (start (plainEnv true))).map (fun _ => ()) = .ok () := by decide +kernel
  obtain ⟨s, hs, _⟩ := exists_of_map_eq_ok hr
  exact ⟨s, hs, heads_live (plainEnv true) takeOverAndWithdraw s (by decide +kernel) hs⟩

/-- The only peer that has announced a prefix withdraws it. -/
def announceAndWithdraw : List Message :=
  [updateMessage 0 [] (plainAttributes 0 7) [8, 10],
    updateMessage 0 [] (plainAttributes 0 8) [8, 11],
    updateMessage 0 [8, 11] [] []]

/-- The head of the withdrawn prefix is then the first buffer of the cache line. -/
theorem freed_head :
    ∃ s, announceAndWithdraw.foldlM (parseUpdate (plainEnv true)) (start (plainEnv true)) = .ok s ∧
      ¬ s.routing.HeadsLive := by
  have hr : (announceAndWithdraw.foldlM (parseUpdate (plainEnv true)) (start (plainEnv true))).map
      (fun s => (s.routing.head 1, (s.routing.slab.cache 0 .small).free)) =
      .ok (2 ^ 46 + 256, 2 ^ 46 + 256) := by decide +kernel
  obtain ⟨s, hs, e⟩ := exists_of_map_eq_ok hr
  obtain ⟨hhead, hfree⟩ := Prod.mk.inj e
  refine ⟨s, hs, ?_⟩
  intro hlive
  have hne : s.routing.head 1 ≠ null := by
    rw [hhead]
    decide
  apply (hlive 1 hne).1 0 .small
  rw [hhead, ← hfree]
  apply Linked.here
  rw [hfree]
  decide

end FastParse
