import FastParse.Phase3.Completion
import FastParse.Routes.Contents
import FastParse.Routes.RefCounts

namespace FastParse

open Framework State

def Message.block (msg : Message) : List Attribute :=
  FastParse.block msg.mem (msg.pathAttributes + msg.pathattributesLength.toNat) msg.pathAttributes

theorem stored_slice (msg : Message) (unique : Nat) (tb : Tiebreak) (attributes : Mem) :
    slice (msg.stored unique tb attributes).attributes 0
        (msg.stored unique tb attributes).updateLength.toNat =
      slice msg.mem msg.pathAttributes msg.pathattributesLength.toNat := by
  have hread := slice_overlay attributes 0
    (slice msg.mem msg.pathAttributes msg.pathattributesLength.toNat)
  rw [length_slice, ← memcpy_eq] at hread
  exact hread

/-- The route has come through `phase1` and `parse_attributes` for `peer`. -/
def Route.Imported (peer : Peer) (route : Route) : Prop :=
  ∃ m p, slice route.attributes 0 route.updateLength.toNat =
      slice m p route.updateLength.toNat ∧
    parseAttributes m p route.updateLength (phase1 peer ⟨0, 0, 0, 0, 0, 0, 0, 0⟩) =
      .ok route.tiebreak

theorem Route.Imported.accepted {peer : Peer} {route : Route} (h : route.Imported peer) :
    route.Accepted := by
  obtain ⟨m, p, hslice, h⟩ := h
  exact ⟨m, p, hslice, _, _, h⟩

def Route.exported (route : Route) : UInt16 × Tiebreak × Mem :=
  (route.updateLength, route.tiebreak, route.attributes)

namespace Routing

variable {env : Env} {s s' : Routing} {pn : Fin npeers} {route : Ptr}

theorem Called.exported {a : Nat} (h : s.Called pn a route s') (q : Ptr) :
    (s'.slab.heap q).exported = (s.slab.heap q).exported := by
  have hswap : ((s.swapSlot pn a route).slab.heap q).exported = (s.slab.heap q).exported := by
    rw [swapSlot]
    split_ifs
    · change ((s.slab.release pn _).heap q).exported = _
      rw [Slab.release_view (f := Route.exported) fun _ _ => rfl]
      split_ifs with e
      · rw [e]
        rfl
      · rfl
    · rfl
  rw [h.slab]
  split_ifs
  · rw [← hswap, Slab.retain, Slab.setRoute]
    by_cases e : q = route
    · simp only [e, Function.update_self]
      rfl
    · simp only [Function.update_of_ne e]
  · exact hswap

end Routing

namespace State

variable {env : Env} {s s' s1 : State} {msg : Message} {r : Ptr}

/-- The route of a message holds its attribute bytes and what they are parsed to. -/
theorem messageRoute_imported (hm : msg.HasRoute) (h : messageRoute env s msg = .ok (r, s1)) :
    (s1.routing.slab.heap r).Imported (peers msg.peer) ∧
      (s1.routing.slab.heap r).block = msg.block := by
  obtain ⟨_, tb, attributes, htb, hheap⟩ := messageRoute_stored hm h
  have hslice := stored_slice msg s.unique tb attributes
  rw [hheap, Function.update_self]
  refine ⟨⟨_, _, hslice, htb⟩, ?_⟩
  obtain ⟨_, htiled, _⟩ := parseAttributes_iff.mp htb
  exact (Route.block_eq_of_slice hslice htiled).2

theorem parseUpdate_exported (h : s.parseUpdate env msg = .ok s')
    (hr : messageRoute env { s with msgCount := s.msgCount + 1 } msg = .ok (r, s1))
    (hm : msg.HasRoute) :
    (s'.routing.slab.heap r).exported = (s1.routing.slab.heap r).exported := by
  obtain ⟨_, hc⟩ := parseUpdate_cases h
  have hsome : ¬ (0 = msg.nlriLength ∧ 0 = msg.withdrawLength) := fun e => hm.2 e.1.symm
  obtain ⟨_, r', s1', s2, hr', ha, hw⟩ := hc.resolve_left fun e => hsome e.1
  obtain ⟨rfl, rfl⟩ := Prod.mk.inj (Except.ok.inj (hr'.symm.trans hr))
  have keep {step : State → Nat × Bool → Exec State} {pn : Fin npeers} {route : Ptr}
      (hstep : EntryStep env pn route step) {entries : List (Nat × Bool)} {u v : State}
      (hv : entries.foldlM step u = .ok v) :
      (v.routing.slab.heap r').exported = (u.routing.slab.heap r').exported := by
    apply run_keeps (I := fun t => (t.routing.slab.heap r').exported =
      (u.routing.slab.heap r').exported) _ rfl hv
    intro t entry t' ht hs
    obtain ⟨addrref, tables, _, hc⟩ := hstep t entry t' hs
    cases hc with
    | inl hc =>
      rw [hc.2]
      exact ht
    | inr hc =>
      obtain ⟨_, x, _, hcall⟩ := hc
      exact ((Routing.updateAdjRibIn_called hcall).exported r').trans ht
  exact (keep (withdrawStep_entryStep msg.peer) hw).trans
    (keep (nlriStep_entryStep msg.peer r') ha)

end State

theorem Route.block_congr {route route' : Route} (h : route.exported = route'.exported) :
    route.block = route'.block := by
  obtain ⟨hlen, h⟩ := Prod.mk.inj h
  rw [Route.block, Route.block, hlen, (Prod.mk.inj h).2]

/-- All three serializers complete on the route of a message that has been processed. -/
def ExportsComplete (route : Route) : Prop := ∀ kind, ∃ bs, Kind.Exports kind route bs

/-- Exactly the messages whose routes every serializer completes on. With an attribute copy that
stays inside its buffer the route in the code is the one here. -/
theorem exports_complete_iff (env : Env) (s s' s1 : State) (msg : Message) (r : Ptr)
    (hm : msg.HasRoute) (_hfits : msg.Fits s)
    (hr : messageRoute env { s with msgCount := s.msgCount + 1 } msg = .ok (r, s1))
    (h : s.parseUpdate env msg = .ok s') :
    ExportsComplete (s'.routing.slab.heap r) ↔ OriginFirst msg.block ∧ PathOpen msg.block := by
  have hblock : (s'.routing.slab.heap r).block = msg.block := by
    rw [Route.block_congr (parseUpdate_exported h hr hm)]
    exact (messageRoute_imported hm hr).2
  have hkind (kind : Kind) : (∃ bs, kind.Exports (s'.routing.slab.heap r) bs) ↔
      kind.Completes msg.block := by
    rw [Kind.completes_iff, hblock]
  constructor
  · intro hall
    exact (hkind .ebgp).mp (hall .ebgp)
  · intro hblock kind
    rw [hkind]
    cases kind with
    | ibgp => exact hblock.1
    | ebgp => exact hblock
    | copy => trivial

theorem exports_complete_plain :
    ∃ s s1 r, messageRoute (plainEnv true) { start (plainEnv true) with msgCount := 1 }
        (updateMessage 0 [] (plainAttributes 0 7) [8, 10]) = .ok (r, s1) ∧
      (start (plainEnv true)).parseUpdate (plainEnv true)
        (updateMessage 0 [] (plainAttributes 0 7) [8, 10]) = .ok s ∧
      ExportsComplete (s.routing.slab.heap r) := by
  have hr : (messageRoute (plainEnv true) { start (plainEnv true) with msgCount := 1 }
      (updateMessage 0 [] (plainAttributes 0 7) [8, 10])).map (fun _ => ()) = .ok () := by
    decide +kernel
  have hs : ((start (plainEnv true)).parseUpdate (plainEnv true)
      (updateMessage 0 [] (plainAttributes 0 7) [8, 10])).map (fun _ => ()) = .ok () := by
    decide +kernel
  obtain ⟨⟨r, s1⟩, hr, _⟩ := exists_of_map_eq_ok hr
  obtain ⟨s, hs, _⟩ := exists_of_map_eq_ok hs
  refine ⟨s, s1, r, hr, hs, ?_⟩
  have hm : (updateMessage 0 [] (plainAttributes 0 7) [8, 10]).HasRoute := by decide +kernel
  have hfits : (updateMessage 0 [] (plainAttributes 0 7) [8, 10]).Fits (start (plainEnv true)) := by
    decide +kernel
  rw [exports_complete_iff (plainEnv true) _ s s1 _ r hm hfits hr hs]
  decide +kernel

/-- No ORIGIN, and a last prefix that is too long to end the block. -/
def withoutOrigin : Message :=
  updateMessage 0 [] ([0x40, 2, 6, 2, 1, 0, 0, 0, 7] ++ [0x40, 3, 4, 10, 0, 0, 1])
    [8, 10, 25, 10, 0, 0, 0]

theorem export_aborts :
    ∃ s s1 r, withoutOrigin.HasRoute ∧
      messageRoute (plainEnv true) { start (plainEnv true) with msgCount := 1 } withoutOrigin =
        .ok (r, s1) ∧
      (start (plainEnv true)).parseUpdate (plainEnv true) withoutOrigin = .ok s ∧
      ∀ out q limit, serializeIbgp (s.routing.slab.heap r) out q limit = .error .assertion := by
  have hm : withoutOrigin.HasRoute := by decide +kernel
  have hr : (messageRoute (plainEnv true) { start (plainEnv true) with msgCount := 1 }
      withoutOrigin).map (fun _ => ()) = .ok () := by decide +kernel
  have hs : ((start (plainEnv true)).parseUpdate (plainEnv true) withoutOrigin).map
      (fun _ => ()) = .ok () := by decide +kernel
  obtain ⟨⟨r, s1⟩, hr, _⟩ := exists_of_map_eq_ok hr
  obtain ⟨s, hs, _⟩ := exists_of_map_eq_ok hs
  have hblock : (s.routing.slab.heap r).block = withoutOrigin.block := by
    rw [Route.block_congr (parseUpdate_exported hs hr hm)]
    exact (messageRoute_imported hm hr).2
  have hfirst : ¬ OriginFirst (s.routing.slab.heap r).block := by
    rw [hblock]
    decide +kernel
  exact ⟨s, s1, r, hm, hr, hs, fun out q limit => (aborts_without_origin hfirst out q limit).1⟩

end FastParse
