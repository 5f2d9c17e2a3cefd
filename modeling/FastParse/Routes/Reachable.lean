import FastParse.Locrib.Sequential
import FastParse.Slab.Pools
import FastParse.Update.Buffer
import FastParse.Update.Messages

namespace FastParse

open Framework

def lastBlock (blocks : List Block) (a : Nat) : Option Block :=
  blocks.find? fun b => a ∈ b.indices

/-- The route an index was last sent with, `NULL` before the first time. -/
def lastSent (blocks : List Block) (a : Nat) : Ptr :=
  ((lastBlock blocks a).map Block.route).getD null

theorem lastBlock_of_notMem {head : Nat → Ptr} {l : List Nat} {blocks : List Block} {a : Nat}
    (h : a ∉ l) : lastBlock ((blocksOf head l).reverse ++ blocks) a = lastBlock blocks a := by
  have hnone : (blocksOf head l).reverse.find? (fun b => decide (a ∈ b.indices)) = none := by
    rw [List.find?_eq_none]
    intro b hb hin
    apply h
    rw [← blocksOf_indices head l, List.mem_flatten]
    exact ⟨b.indices, List.mem_map_of_mem (List.mem_reverse.mp hb), by simpa using hin⟩
  rw [lastBlock, List.find?_append, hnone]
  rfl

theorem lastBlock_of_mem {head : Nat → Ptr} {l : List Nat} {blocks : List Block} {a : Nat}
    (h : a ∈ l) :
    ∃ b, lastBlock ((blocksOf head l).reverse ++ blocks) a = some b ∧ b.route = head a := by
  obtain ⟨c, hc, hac⟩ := @mem_blocksOf head l a h
  cases hf : (blocksOf head l).reverse.find? fun b => decide (a ∈ b.indices) with
  | none =>
    rw [List.find?_eq_none] at hf
    exact absurd (by simpa using hac) (hf c (List.mem_reverse.mpr hc))
  | some b =>
    refine ⟨b, ?_, ?_⟩
    · rw [lastBlock, List.find?_append, hf]
      rfl
    · have hb := List.mem_reverse.mp (List.mem_of_find?_eq_some hf)
      have hin := List.find?_some hf
      exact route_of_mem_blocksOf hb (by simpa using hin)

namespace Routing

/-- The states between the steps of a sequential run: buffers are allocated and filled in any
way, any peer's slot is given any route of the slab or `NULL`, and phase 3 is run. -/
inductive Reachable (env : Env) : Routing → Prop
  | start : Reachable env (start env).routing
  | alloc {s : Routing} {pn : Fin npeers} {sz : Nat} {p : Ptr} {slab : Slab (Fin npeers)}
      (r : Route) : Reachable env s → s.slab.alloc env.slab pn sz = .ok (p, slab) →
      Reachable env { s with slab := slab.setRoute p r }
  | call {s s' : Routing} {t : Bigtable} {pn : Fin npeers} {x : Nat} {route : Ptr} :
      Reachable env s → route = null ∨ InSlab env.slab route →
      s.updateAdjRibIn env t pn x route = .ok s' → Reachable env s'
  | flush {s s' : Routing} {t : Bigtable} {hard : Bool} :
      Reachable env s → s.schedulePhase3 env t hard = .ok s' → Reachable env s'

/-- Heads, flags, journal and blocks agree: a raised flag has its index in the journal, and a
head other than the one last sent has its flag raised. -/
structure Synced (env : Env) (s : Routing) : Prop where
  placed : s.slab.Placed env.slab
  gate : s.gate = gateInit
  named : ∀ a ∈ s.rib.journal.queue, a ≠ journalEmpty
  heads : ∀ a, s.head a = null ∨ InSlab env.slab (s.head a)
  written : ∀ a ∈ s.headWrites, s.head a ≠ null
  tracked : (s.rib.flagged (lastSent s.egress.blocks)).Tracked
  account : s.rib.journal.queue.length + s.egress.propagatedPrefixes ≤ s.receivedPrefixes

variable {env : Env}

theorem Synced.mem_queue {s : Routing} (h : s.Synced env) {a : Nat}
    (ha : (s.rib.locrib a).pushFlag = true) : a ∈ s.rib.journal.queue := by
  cases h.tracked.waiting a ha with
  | inl hq => exact hq
  | inr hw =>
    cases hw with
    | inl hp =>
      obtain ⟨_, hp⟩ := hp
      simp [Rib.flagged] at hp
    | inr ht => simp [Rib.flagged] at ht

theorem Synced.head_ne_emptyPtr {s : Routing} (h : s.Synced env) (a : Nat) :
    s.head a ≠ emptyPtr := by
  cases h.heads a with
  | inl e =>
    rw [e]
    decide
  | inr hin => exact hin.ne_emptyPtr env.slab_fits

/-- One run of phase 3 sends everything there is to send. -/
theorem Synced.phase3 {s s' : Routing} {t : Bigtable} {hard : Bool} (h : s.Synced env)
    (hrun : s.schedulePhase3 env t hard = .ok s') :
    s'.Synced env ∧ s'.rib.journal.queue = [] ∧
      s'.egress.blocks =
        (blocksOf s.rib.head s.rib.journal.queue).reverse ++ s.egress.blocks ∧
      s'.headWrites = s.headWrites := by
  obtain ⟨gate, rib, e, hp, rfl⟩ := schedulePhase3_ok hrun
  obtain ⟨hgate, hd⟩ := schedulePhase3_drained h.gate h.named h.head_ne_emptyPtr hp
  have hflag : ∀ a, (rib.locrib a).pushFlag ≠ true := by
    intro a ha
    rw [hd.flag] at ha
    exact ha.2 (h.mem_queue ha.1)
  refine ⟨?_, hd.queue, hd.blocks, rfl⟩
  refine ⟨h.placed, hgate, ?_, ?_, ?_, ⟨?_, ?_⟩, ?_⟩
  · intro a ha
    simp [hd.queue] at ha
  · intro a
    have e := h.heads a
    rw [Routing.head, ← hd.head] at e
    exact e
  · intro a ha
    have e := h.written a ha
    rw [Routing.head, ← hd.head] at e
    exact e
  · intro a ha
    exact absurd ha (hflag a)
  · intro a ha
    exfalso
    apply ha
    show rib.head a = lastSent e.blocks a
    rw [hd.head, hd.blocks]
    by_cases hq : a ∈ s.rib.journal.queue
    · obtain ⟨b, hb, hroute⟩ := @lastBlock_of_mem s.rib.head _ s.egress.blocks a hq
      rw [lastSent, hb]
      exact hroute.symm
    · rw [lastSent, lastBlock_of_notMem hq]
      by_contra hne
      exact hq (h.mem_queue (h.tracked.flagged a hne))
  · rw [hd.queue, hd.propagated]
    have hacc := h.account
    simpa [Nat.add_comm] using hacc

/-- What the locked section and the push leave in the journal: at most one more entry, which
has a name, and the index of a new winner in any case. -/
theorem locribUpdate_journal {tb : Ptr → Tiebreak} {rib rib' : Rib} {a : Nat} {new : Ptr}
    {update junk pushed : Bool}
    (hflag : (rib.locrib a).pushFlag = true → a ∈ rib.journal.queue)
    (h : locribUpdate tb rib a new update junk = .ok (rib', pushed)) :
    (rib'.journal.queue = rib.journal.queue ∨
      a ≠ journalEmpty ∧ rib'.journal.queue = rib.journal.queue ++ [a]) ∧
    (Pushes tb (rib.locrib a) new update → a ∈ rib'.journal.queue) := by
  cases locribUpdate_cases h with
  | inl hc =>
    obtain ⟨_, _, hc⟩ := hc
    cases hc with
    | inl hc =>
      rw [hc.2.2]
      exact ⟨.inl rfl, fun _ => hflag hc.1⟩
    | inr hc =>
      obtain ⟨hne, hq⟩ := locribjPush_ok hc.2.2
      rw [hq]
      exact ⟨.inr ⟨hne, rfl⟩, fun _ => by simp⟩
  | inr hc =>
    obtain ⟨hn, _, hc⟩ := hc
    refine ⟨?_, fun hp => absurd hp hn⟩
    cases hc with
    | inl hc => exact .inl (by rw [hc.2.2])
    | inr hc => exact .inr (locribjPush_ok hc.2.2)

/-- The locked section and the push keep everything in step while the counter of received
prefixes is one ahead. -/
theorem Synced.pushed {s : Routing} {a : Nat} {new : Ptr} {update junk pushed : Bool} {rib : Rib}
    (h : s.Synced env)
    (hnew : Pushes s.tiebreak (s.rib.locrib a) new update → InSlab env.slab new)
    (hroom : s.rib.journal.queue.length + s.egress.propagatedPrefixes < s.receivedPrefixes)
    (hu : locribUpdate s.tiebreak s.rib a new update junk = .ok (rib, pushed)) :
    Synced env { s with
      rib := rib
      headWrites :=
        if Pushes s.tiebreak (s.rib.locrib a) new update then a :: s.headWrites
        else s.headWrites } := by
  obtain ⟨hjournal, _⟩ := locribUpdate_journal h.mem_queue hu
  have hhead := update_if_cases (locribUpdate_head hu)
  refine ⟨h.placed, h.gate, ?_, ?_, ?_, ?_, ?_⟩
  · intro b hb
    cases hjournal with
    | inl hq => exact h.named b (hq ▸ hb)
    | inr hq =>
      simp only [hq.2, List.mem_append, List.mem_singleton] at hb
      cases hb with
      | inl hb => exact h.named b hb
      | inr hb => exact hb ▸ hq.1
  · intro b
    show rib.head b = null ∨ InSlab env.slab (rib.head b)
    cases hhead b with
    | inl hb =>
      rw [hb.2.2]
      exact .inr (hnew hb.2.1)
    | inr hb =>
      rw [hb.2]
      exact h.heads b
  · intro b hb
    show rib.head b ≠ null
    cases hhead b with
    | inl hw =>
      rw [hw.2.2]
      exact (hnew hw.2.1).ne_null env.slab_pos
    | inr hw =>
      rw [hw.2]
      apply h.written
      by_cases hwin : Pushes s.tiebreak (s.rib.locrib a) new update
      · simp only [if_pos hwin] at hb
        exact List.mem_of_ne_of_mem (hw.1 hwin) hb
      · simpa only [if_neg hwin] using hb
  · exact h.tracked.steps (locribUpdate_steps _ (.inr (.inr rfl)) hu)
  · show rib.journal.queue.length + s.egress.propagatedPrefixes ≤ s.receivedPrefixes
    cases hjournal with
    | inl hq =>
      rw [hq]
      exact Nat.le_of_lt hroom
    | inr hq =>
      rw [hq.2, List.length_append, List.length_singleton]
      omega

/-- Where the index of a call is afterwards if its head was set: in the journal, or in a
block that the phase 3 of that call formed. -/
def Queued (s s' : Routing) (a : Nat) : Prop :=
  a ∈ s'.rib.journal.queue ∨
    ∃ blocks, s'.egress.blocks = blocks ++ s.egress.blocks ∧ ∃ b ∈ blocks, a ∈ b.indices

/-- `locrib` before its last statement: a new winner is in the journal. -/
theorem Synced.locribStart {s s1 : Routing} {x : Nat} {new : Ptr} {update enters : Bool}
    (h : s.Synced env) (hnew : update = true → InSlab env.slab new)
    (hnull : update = false → new = null)
    (hroom : s.rib.journal.queue.length + s.egress.propagatedPrefixes < s.receivedPrefixes)
    (hrun : s.locribStart env x new update = .ok (s1, enters)) :
    s1.Synced env ∧ s1.egress = s.egress ∧
      (Pushes s.tiebreak (s.rib.locrib (lrIndexMask &&& x)) new update →
        (lrIndexMask &&& x) ∈ s1.rib.journal.queue) := by
  obtain ⟨rib, pushed, hu, rfl⟩ := locribStart_ok hrun
  refine ⟨h.pushed ?_ hroom hu, rfl, (locribUpdate_journal h.mem_queue hu).2⟩
  intro hp
  cases update with
  | true => exact hnew rfl
  | false => exact absurd (hp.2.trans (hnull rfl)) hp.1

theorem Synced.alloc {s : Routing} {pn : Fin npeers} {sz : Nat} {p : Ptr}
    {slab : Slab (Fin npeers)} (h : s.Synced env) (r : Route)
    (ha : s.slab.alloc env.slab pn sz = .ok (p, slab)) :
    Synced env { s with slab := slab.setRoute p r } := by
  have hp : slab.Placed env.slab := h.placed.alloc ha
  exact ⟨hp, h.gate, h.named, h.heads, h.written, h.tracked, h.account⟩

theorem Synced.swapSlot {s : Routing} (h : s.Synced env) (pn : Fin npeers) (a : Nat)
    (route : Ptr) :
    (s.swapSlot pn a route).Synced env ∧
      (s.swapSlot pn a route).rib = s.rib ∧ (s.swapSlot pn a route).egress = s.egress ∧
      (s.swapSlot pn a route).receivedPrefixes = s.receivedPrefixes + 1 := by
  have hacc := Nat.le_succ_of_le h.account
  rw [Routing.swapSlot]
  split_ifs
  · refine ⟨⟨?_, h.gate, h.named, h.heads, h.written, h.tracked, hacc⟩, rfl, rfl, rfl⟩
    show (s.slab.release pn _).Placed env.slab
    intro z
    rw [release_pools]
    exact h.placed z
  · exact ⟨⟨h.placed, h.gate, h.named, h.heads, h.written, h.tracked, hacc⟩, rfl, rfl, rfl⟩

/-- Phase 3 is entered with everything in step, and with a new winner in the journal. -/
theorem Synced.callStart {s s1 : Routing} {pn : Fin npeers} {x : Nat} {route : Ptr}
    {enters : Bool} (h : s.Synced env) (hroute : route = null ∨ InSlab env.slab route)
    (hrun : s.callStart env pn x route = .ok (s1, enters)) :
    s1.Synced env ∧ s1.egress = s.egress ∧
      (route ≠ null → s.head (x &&& lrIndexMask) = null ∨
        s.tiebreak route ≠ s.tiebreak (s.head (x &&& lrIndexMask)) →
        (x &&& lrIndexMask) ∈ s1.rib.journal.queue) := by
  rw [Routing.callStart, within_bind_ok] at hrun
  obtain ⟨_, hrun⟩ := hrun
  simp only at hrun
  rw [Nat.and_comm x] at hrun ⊢
  generalize ha : lrIndexMask &&& x = a at hrun ⊢
  obtain ⟨hs, hrib, hegress, hrecv⟩ := h.swapSlot pn a route
  have htb := swapSlot_tiebreak s pn a route
  have hroom : (s.swapSlot pn a route).rib.journal.queue.length +
      (s.swapSlot pn a route).egress.propagatedPrefixes <
      (s.swapSlot pn a route).receivedPrefixes := by
    rw [hrib, hegress, hrecv]
    exact Nat.lt_succ_of_le h.account
  generalize s.swapSlot pn a route = s2 at hrun hs hrib hegress hrecv htb hroom
  split_ifs at hrun with hr ho
  · have hs2 : Synced env { s2 with slab := s2.slab.retain route } :=
      ⟨hs.placed, hs.gate, hs.named, hs.heads, hs.written, hs.tracked, hs.account⟩
    obtain ⟨hs1, he, hq⟩ :=
      hs2.locribStart (fun _ => hroute.resolve_left hr) (fun e => by simp at e) hroom hrun
    refine ⟨hs1, he.trans hegress, ?_⟩
    intro _ hwin
    rw [ha] at hq
    apply hq
    have htb2 : Routing.tiebreak { s2 with slab := s2.slab.retain route } = s.tiebreak := by
      rw [← htb]
      funext q
      exact retain_tiebreak _ route q
    rw [htb2]
    simp only [Pushes, if_true, tiebreaker_iff, hrib]
    exact hwin
  · obtain ⟨hs1, he, _⟩ :=
      hs.locribStart (fun e => by simp at e) (fun _ => not_not.mp hr) hroom hrun
    exact ⟨hs1, he.trans hegress, fun hne => absurd hne hr⟩
  · cases hrun
    exact ⟨hs, hegress, fun hne => absurd hne hr⟩

theorem Synced.call {s s' : Routing} {t : Bigtable} {pn : Fin npeers} {x : Nat} {route : Ptr}
    (h : s.Synced env) (hroute : route = null ∨ InSlab env.slab route)
    (hcall : s.updateAdjRibIn env t pn x route = .ok s') :
    s'.Synced env ∧
      (route ≠ null → s.head (x &&& lrIndexMask) = null ∨
        s.tiebreak route ≠ s.tiebreak (s.head (x &&& lrIndexMask)) →
        Queued s s' (x &&& lrIndexMask)) := by
  obtain ⟨s1, enters, hstart, hc⟩ := updateAdjRibIn_cases hcall
  obtain ⟨hs1, hegress, hmem⟩ := h.callStart hroute hstart
  cases hc with
  | inl e =>
    subst e
    exact ⟨hs1, fun hne hwin => .inl (hmem hne hwin)⟩
  | inr hrun =>
    obtain ⟨hs', _, hb, _⟩ := hs1.phase3 hrun
    refine ⟨hs', ?_⟩
    intro hne hwin
    obtain ⟨b, hb', hin⟩ := @mem_blocksOf s1.rib.head _ _ (hmem hne hwin)
    rw [hegress] at hb
    exact .inr ⟨_, hb, b, List.mem_reverse.mpr hb', hin⟩

theorem start_synced (env : Env) : (start env).routing.Synced env := by
  have hq : (start env).routing.rib.journal.queue = [] := Ring.queue_init _ _
  refine ⟨?_, rfl, ?_, fun _ => .inl rfl, ?_, ⟨?_, ?_⟩, ?_⟩
  · intro z
    cases z <;> exact ⟨rfl, rfl, rfl⟩
  · intro a ha
    simp [hq] at ha
  · intro a ha
    exact absurd ha (List.not_mem_nil)
  · intro a ha
    exact absurd ha Bool.false_ne_true
  · intro a ha
    exact absurd rfl ha
  · rw [hq]
    exact Nat.le_refl 0

theorem Reachable.synced {s : Routing} (h : s.Reachable env) : s.Synced env := by
  induction h with
  | start => exact start_synced env
  | alloc r _ ha ih => exact ih.alloc r ha
  | call _ hroute hcall ih => exact (ih.call hroute hcall).1
  | flush _ hrun ih => exact (ih.phase3 hrun).1

end Routing

open Routing State

theorem messageRoute_reachable {env : Env} {s s1 : State} {msg : Message} {route : Ptr}
    (hs : s.routing.Reachable env) (h : messageRoute env s msg = .ok (route, s1)) :
    s1.routing.Reachable env ∧ (route = null ∨ InSlab env.slab route) := by
  cases messageRoute_cases h with
  | inl hc =>
    obtain ⟨rfl, rfl⟩ := hc
    exact ⟨hs, .inl rfl⟩
  | inr hc =>
    obtain ⟨slab, ha, rec, _, e⟩ := hc
    rw [e]
    exact ⟨hs.alloc rec ha, .inr (Slab.alloc_inSlab hs.synced.placed ha)⟩

/-- A message takes a reachable state to a reachable state. -/
theorem reachable_parseUpdate {env : Env} {s s' : State} {msg : Message}
    (hs : s.routing.Reachable env) (h : s.parseUpdate env msg = .ok s') :
    s'.routing.Reachable env := by
  have keep : s'.routing.Reachable env ∧ (null = null ∨ InSlab env.slab null) := by
    refine parseUpdate_keeps
      (I := fun _ r s => s.Reachable env ∧ (r = null ∨ InSlab env.slab r))
      ?_ ?_ ?_ ⟨hs, .inl rfl⟩ ?_ (callsOk_true env s msg) h
    · intro n r s hs
      exact hs
    · intro m n r s hs
      exact ⟨hs.1, .inl rfl⟩
    · intro n t r s s' x hs _ hcall
      exact ⟨hs.1.call hs.2 hcall, hs.2⟩
    · intro r s1 hr
      exact messageRoute_reachable (s := { s with msgCount := s.msgCount + 1 }) hs hr
  exact keep.1

theorem reachable_messages {env : Env} {s : State} {msgs : List Message}
    (h : msgs.foldlM (parseUpdate env) (start env) = .ok s) : s.routing.Reachable env :=
  run_keeps (I := fun s => s.routing.Reachable env)
    (fun _ _ _ hs hst => reachable_parseUpdate hs hst) .start h

end FastParse
