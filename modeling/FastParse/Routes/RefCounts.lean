import FastParse.Slab.Counts
import FastParse.Update.Buffer
import FastParse.Update.Messages

namespace FastParse

open Framework State

namespace Routing

/-- Each use count is the number of slots that point to the route. -/
def UseCountsExact (s : Routing) : Prop :=
  ∀ r, r ≠ null → refs s.adjRibIn r = (s.slab.heap r).useCount.toNat

/-- No slot points to a buffer that can be reached on a cache line. -/
def NoFreeSlot (s : Routing) : Prop :=
  ∀ pn z r, Linked s.slab.link null (s.slab.cache pn z).free r → ∀ i, s.adjRibIn i ≠ r

/-- The buffers are counted; `route` is that of the message in progress, and its count leaves
room for `n` more calls. -/
def Sound (slab : Ptr) (n : Nat) (route : Ptr) (s : Routing) : Prop :=
  (∃ cells, Counted slab s.slab s.adjRibIn cells null route) ∧
    (route ≠ null → (s.slab.heap route).useCount.toNat + n ≤ 65535)

theorem Sound.useCountsExact {slab : Ptr} {n : Nat} {route : Ptr} {s : Routing}
    (h : s.Sound slab n route) : s.UseCountsExact := by
  obtain ⟨⟨cells, hc⟩, _⟩ := h
  intro r hr
  have e := hc.counts r hr
  rwa [if_neg hr, Nat.add_zero] at e

theorem Sound.noFreeSlot {slab : Ptr} {n : Nat} {route : Ptr} {s : Routing}
    (h : s.Sound slab n route) : s.NoFreeSlot := by
  obtain ⟨⟨cells, hc⟩, _⟩ := h
  intro pn z r hlink i e
  subst e
  have hmem := (hc.lists.linked_iff (k := (pn, z))).mp hlink
  exact hc.slot_not_free (hc.lists.ne_null hmem) (pn, z) hmem

theorem release_useCount (slab : Slab (Fin npeers)) (pn : Fin npeers) (p q : Ptr) :
    ((slab.release pn p).heap q).useCount =
      if q = p then (slab.heap p).useCount - 1 else (slab.heap q).useCount :=
  Slab.release_view (fun _ _ => rfl) slab pn p q

/-- Announcing a prefix again within the message that holds the route's only reference drops
the count to zero and frees the route. -/
def KeepsCount (s : Routing) (pn : Fin npeers) (a : Nat) (route : Ptr) : Prop :=
  ¬ (route ≠ null ∧ s.adjRibIn (pn, a) = route ∧ (s.slab.heap route).useCount = 1)

instance (s : Routing) (pn : Fin npeers) (a : Nat) (route : Ptr) :
    Decidable (s.KeepsCount pn a route) := by
  unfold KeepsCount
  infer_instance

/-- `Sound` with the lists on the cache lines made explicit. -/
def SoundOn (slab : Ptr) (n : Nat) (route : Ptr) (cells : Fin npeers × Size → List Ptr)
    (s : Routing) : Prop :=
  Counted slab s.slab s.adjRibIn cells null route ∧
    (route ≠ null → (s.slab.heap route).useCount.toNat + n ≤ 65535)

theorem sound_iff {slab : Ptr} {n : Nat} {route : Ptr} {s : Routing} :
    s.Sound slab n route ↔ ∃ cells, s.SoundOn slab n route cells := by
  simp only [Sound, SoundOn, exists_and_right]

theorem SoundOn.room {slab : Ptr} {m n : Nat} {route : Ptr} {s : Routing}
    {cells : Fin npeers × Size → List Ptr} (h : s.SoundOn slab n route cells) (hmn : m ≤ n) :
    s.SoundOn slab m route cells := by
  refine ⟨h.1, ?_⟩
  intro hr
  have hle := h.2 hr
  omega

theorem SoundOn.less {slab : Ptr} {n : Nat} {route : Ptr} {s : Routing}
    {cells : Fin npeers × Size → List Ptr} (h : s.SoundOn slab (n + 1) route cells) :
    s.SoundOn slab n route cells := h.room (Nat.le_succ n)

theorem SoundOn.drop {slab : Ptr} {m n : Nat} {route : Ptr} {s : Routing}
    {cells : Fin npeers × Size → List Ptr} (h : s.SoundOn slab n route cells) :
    s.SoundOn slab m null cells := by
  obtain ⟨hc, _⟩ := h
  refine ⟨?_, fun hr => absurd rfl hr⟩
  exact ⟨hc.placed, hc.room, hc.lists, hc.idle, hc.counts, hc.carvedCells, hc.carvedSlots,
    fun hr => absurd rfl hr⟩

/-- The lists after the slot has been given another route. -/
def swapCells (s : Routing) (pn : Fin npeers) (a : Nat) (cells : Fin npeers × Size → List Ptr) :
    Fin npeers × Size → List Ptr :=
  if s.adjRibIn (pn, a) ≠ null then Counted.releaseCells s.slab cells pn (s.adjRibIn (pn, a))
  else cells

/-- Storing the route and releasing the one before it; the route is owed one count. -/
theorem SoundOn.swapSlot {slab : Ptr} {n : Nat} {route : Ptr} {s : Routing} {pn : Fin npeers}
    {a : Nat} {cells : Fin npeers × Size → List Ptr} (h : s.SoundOn slab (n + 1) route cells)
    (hok : s.KeepsCount pn a route) :
    Counted slab (s.swapSlot pn a route).slab (Function.update s.adjRibIn (pn, a) route)
      (s.swapCells pn a cells) route route ∧
    (route ≠ null →
      ((s.swapSlot pn a route).slab.heap route).useCount.toNat + (n + 1) ≤ 65535) := by
  obtain ⟨hc, hle⟩ := h
  rw [Routing.swapSlot, swapCells]
  by_cases hold : s.adjRibIn (pn, a) = null
  · rw [if_neg (by simpa using hold), if_neg (by simpa using hold)]
    exact ⟨hc.fill hold, hle⟩
  · rw [if_pos hold, if_pos hold]
    refine ⟨?_, ?_⟩
    · apply hc.release pn hold
      intro e
      apply hok
      exact ⟨e.1 ▸ hold, e.1, e.2⟩
    · intro hr
      have hle := hle hr
      have hpos := hc.useCount_pos hold
      simp only [release_useCount]
      split_ifs with e
      · rw [← e] at hpos ⊢
        rw [toNat_pred hpos]
        omega
      · exact hle

theorem SoundOn.called {slab : Ptr} {n : Nat} {route : Ptr} {s s' : Routing} {pn : Fin npeers}
    {a : Nat} {cells : Fin npeers × Size → List Ptr} (h : s.SoundOn slab (n + 1) route cells)
    (hok : s.KeepsCount pn a route) (hd : s.Called pn a route s') :
    s'.SoundOn slab n route (s.swapCells pn a cells) := by
  obtain ⟨hc, hle⟩ := h.swapSlot hok
  by_cases hr : route = null
  · subst hr
    refine ⟨?_, fun hr => absurd rfl hr⟩
    rw [hd.adjRibIn, hd.slab, if_neg (by simp)]
    exact hc
  · have hle := hle hr
    have hlt : ((s.swapSlot pn a route).slab.heap route).useCount.toNat < 65535 := by
      omega
    refine ⟨?_, ?_⟩
    · rw [hd.adjRibIn, hd.slab, if_pos hr]
      exact hc.retain hr hlt
    · intro _
      rw [hd.slab, if_pos hr]
      simp only [Slab.retain, Slab.setRoute, Function.update_self]
      rw [UInt16.toNat_add]
      have hone : (1 : UInt16).toNat = 1 := rfl
      omega

theorem Sound.less {slab : Ptr} {n : Nat} {route : Ptr} {s : Routing}
    (h : s.Sound slab (n + 1) route) : s.Sound slab n route := by
  obtain ⟨cells, h⟩ := sound_iff.mp h
  exact sound_iff.mpr ⟨cells, h.less⟩

theorem Sound.drop {slab : Ptr} {m n : Nat} {route : Ptr} {s : Routing}
    (h : s.Sound slab n route) : s.Sound slab m null := by
  obtain ⟨cells, h⟩ := sound_iff.mp h
  exact sound_iff.mpr ⟨cells, h.drop⟩

theorem Sound.call {env : Env} {t : Bigtable} {n : Nat} {route : Ptr} {s s' : Routing}
    {pn : Fin npeers} {x : Nat} (h : s.Sound env.slab (n + 1) route)
    (hok : s.KeepsCount pn (x &&& lrIndexMask) route)
    (hcall : s.updateAdjRibIn env t pn x route = .ok s') : s'.Sound env.slab n route := by
  obtain ⟨cells, h⟩ := sound_iff.mp h
  exact sound_iff.mpr ⟨_, h.called hok (updateAdjRibIn_called hcall)⟩

end Routing

open Routing

/-- The copy of the attribute bytes stays inside the buffer taken for it, and the small pool
has not reached the large one. -/
def Message.Fits (s : State) (msg : Message) : Prop :=
  msg.pathattributesLength.toNat + sizeofRoute ≤
      (if Size.small.bytes < msg.length.toNat + sizeofRoute then Size.large.bytes
        else Size.small.bytes) ∧
    (s.routing.slab.pools .small).index < smallRoom

instance (s : State) (msg : Message) : Decidable (msg.Fits s) :=
  inferInstanceAs (Decidable (_ ∧ _))

/-- The route of a message is nothing, or a buffer taken from the line or the pool for it. -/
theorem messageRoute_soundOn {env : Env} {s s' : State} {msg : Message} {r : Ptr}
    {cells : Fin npeers × Size → List Ptr} (hs : s.routing.SoundOn env.slab 0 null cells)
    (hfit : msg.Fits s) (h : messageRoute env s msg = .ok (r, s')) :
    ∃ cells', s'.routing.SoundOn env.slab 65535 r cells' ∧
      (r = null ∧ s' = s ∧ cells' = cells ∨
        r ≠ null ∧ Counted.Taken env.slab s.routing.slab cells cells'
          (msg.peer, Size.of (msg.length.toNat + sizeofRoute)) r) := by
  cases messageRoute_cases h with
  | inl hc =>
    obtain ⟨rfl, rfl⟩ := hc
    exact ⟨cells, ⟨hs.1, fun hr => absurd rfl hr⟩, .inl ⟨rfl, rfl, rfl⟩⟩
  | inr hc =>
    obtain ⟨slab, ha, rec, hrec, e⟩ := hc
    obtain ⟨cells', htaken, hc', huse⟩ := hs.1.alloc hfit.2 ha
    have hr := (Slab.alloc_cases ha).1
    refine ⟨cells', ?_, .inr ⟨hr, htaken⟩⟩
    rw [e]
    refine ⟨?_, ?_⟩
    · apply hc'.setRoute (hc'.cur hr).2
      rw [hrec, huse]
    · intro _
      simp [Slab.setRoute, hrec]

theorem messageRoute_sound {env : Env} {s s' : State} {msg : Message} {r : Ptr}
    (hs : s.routing.Sound env.slab 0 null) (hfit : msg.Fits s)
    (h : messageRoute env s msg = .ok (r, s')) : s'.routing.Sound env.slab 65535 r := by
  obtain ⟨cells, hs⟩ := sound_iff.mp hs
  obtain ⟨cells', hs', _⟩ := messageRoute_soundOn hs hfit h
  exact sound_iff.mpr ⟨cells', hs'⟩

/-- A message all of whose calls leave their route counted. -/
def CountsKept (env : Env) (s : State) (msg : Message) : Prop :=
  msg.Fits s ∧ CallsOk env KeepsCount s msg

instance (env : Env) (s : State) (msg : Message) : Decidable (CountsKept env s msg) :=
  inferInstanceAs (Decidable (_ ∧ _))

theorem parseUpdate_sound {env : Env} {s s' : State} {msg : Message}
    (hs : s.routing.Sound env.slab 0 null) (hok : CountsKept env s msg)
    (h : s.parseUpdate env msg = .ok s') : s'.routing.Sound env.slab 0 null :=
  parseUpdate_keeps (I := fun n r s => s.Sound env.slab n r) (fun _ _ _ h => h.less)
    (fun _ _ _ _ h => h.drop) (fun _ _ _ _ _ _ h ho hc => h.call ho hc) hs
    (fun _ _ hr => messageRoute_sound (s := { s with msgCount := s.msgCount + 1 }) hs hok.1 hr)
    hok.2 h

theorem start_sound (env : Env) : (start env).routing.Sound env.slab 0 null := by
  refine ⟨⟨fun _ => [], ?_⟩, fun hr => absurd rfl hr⟩
  refine ⟨?_, ?_, ?_, ?_, ?_, ?_, ?_, ?_⟩
  · intro z
    cases z <;> exact ⟨rfl, rfl, rfl⟩
  · exact Nat.zero_le _
  · exact FreeLists.empty fun _ => rfl
  · intro k p hp
    simp at hp
  · intro p hp
    have hz : refs (start env).routing.adjRibIn p = 0 := refs_eq_zero.mpr fun _ e => hp e.symm
    rw [if_neg hp, hz]
    rfl
  · intro k p hp
    simp at hp
  · intro i hi
    exact absurd rfl hi
  · intro hr
    exact absurd rfl hr

/-- In a run whose messages all meet the condition, use counts are exact after every message
and no slot points to a freed buffer. -/
theorem use_counts_exact (env : Env) (msgs : List Message) (s : State)
    (hok : StepsOk (parseUpdate env) (CountsKept env) (start env) msgs)
    (hr : msgs.foldlM (parseUpdate env) (start env) = .ok s) :
    s.routing.UseCountsExact ∧ s.routing.NoFreeSlot := by
  have h : s.routing.Sound env.slab 0 null :=
    run_invariant (I := fun s => s.routing.Sound env.slab 0 null)
      (fun s msg t hs ho hst => parseUpdate_sound hs ho hst) (start_sound env) hok hr
  exact ⟨h.useCountsExact, h.noFreeSlot⟩

/-- Two prefixes, a replacement of one of them, and its withdrawal. -/
def replaceAndWithdraw : List Message :=
  [updateMessage 0 [] (plainAttributes 0 7) [8, 10, 8, 11],
    updateMessage 0 [] (plainAttributes 1 8) [8, 11],
    updateMessage 0 [8, 11] [] []]

theorem use_counts_exact_replaced :
    ∃ s, replaceAndWithdraw.foldlM (parseUpdate (plainEnv true)) (start (plainEnv true)) = .ok s ∧
      s.routing.UseCountsExact ∧ s.routing.NoFreeSlot := by
  have hr : (replaceAndWithdraw.foldlM (parseUpdate (plainEnv true))
      (start (plainEnv true))).map (fun _ => ()) = .ok () := by decide +kernel
  obtain ⟨s, hs, _⟩ := exists_of_map_eq_ok hr
  exact ⟨s, hs, use_counts_exact (plainEnv true) replaceAndWithdraw s (by decide +kernel) hs⟩

def repeatedPrefix : List Message :=
  [updateMessage 0 [] (plainAttributes 0 7) [8, 10],
    updateMessage 0 [] (plainAttributes 0 8) [8, 11, 8, 11]]

/-- The freed route is in the slot of the prefix and at the head of the cache line. -/
theorem freed_route_in_slot :
    ∃ s, repeatedPrefix.foldlM (parseUpdate (plainEnv true)) (start (plainEnv true)) = .ok s ∧
      ¬ s.routing.NoFreeSlot := by
  have hr : (repeatedPrefix.foldlM (parseUpdate (plainEnv true)) (start (plainEnv true))).map
      (fun s => (s.routing.adjRibIn (0, 1), (s.routing.slab.cache 0 .small).free)) =
      .ok (2 ^ 46 + 256, 2 ^ 46 + 256) := by decide +kernel
  obtain ⟨s, hs, e⟩ := exists_of_map_eq_ok hr
  obtain ⟨hslot, hfree⟩ := Prod.mk.inj e
  refine ⟨s, hs, ?_⟩
  intro hn
  apply hn 0 .small (s.routing.slab.cache 0 .small).free
  · apply Linked.here
    rw [hfree]
    decide
  · rw [hslot, hfree]

end FastParse
