import FastParse.Framework.Renaming
import FastParse.Routes.ByPrefix

namespace FastParse

open Framework

abbrev Content := UInt16 × Tiebreak × List UInt8

def Route.content (r : Route) : Content :=
  (r.useCount, r.tiebreak, (List.range r.updateLength.toNat).map r.attributes)

/-- The use count at `p` is changed, unless `p` is `NULL`. -/
def recount (φ : UInt16 → UInt16) (f : Ptr → Content) (p : Ptr) : Ptr → Content :=
  if p = null then f else Function.update f p (φ (f p).1, (f p).2)

section
variable {ρ : Ptr → Ptr → Prop} {f g : Ptr → Content} {φ : UInt16 → UInt16} {p q : Ptr}

theorem agree_recount (h : Agree ρ f g) (hone : OneToOne ρ)
    (hne : ∀ p q, ρ p q → p ≠ null ∧ q ≠ null) (hpq : Matched ρ null null p q) :
    Agree ρ (recount φ f p) (recount φ g q) := by
  have hnull := hpq.null_iff hne
  rw [recount, recount]
  by_cases hp : p = null
  · rw [if_pos hp, if_pos (hnull.mp hp)]
    exact h
  · rw [if_neg hp, if_neg fun hq => hp (hnull.mpr hq)]
    exact h.modify hone (hpq.partner hp) fun c => (φ c.1, c.2)

theorem agree_recount_left (h : Agree ρ f g) (hp : ∀ q, ¬ ρ p q) : Agree ρ (recount φ f p) g := by
  rw [recount]
  split_ifs
  · exact h
  · exact h.update_left hp _

end

namespace Routing

def content (s : Routing) (p : Ptr) : Content := (s.slab.heap p).content

theorem tiebreak_eq (s : Routing) (p : Ptr) : s.tiebreak p = (s.content p).2.1 := rfl

theorem setRoute_content (slab : Slab (Fin npeers)) (p : Ptr) (r : Route) :
    (fun q => ((slab.setRoute p r).heap q).content) =
      Function.update (fun q => (slab.heap q).content) p r.content := by
  funext q
  by_cases e : q = p
  · simp [Slab.setRoute, e]
  · simp [Slab.setRoute, e]

theorem release_content (slab : Slab (Fin npeers)) (pn : Fin npeers) {p : Ptr} (hp : p ≠ null) :
    (fun q => ((slab.release pn p).heap q).content) =
      recount (· - 1) (fun q => (slab.heap q).content) p := by
  rw [recount, if_neg hp]
  funext q
  rw [Slab.release_view (f := Route.content) fun _ _ => rfl, Function.update_apply]
  rfl

theorem retain_content (slab : Slab (Fin npeers)) {p : Ptr} (hp : p ≠ null) :
    (fun q => ((slab.retain p).heap q).content) =
      recount (· + 1) (fun q => (slab.heap q).content) p := by
  rw [recount, if_neg hp, Slab.retain, setRoute_content]
  rfl

theorem Called.content {s s' : Routing} {pn : Fin npeers} {a : Nat} {route : Ptr}
    (h : s.Called pn a route s') :
    s'.content = recount (· + 1) (recount (· - 1) s.content (s.adjRibIn (pn, a))) route := by
  have hswap : (fun q => ((s.swapSlot pn a route).slab.heap q).content) =
      recount (· - 1) s.content (s.adjRibIn (pn, a)) := by
    rw [Routing.swapSlot]
    split_ifs with hold
    · exact release_content s.slab pn hold
    · rw [recount, if_pos (not_not.mp hold)]
      rfl
  have hs : s'.content = fun q => (s'.slab.heap q).content := rfl
  rw [hs, h.slab]
  split_ifs with hr
  · rw [retain_content _ hr, hswap]
  · rw [hswap]
    exact (if_pos (not_not.mp hr)).symm

theorem Called.pools {s s' : Routing} {pn : Fin npeers} {a : Nat} {route : Ptr}
    (h : s.Called pn a route s') : s'.slab.pools = s.slab.pools := by
  have hswap : (s.swapSlot pn a route).slab.pools = s.slab.pools := by
    rw [Routing.swapSlot]
    split_ifs
    · exact release_pools s.slab pn _
    · rfl
  rw [h.slab]
  split_ifs
  · exact hswap
  · exact hswap

end Routing

/-- The class of a buffer as the pools of a slab tell it. -/
def classAt (slab p : Ptr) : Size := if (initPools slab .large).buf ≤ p then .large else .small

theorem sizeClass_eq {κ : Type} {slab : Ptr} {s : Slab κ} (h : s.Placed slab) (p : Ptr) :
    s.sizeClass p = classAt slab p := by
  rw [Slab.sizeClass, classAt]
  apply if_congr _ rfl rfl
  show (s.pools .large).buf ≤ p ↔ _
  rw [(h .large).1]

/-- A buffer that no other peer has in a slot or on a line. -/
structure Mine (slab : Ptr) (pn : Fin npeers) (s : Routing)
    (cells : Fin npeers × Size → List Ptr) (p : Ptr) : Prop where
  ne_null : p ≠ null
  carved : s.slab.Carved slab p
  slot : ∀ qn i, s.adjRibIn (qn, i) = p → qn = pn
  line : ∀ qn z, p ∈ cells (qn, z) → qn = pn

section
variable {slab : Ptr} {pn rn : Fin npeers} {s s' : Routing}
  {cells : Fin npeers × Size → List Ptr} {p : Ptr}

theorem Mine.called {a : Nat} {route : Ptr} (h : Mine slab pn s cells p)
    (hd : s.Called rn a route s') (hr : rn = pn ∨ route ≠ p) :
    Mine slab pn s' (s.swapCells rn a cells) p := by
  refine ⟨h.ne_null, ?_, ?_, ?_⟩
  · obtain ⟨z, i, hi, e⟩ := h.carved
    refine ⟨z, i, ?_, e⟩
    rwa [hd.pools]
  · intro qn i hq
    rw [hd.adjRibIn] at hq
    by_cases e : (qn, i) = (rn, a)
    · obtain ⟨rfl, rfl⟩ := Prod.mk.inj e
      rw [Function.update_self] at hq
      exact hr.resolve_right fun hne => hne hq
    · rw [Function.update_of_ne e] at hq
      exact h.slot qn i hq
  · intro qn z hq
    rw [Routing.swapCells, Counted.releaseCells] at hq
    split_ifs at hq
    · cases FreeLists.mem_push hq with
      | inl e =>
        -- the buffer comes out of the slot of its peer
        obtain ⟨hp, hk⟩ := e
        rw [(Prod.mk.inj hk).1]
        exact h.slot rn a hp.symm
      | inr hq => exact h.line qn z hq
    · exact h.line qn z hq
    · exact h.line qn z hq

end

/-- A message with attributes and NLRI, whose prefixes get a route. -/
def Message.HasRoute (msg : Message) : Prop :=
  msg.pathattributesLength ≠ 0 ∧ msg.nlriLength ≠ 0

instance (msg : Message) : Decidable msg.HasRoute := inferInstanceAs (Decidable (_ ∧ _))

def Message.tiebreak (msg : Message) : Exec Tiebreak :=
  parseAttributes msg.mem msg.pathAttributes msg.pathattributesLength
    (phase1 (peers msg.peer) ⟨0, 0, 0, 0, 0, 0, 0, 0⟩)

def Message.attributeBytes (msg : Message) : List UInt8 :=
  (List.range msg.pathattributesLength.toNat).map fun i => msg.mem (msg.pathAttributes + i)

theorem stored_content (msg : Message) (unique : Nat) (tb : Tiebreak) (attributes : Mem) :
    (msg.stored unique tb attributes).content = (0, tb, msg.attributeBytes) := by
  rw [Message.stored, Route.content, Message.attributeBytes]
  congr 2
  apply List.map_congr_left
  intro i hi
  rw [List.mem_range] at hi
  simp [memcpy, hi]

namespace State

variable {env : Env} {s s' : State} {msg : Message} {r : Ptr}
  {cells cells' : Fin npeers × Size → List Ptr}

theorem messageRoute_none (hm : ¬ msg.HasRoute) (h : messageRoute env s msg = .ok (r, s')) :
    r = null ∧ s' = s := by
  unfold Message.HasRoute at hm
  rw [messageRoute, if_neg hm] at h
  cases h
  exact ⟨rfl, rfl⟩

/-- The buffer of the message is the only one that is written. -/
theorem messageRoute_stored (hm : msg.HasRoute) (h : messageRoute env s msg = .ok (r, s')) :
    s'.unique = (s.unique + 1) % 2 ^ 64 ∧
      ∃ tb attributes, msg.tiebreak = .ok tb ∧ s'.routing.slab.heap =
        Function.update s.routing.slab.heap r (msg.stored s.unique tb attributes) := by
  obtain ⟨slab, tb, ha, htb, rfl⟩ := (messageRoute_inv h).resolve_left fun e => e.1 hm
  refine ⟨rfl, tb, (slab.heap r).attributes, htb, ?_⟩
  rw [← Slab.alloc_heap ha]
  rfl

/-- What the run has at its disposal after a message has got its route `r`. -/
structure RouteTaken (env : Env) (s : State) (msg : Message) (r : Ptr) (s' : State)
    (cells cells' : Fin npeers × Size → List Ptr) : Prop where
  taken : Counted.Taken env.slab s.routing.slab cells cells'
    (msg.peer, Size.of (msg.length.toNat + sizeofRoute)) r
  mine : Mine env.slab msg.peer s'.routing cells' r
  carved : ∀ p, s.routing.slab.Carved env.slab p → s'.routing.slab.Carved env.slab p
  content : ∃ tb, msg.tiebreak = .ok tb ∧
    s'.routing.content = Function.update s.routing.content r (0, tb, msg.attributeBytes)
  adjRibIn : s'.routing.adjRibIn = s.routing.adjRibIn
  rib : s'.routing.rib = s.routing.rib
  tables : s'.tables = s.tables

theorem messageRoute_taken (hs : s.routing.SoundOn env.slab 0 null cells) (hfit : msg.Fits s)
    (hm : msg.HasRoute) (h : messageRoute env s msg = .ok (r, s')) :
    ∃ cells', s'.routing.SoundOn env.slab 65535 r cells' ∧
      RouteTaken env s msg r s' cells cells' := by
  obtain ⟨cells', hsound, hc⟩ := messageRoute_soundOn hs hfit h
  refine ⟨cells', hsound, ?_⟩
  obtain ⟨slab, tb, ha, htb, rfl⟩ := (messageRoute_inv h).resolve_left fun e => e.1 hm
  have hr := (Slab.alloc_cases ha).1
  have htaken := (hc.resolve_left fun e => hr e.1).2
  obtain ⟨hcarved, hfree⟩ := hsound.1.cur hr
  have hkept : ∀ p, s.routing.slab.Carved env.slab p → slab.Carved env.slab p :=
    fun p hp => hp.alloc ha
  refine ⟨htaken, ⟨hr, hcarved, ?_, ?_⟩, hkept, ⟨tb, htb, ?_⟩, rfl, rfl, rfl⟩
  · intro qn i hq
    have hpos := hsound.1.useCount_pos (i := (qn, i)) (by rw [hq]; exact hr)
    rw [hq] at hpos
    simp [Slab.setRoute, Message.stored] at hpos
  · intro qn z hq
    exact absurd hq (hfree (qn, z))
  · have hset (rec : Route) : (fun q => ((slab.setRoute r rec).heap q).content) =
        Function.update s.routing.content r rec.content := by
      rw [Routing.setRoute_content, Slab.alloc_heap ha]
      rfl
    refine (hset _).trans ?_
    rw [stored_content]

theorem RouteTaken.filing (h : RouteTaken env s msg r s' cells cells') (hf : s.Filing) :
    s'.Filing :=
  (hf.congr h.tables h.adjRibIn (congrArg Rib.head h.rib)).1

end State

end FastParse
