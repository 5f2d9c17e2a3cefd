import FastParse.Framework.Stock
import FastParse.Slab.Live

namespace FastParse

open Framework

namespace Arena

section
variable {κ : Type} [DecidableEq κ]

/-- What a call does to the stocks: a request takes from the line of its class, a buffer goes
back to the line of the class that was asked for. -/
def moveOf (s : Arena κ) : ArenaOp κ → List (Move (κ × Size))
  | .alloc k sz => [.take (k, Size.of sz)]
  | .dalloc k p => ((s.live.find? fun b => b.1 = p).map fun b => .give (k, b.2)).toList
  | .write .. => []

def movesOf (slab : Ptr) : Arena κ → List (ArenaOp κ) → List (Move (κ × Size))
  | _, [] => []
  | s, op :: ops => s.moveOf op ++
      match s.step slab op with
      | .ok t => movesOf slab t ops
      | .error _ => []

end

/-- The lines are as long as the stocks are large, and the pools have been carved as far as the
supply has been drawn on. -/
structure Stocked {κ : Type} [Fintype κ] (slab : Ptr) (s : Arena κ) (st : Stock (κ × Size)) :
    Prop where
  kept : ∃ cells, Kept slab s cells
  line : ∀ k z, ∃ l, Chain s.slab.link null (s.slab.cache k z).free l ∧
    l.length = st.held (k, z) ∧ (s.slab.cache k z).freeCount = UInt32.ofNat l.length
  pool : ∀ z, (s.slab.pools z).index = ∑ k, st.drawn (k, z)

section
variable {κ : Type} {slab : Nat} {s : Arena κ} {cells : κ × Size → List Ptr}

theorem Kept.notMem_chain (h : Kept slab s cells) {p q : Ptr} (hp : p ∈ s.live.map Prod.fst)
    {k : κ} {z : Size} {l : List Ptr}
    (hl : Chain s.slab.link null (s.slab.cache k z).free l) (hq : q ∈ l) : q ≠ p := by
  intro e
  have hlinked := (h.lists.linked_iff (k := (k, z))).mp (hl.linked_iff.mpr hq)
  exact h.notFree p hp (k, z) (e ▸ hlinked)

/-- What is written to a buffer in use does not change the lines. -/
theorem Kept.chain_write (h : Kept slab s cells) {p : Ptr} (hp : p ∈ s.live.map Prod.fst)
    (r : Route) {k : κ} {z : Size} {l : List Ptr}
    (hl : Chain s.slab.link null (s.slab.cache k z).free l) :
    Chain (s.slab.setRoute p r).link null (s.slab.cache k z).free l := by
  apply hl.congr
  intro q hq
  have hne := h.notMem_chain hp hl hq
  have e : (s.slab.setRoute p r).heap q = s.slab.heap q := by
    rw [Slab.setRoute]
    exact Function.update_of_ne hne r s.slab.heap
  exact congrArg Route.unique e

theorem setLine_cache [DecidableEq κ] (s : Slab κ) (k j : κ) (z y : Size) (cl : CacheLine) :
    (s.setLine k z cl).cache j y = if (j, y) = (k, z) then cl else s.cache j y := by
  by_cases ek : j = k
  · subst ek
    by_cases ez : y = z
    · subst ez
      simp [Slab.setLine]
    · simp [Slab.setLine, ez]
  · simp [Slab.setLine, ek]

/-- The class that was asked for is found with the buffer. -/
theorem Kept.find_live (h : Kept slab s cells) {b : Ptr × Size} (hb : b ∈ s.live) :
    s.live.find? (fun c => c.1 = b.1) = some b := by
  have hnd := h.nodup
  generalize s.live = live at hb hnd
  induction live with
  | nil => cases hb
  | cons c live ih =>
    obtain ⟨hc, hnd⟩ := List.nodup_cons.mp hnd
    rw [List.find?_cons]
    cases List.mem_cons.mp hb with
    | inl e => simp [e]
    | inr hb =>
      have hne : c.1 ≠ b.1 := fun e => hc (e ▸ List.mem_map_of_mem hb)
      simp [hne, ih hb hnd]

end

theorem init_stocked {κ : Type} [Fintype κ] (slab : Ptr) (heap : Ptr → Route) :
    Stocked slab (init slab heap : Arena κ) Stock.empty := by
  refine ⟨⟨_, init_kept slab heap⟩, ?_, ?_⟩
  · intro k z
    exact ⟨[], rfl, rfl, rfl⟩
  · intro z
    cases z <;> simp [init, initPools, initPool, Stock.empty]

theorem step_pops {κ : Type} [DecidableEq κ] {slab : Nat} {s : Arena κ} {k : κ} {sz : Nat}
     (hsz : sz ≤ Size.large.bytes)
    (hfree : (s.slab.cache k (Size.of sz)).free ≠ null)
    (hin : InSlab slab (s.slab.cache k (Size.of sz)).free) :
    ∃ t, s.step slab (.alloc k sz) = .ok t := by
  have hsize : s.slab.alloc slab k sz = s.slab.allocSize slab k (Size.of sz) := by
    rw [Slab.alloc, assert, if_pos hsz, Size.of]
    split_ifs
    · rfl
    · rfl
  have halloc : ∃ out, s.slab.alloc slab k sz = .ok out := by
    rw [hsize, Slab.allocSize, Slab.allocCacheLine]
    generalize Size.of sz = z at hfree hin ⊢
    rw [if_pos hfree, if_pos hin]
    simp [Slab.orCarve, assert, hfree, bind, Except.bind, pure, Except.pure]
  obtain ⟨⟨p, s'⟩, ha⟩ := halloc
  refine ⟨⟨s', (p, Size.of sz) :: s.live⟩, ?_⟩
  rw [Arena.step, bind_eq_ok]
  exact ⟨(p, s'), ha, rfl⟩

theorem Stocked.held_iff {κ : Type} [Fintype κ] {slab : Nat} {s : Arena κ} {st : Stock (κ × Size)}
    (h : Stocked slab s st) (k : κ) (z : Size) :
    st.held (k, z) = 0 ↔ (s.slab.cache k z).free = null := by
  obtain ⟨l, hl, hlength, _⟩ := h.line k z
  rw [← hlength]
  cases l with
  | nil => exact ⟨fun _ => hl, fun _ => rfl⟩
  | cons p l =>
    obtain ⟨hp, hne, _⟩ := hl
    exact ⟨fun e => absurd e (Nat.succ_ne_zero _), fun e => absurd (hp.symm.trans e) hne⟩

section
variable {κ : Type} [DecidableEq κ] [Fintype κ] {slab : Nat} {s t : Arena κ}
  {st : Stock (κ × Size)}

/-- Drawing on the supply for one line of a class. -/
theorem sum_drawn (f : κ × Size → Nat) (k : κ) (z y : Size) :
    ∑ j, Function.update f (k, z) (f (k, z) + 1) (j, y) =
      (∑ j, f (j, y)) + if y = z then 1 else 0 := by
  by_cases e : y = z
  · subst e
    have hupdate : (fun j => Function.update f (k, y) (f (k, y) + 1) (j, y)) =
        Function.update (fun j => f (j, y)) k (f (k, y) + 1) := by
      funext j
      by_cases ej : j = k
      · simp [ej]
      · simp [ej]
    rw [if_pos rfl, hupdate, sum_update_succ (fun j => f (j, y))]
  · rw [if_neg e, Nat.add_zero]
    apply Finset.sum_congr rfl
    intro j _
    rw [Function.update_of_ne]
    exact fun h => e (Prod.mk.inj h).2

theorem Stocked.popped (h : Stocked slab s st) {k : κ} {z : Size} {p : Ptr} {s' : Slab κ}
    (hp : p ≠ null) (hpop : s.slab.Popped slab k z p s')
    (hkept : ∃ cells, Kept slab ⟨s', (p, z) :: s.live⟩ cells) :
    Stocked slab ⟨s', (p, z) :: s.live⟩ (st.step (.take (k, z))) := by
  obtain ⟨rfl, _, rfl⟩ := hpop
  rw [Stock.step, if_neg fun hz => hp ((h.held_iff k z).mp hz)]
  refine ⟨hkept, ?_, h.pool⟩
  intro j y
  obtain ⟨l, hl, hlength, hcount⟩ := h.line j y
  rw [setLine_cache]
  by_cases e : (j, y) = (k, z)
  · obtain ⟨rfl, rfl⟩ := Prod.mk.inj e
    obtain ⟨r, rfl, hr⟩ := hl.cases_ne hp
    rw [if_pos rfl]
    refine ⟨r, hr, ?_, ?_⟩
    · simp [← hlength]
    · simp [hcount]
  · rw [if_neg e]
    refine ⟨l, hl, ?_, hcount⟩
    simp only [Function.update_of_ne e]
    exact hlength

theorem Stocked.grown (h : Stocked slab s st) {k : κ} {z : Size} {p : Ptr} {s' : Slab κ}
    (hgrow : s.slab.Grown k z p s') (hkept : ∃ cells, Kept slab ⟨s', (p, z) :: s.live⟩ cells) :
    Stocked slab ⟨s', (p, z) :: s.live⟩ (st.step (.take (k, z))) := by
  obtain ⟨hfree, _, _, rfl⟩ := hgrow
  rw [Stock.step, if_pos ((h.held_iff k z).mpr hfree)]
  refine ⟨hkept, h.line, ?_⟩
  intro y
  simp only
  rw [sum_drawn, ← h.pool y]
  by_cases e : y = z
  · subst e
    rw [Slab.grow_pools_self, if_pos rfl]
  · rw [Slab.grow_pools_of_ne s.slab e, if_neg e]
    rfl

/-- A buffer in use goes back in front of the line of its class. -/
theorem Stocked.returned (hslab : 0 < slab) (h : Stocked slab s st) (k : κ) {b : Ptr × Size}
    (hb : b ∈ s.live)
    (hkept : ∃ cells, Kept slab
      ⟨s.slab.dalloc k b.1, s.live.eraseP fun c => c.1 = b.1⟩ cells) :
    Stocked slab ⟨s.slab.dalloc k b.1, s.live.eraseP fun c => c.1 = b.1⟩
      (st.step (.give (k, b.2))) := by
  obtain ⟨cells, hcells⟩ := h.kept
  have hmem := List.mem_map_of_mem (f := Prod.fst) hb
  have hne : b.1 ≠ null := by
    obtain ⟨i, _, hi, e⟩ := hcells.number (hcells.numberedLive b hb)
    rw [e]
    exact (bufferAt_inSlab hi).ne_null hslab
  have hdalloc : s.slab.dalloc k b.1 = s.slab.dallocCacheLine k b.2 b.1 :=
    hcells.sound.returned b hb k
  rw [hdalloc, Slab.dallocCacheLine_eq] at hkept ⊢
  refine ⟨hkept, ?_, h.pool⟩
  intro j y
  obtain ⟨l, hl, hlength, hcount⟩ := h.line j y
  have hwritten := hcells.chain_write hmem
    { s.slab.heap b.1 with unique := (s.slab.cache k b.2).free } hl
  rw [setLine_cache, Stock.step]
  by_cases e : (j, y) = (k, b.2)
  · obtain ⟨rfl, rfl⟩ := Prod.mk.inj e
    rw [if_pos rfl]
    refine ⟨b.1 :: l, hwritten.push hne ?_, ?_, ?_⟩
    · simp [Slab.link, Slab.setRoute]
    · simp [hlength]
    · simp [hcount]
  · rw [if_neg e]
    refine ⟨l, hwritten, ?_, hcount⟩
    simp only [Function.update_of_ne e]
    exact hlength

theorem Stocked.step (hslab : 0 < slab) (h : Stocked slab s st) {op : ArenaOp κ}
    (hop : s.Legal op) (hbelow : s.BelowLarge op) (hst : s.step slab op = .ok t) :
    Stocked slab t ((s.moveOf op).foldl Stock.step st) := by
  obtain ⟨cells, hcells⟩ := h.kept
  have hkept := (step_sound hslab hcells hop hst).2 hbelow
  cases op with
  | alloc k sz =>
    rw [Arena.step, bind_eq_ok] at hst
    obtain ⟨⟨p, s'⟩, ha, e⟩ := hst
    cases e
    obtain ⟨hp, hc⟩ := Slab.alloc_sized ha
    cases hc with
    | inl hpop => exact h.popped hp hpop hkept
    | inr hgrow => exact h.grown hgrow hkept
  | dalloc k p =>
    cases hst
    obtain ⟨b, hb, rfl⟩ := List.mem_map.mp hop
    rw [moveOf, hcells.find_live hb]
    exact h.returned hslab k hb hkept
  | write p r =>
    cases hst
    refine ⟨hkept, ?_, h.pool⟩
    intro k z
    obtain ⟨l, hl, hlength, hcount⟩ := h.line k z
    exact ⟨l, hcells.chain_write hop r hl, hlength, hcount⟩

theorem Stocked.run (hslab : 0 < slab) {ops : List (ArenaOp κ)} (h : Stocked slab s st)
    (hlegal : StepsOk (Arena.step slab) Legal s ops)
    (hbelow : StepsOk (Arena.step slab) BelowLarge s ops)
    (hr : ops.foldlM (Arena.step slab) s = .ok t) :
    Stocked slab t ((movesOf slab s ops).foldl Stock.step st) := by
  induction ops generalizing s st with
  | nil =>
    cases hr
    exact h
  | cons op ops ih =>
    rw [List.foldlM_cons, bind_eq_ok] at hr
    obtain ⟨u, hu, hr⟩ := hr
    obtain ⟨hop, hlegal⟩ := stepsOk_cons hlegal hu
    obtain ⟨hb, hbelow⟩ := stepsOk_cons hbelow hu
    rw [movesOf, hu, List.foldl_append]
    exact ih (h.step hslab hop hb hu) hlegal hbelow hr

/-- A request is served from the line, or else by the pool while that lasts. -/
theorem Stocked.alloc_iff (hslab : 0 < slab) (h : Stocked slab s st) (k : κ) (sz : Nat) :
    (∃ t, s.step slab (.alloc k sz) = .ok t) ↔
      sz ≤ Size.large.bytes ∧ (st.held (k, Size.of sz) ≠ 0 ∨
        (s.slab.pools (Size.of sz)).index < (Size.of sz).max) := by
  obtain ⟨cells, hcells⟩ := h.kept
  have hheld : st.held (k, Size.of sz) ≠ 0 ↔ (s.slab.cache k (Size.of sz)).free ≠ null :=
    not_congr (h.held_iff k (Size.of sz))
  rw [hheld]
  constructor
  · rintro ⟨t, hst⟩
    rw [Arena.step, bind_eq_ok] at hst
    obtain ⟨⟨p, s'⟩, ha, _⟩ := hst
    obtain ⟨hp, hc⟩ := Slab.alloc_sized ha
    rw [Slab.alloc, assert_bind_ok] at ha
    refine ⟨ha.1, hc.imp ?_ ?_⟩
    · intro hpop hfree
      exact hp (hpop.1.trans hfree)
    · intro hgrow
      rw [← (hcells.placed (Size.of sz)).2.2]
      exact hgrow.2.1
  · rintro ⟨hsz, hc⟩
    by_cases hfree : (s.slab.cache k (Size.of sz)).free = null
    · exact ⟨_, step_carves hslab (Size.of sz) sz rfl hsz hcells.placed hfree
        (hc.resolve_left fun hne => hne hfree)⟩
    · apply step_pops hsz hfree
      have hmem := (hcells.lists.linked_iff (k := (k, Size.of sz))).mp (.here hfree)
      obtain ⟨i, _, hi, e⟩ := hcells.number (hcells.numberedCells (k, Size.of sz) _ hmem)
      rw [e]
      exact bufferAt_inSlab hi

end

/-- From `init_alloc` on, for any number of caches: in a run of legal calls that returns, with every
small buffer fresh from the pool below the large one, each pool has been carved exactly as far as
the peaks of its lines add up to, each line holds as many buffers as have come back since its own
peak, and the next request is served unless it is too large, or no buffer has come back since the
peak of the line and the peaks have used up the pool. -/
theorem pool_use {κ : Type} [DecidableEq κ] [Fintype κ] (slab : Ptr) (hslab : 0 < slab)
    (heap : Ptr → Route) (ops : List (ArenaOp κ)) (s : Arena κ)
    (hlegal : StepsOk (step slab) Legal (init slab heap) ops)
    (hbelow : StepsOk (step slab) BelowLarge (init slab heap) ops)
    (hr : ops.foldlM (step slab) (init slab heap) = .ok s) :
    let moves := movesOf slab (init slab heap) ops
    (∀ z, ((s.slab.pools z).index : Int) = ∑ k, peak (k, z) moves) ∧
      (∀ k z, ∃ l, Chain s.slab.link null (s.slab.cache k z).free l ∧
        (l.length : Int) = peak (k, z) moves - balance (k, z) moves ∧
        (s.slab.cache k z).freeCount = UInt32.ofNat l.length) ∧
      ∀ k sz, (∃ t, s.step slab (.alloc k sz) = .ok t) ↔
        sz ≤ Size.large.bytes ∧
          (balance (k, Size.of sz) moves < peak (k, Size.of sz) moves ∨
            ∑ j, peak (j, Size.of sz) moves < (Size.of sz).max) := by
  intro moves
  have h := (init_stocked slab heap).run hslab hlegal hbelow hr
  have hpeak := fun k => Stock.run_eq moves k
  have hpool : ∀ z, ((s.slab.pools z).index : Int) = ∑ k, peak (k, z) moves := by
    intro z
    rw [h.pool z, Nat.cast_sum]
    exact Finset.sum_congr rfl fun k _ => (hpeak (k, z)).1
  refine ⟨hpool, ?_, ?_⟩
  · intro k z
    obtain ⟨l, hl, hlength, hcount⟩ := h.line k z
    refine ⟨l, hl, ?_, hcount⟩
    rw [hlength]
    exact (hpeak (k, z)).2
  · intro k sz
    have hheld := (hpeak (k, Size.of sz)).2
    have hused := hpool (Size.of sz)
    rw [h.alloc_iff hslab k sz]
    apply and_congr_right
    intro _
    apply or_congr
    · rw [← Nat.pos_iff_ne_zero, ← Int.natCast_pos, hheld]
      exact Int.sub_pos
    · rw [← hused]
      exact Int.ofNat_lt.symm

/-- The two caches of `passedOn`. -/
theorem pool_use_passed_on :
    ∃ s, passedOn.foldlM (step (2 ^ 46)) (init (2 ^ 46) zeroPages) = .ok s ∧
      let moves := movesOf (2 ^ 46) (init (2 ^ 46) zeroPages) passedOn
      ((s.slab.pools .small).index : Int) = ∑ k, peak (k, .small) moves ∧
        ∑ k, peak (k, .small) moves = 2 := by
  have hr : (passedOn.foldlM (step (2 ^ 46)) (init (2 ^ 46) zeroPages)).map (fun _ => ()) =
      .ok () := by decide
  obtain ⟨s, hs, _⟩ := exists_of_map_eq_ok hr
  exact ⟨s, hs, (pool_use (2 ^ 46) (by decide) zeroPages passedOn s (by decide) (by decide) hs).1 _,
    by decide⟩

end Arena

end FastParse
