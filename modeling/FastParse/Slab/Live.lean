import FastParse.Slab.Counts

namespace FastParse

open Framework

/-- The slab, and every buffer that has been handed out and not been returned, with the size
class that was asked for. -/
structure Arena (κ : Type) where
  slab : Slab κ
  live : List (Ptr × Size)

/-- The calls of `alloc` and `dalloc`, and what the program stores in between. -/
inductive ArenaOp (κ : Type) where
  | alloc (k : κ) (sz : Nat)
  | dalloc (k : κ) (p : Ptr)
  | write (p : Ptr) (r : Route)

namespace Arena

section
variable {κ : Type}

/-- After `init_alloc`, with empty caches; pages of the slab may hold anything. -/
def init (slab : Ptr) (heap : Ptr → Route) : Arena κ :=
  ⟨⟨heap, initPools slab, fun _ => initCache⟩, []⟩

/-- Only buffers in use are returned and written. -/
def Legal (s : Arena κ) : ArenaOp κ → Prop
  | .alloc .. => True
  | .dalloc _ p => p ∈ s.live.map Prod.fst
  | .write p _ => p ∈ s.live.map Prod.fst

/-- The bytes of two buffers do not meet. -/
def Apart (b c : Ptr × Size) : Prop := b.1 + b.2.bytes ≤ c.1 ∨ c.1 + c.2.bytes ≤ b.1

/-- A small buffer fresh from its pool lies below the large pool. -/
def BelowLarge (s : Arena κ) : ArenaOp κ → Prop
  | .alloc k sz => Size.of sz = .small → (s.slab.cache k .small).free = null →
      (s.slab.pools .small).index < smallRoom
  | _ => True

end

section
variable {κ : Type} [DecidableEq κ]

def step (slab : Ptr) (s : Arena κ) : ArenaOp κ → Exec (Arena κ)
  | .alloc k sz => do
    let (p, s') ← s.slab.alloc slab k sz
    return ⟨s', (p, Size.of sz) :: s.live⟩
  | .dalloc k p => return ⟨s.slab.dalloc k p, s.live.eraseP fun b => b.1 = p⟩
  | .write p r => return { s with slab := s.slab.setRoute p r }

/-- The buffers in use lie apart and inside the slab, and `dalloc` puts each of them on the
line of its own size class. -/
structure Sound (slab : Ptr) (s : Arena κ) : Prop where
  apart : s.live.Pairwise Apart
  inside : ∀ b ∈ s.live, slab ≤ b.1 ∧ b.1 + b.2.bytes ≤ slab + slabSize
  returned : ∀ b ∈ s.live, ∀ k, s.slab.dalloc k b.1 = s.slab.dallocCacheLine k b.2 b.1

def LeadsToSound (slab : Ptr) (s : Arena κ) (op : ArenaOp κ) : Prop :=
  ∀ t, s.step slab op = .ok t → t.Sound slab

end

/-- Buffer of the class `z` taken from its pool before. -/
def Numbered (slab : Ptr) {κ : Type} (s : Slab κ) (z : Size) (p : Ptr) : Prop :=
  ∃ i < (s.pools z).index, p = bufferAt slab z i

/-- The buffers on the lines and those in use are different buffers of their own pools. -/
structure Kept {κ : Type} (slab : Ptr) (s : Arena κ) (cells : κ × Size → List Ptr) : Prop where
  placed : s.slab.Placed slab
  room : (s.slab.pools .small).index ≤ smallRoom
  lists : FreeLists s.slab.link null (fun k => (s.slab.cache k.1 k.2).free) cells
  numberedCells : ∀ k, ∀ p ∈ cells k, Numbered slab s.slab k.2 p
  numberedLive : ∀ b ∈ s.live, Numbered slab s.slab b.2 b.1
  limits : ∀ z, (s.slab.pools z).index ≤ z.max
  nodup : (s.live.map Prod.fst).Nodup
  notFree : ∀ p ∈ s.live.map Prod.fst, ∀ k, p ∉ cells k

/-- Two buffers of the pools, the small ones below the large pool, lie apart. -/
theorem bufferAt_apart {slab : Nat} {z z' : Size} {i i' : Nat}
    (hz : z = .small → i < smallRoom) (hz' : z' = .small → i' < smallRoom)
    (h : bufferAt slab z i ≠ bufferAt slab z' i') :
    Apart (bufferAt slab z i, z) (bufferAt slab z' i', z') := by
  have h : ¬ @Eq Nat (bufferAt slab z i) (bufferAt slab z' i') := h
  show @LE.le Nat _ (bufferAt slab z i + z.bytes) (bufferAt slab z' i') ∨
    @LE.le Nat _ (bufferAt slab z' i' + z'.bytes) (bufferAt slab z i)
  cases z <;> cases z'
  · rw [bufferAt_small, bufferAt_small] at h ⊢
    change slab + 256 * i + 256 ≤ slab + 256 * i' ∨ slab + 256 * i' + 256 ≤ slab + 256 * i
    omega
  · have hi : i < 6445568 := hz rfl
    rw [bufferAt_small, bufferAt_large]
    left
    change slab + 256 * i + 256 ≤ _
    omega
  · have hi : i' < 6445568 := hz' rfl
    rw [bufferAt_small, bufferAt_large]
    right
    change slab + 256 * i' + 256 ≤ _
    omega
  · rw [bufferAt_large, bufferAt_large] at h ⊢
    change slab + 1650065408 + 4224 * i + 4224 ≤ slab + 1650065408 + 4224 * i' ∨
      slab + 1650065408 + 4224 * i' + 4224 ≤ slab + 1650065408 + 4224 * i
    omega

theorem bufferAt_inside {slab : Nat} {z : Size} {i : Nat} (h : i < z.max) :
    slab ≤ bufferAt slab z i ∧ bufferAt slab z i + z.bytes ≤ slab + slabSize := by
  have hs : slabSize = 14464000000 := by decide
  rw [hs]
  cases z with
  | small =>
    have h : i < 40000000 := h
    rw [bufferAt_small]
    change slab ≤ slab + 256 * i ∧ slab + 256 * i + 256 ≤ slab + 14464000000
    omega
  | large =>
    have h : i < 1000000 := h
    rw [bufferAt_large]
    change slab ≤ slab + 1650065408 + 4224 * i ∧
      slab + 1650065408 + 4224 * i + 4224 ≤ slab + 14464000000
    omega

theorem init_kept {κ : Type} (slab : Ptr) (heap : Ptr → Route) :
    Kept slab (init slab heap : Arena κ) fun _ => [] := by
  refine ⟨?_, Nat.zero_le _, FreeLists.empty fun _ => rfl, ?_, ?_, ?_, List.nodup_nil, ?_⟩
  · intro z
    cases z <;> exact ⟨rfl, rfl, rfl⟩
  · intro k p hp
    exact absurd hp List.not_mem_nil
  · intro b hb
    exact absurd hb List.not_mem_nil
  · intro z
    cases z <;> exact Nat.zero_le _
  · intro p hp
    exact absurd hp List.not_mem_nil

namespace Kept

section
variable {κ : Type} {slab : Nat} {s : Arena κ} {cells : κ × Size → List Ptr}

/-- The number of a buffer stays below the large pool and the end of its own. -/
theorem number (h : Kept slab s cells) {z : Size} {p : Ptr} (hp : Numbered slab s.slab z p) :
    ∃ i, (z = .small → i < smallRoom) ∧ i < z.max ∧ p = bufferAt slab z i := by
  obtain ⟨i, hi, e⟩ := hp
  refine ⟨i, ?_, Nat.lt_of_lt_of_le hi (h.limits z), e⟩
  intro hz
  rw [hz] at hi
  exact Nat.lt_of_lt_of_le hi h.room

theorem sound [DecidableEq κ] (h : Kept slab s cells) : s.Sound slab := by
  refine ⟨?_, ?_, ?_⟩
  · have hne : s.live.Pairwise fun b c => b.1 ≠ c.1 := List.pairwise_map.mp h.nodup
    apply hne.imp_of_mem
    intro b c hb hc hbc
    obtain ⟨i, hi, _, e⟩ := h.number (h.numberedLive b hb)
    obtain ⟨j, hj, _, e'⟩ := h.number (h.numberedLive c hc)
    rw [e, e'] at hbc
    have hapart := bufferAt_apart hi hj hbc
    rw [← e, ← e'] at hapart
    exact hapart
  · intro b hb
    obtain ⟨i, _, hi, e⟩ := h.number (h.numberedLive b hb)
    have hinside := @bufferAt_inside slab _ _ hi
    rw [← e] at hinside
    exact hinside
  · intro b hb k
    obtain ⟨i, hi, _, e⟩ := h.number (h.numberedLive b hb)
    rw [Slab.dalloc_eq, e, Slab.sizeClass_bufferAt h.placed hi]

/-- A buffer in use may be written: the lines stay. -/
theorem write (h : Kept slab s cells) {p : Ptr} (hp : p ∈ s.live.map Prod.fst) (r : Route) :
    Kept slab { s with slab := s.slab.setRoute p r } cells := by
  refine ⟨h.placed, h.room, ?_, h.numberedCells, h.numberedLive, h.limits, h.nodup, h.notFree⟩
  apply h.lists.congr
  intro k q hq
  have hne : q ≠ p := fun e => h.notFree p hp k (e ▸ hq)
  have e : (s.slab.setRoute p r).heap q = s.slab.heap q := by
    rw [Slab.setRoute]
    exact Function.update_of_ne hne r s.slab.heap
  exact congrArg Route.unique e

theorem numbered_grow {s : Slab κ} {z z' : Size} {p : Ptr} (h : Numbered slab s z p) :
    Numbered slab (s.grow z') z p := by
  obtain ⟨i, hi, e⟩ := h
  exact ⟨i, s.lt_grow z' hi, e⟩

theorem grown (h : Kept slab s cells) {k : κ} {z : Size} {p : Ptr} {s' : Slab κ}
    (hroom : z = .small → (s.slab.pools .small).index < smallRoom)
    (hgrow : s.slab.Grown k z p s') : Kept slab ⟨s', (p, z) :: s.live⟩ cells := by
  obtain ⟨haddr, hlt⟩ := hgrow.bufferAt h.placed
  -- no buffer handed out before has its number
  have hfresh : ∀ y q, Numbered slab s.slab y q → q ≠ p := by
    intro y q hq e
    obtain ⟨i, hi, eq⟩ := hq
    exact hgrow.fresh h.placed h.room hroom hi (eq.symm.trans e)
  have hnew : p ∉ s.live.map Prod.fst := by
    intro hp
    obtain ⟨b, hb, e⟩ := List.mem_map.mp hp
    exact hfresh b.2 b.1 (h.numberedLive b hb) e
  obtain ⟨_, hindex, _, rfl⟩ := hgrow
  refine ⟨h.placed.grow z, Slab.grow_room h.room hroom, h.lists, ?_, ?_, ?_, ?_, ?_⟩
  · intro j q hq
    exact numbered_grow (h.numberedCells j q hq)
  · intro b hb
    cases List.mem_cons.mp hb with
    | inl e =>
      rw [e]
      exact ⟨(s.slab.pools z).index, s.slab.lt_grow_self z, haddr⟩
    | inr hb => exact numbered_grow (h.numberedLive b hb)
  · intro y
    by_cases e : y = z
    · subst e
      rw [Slab.grow_pools_self]
      exact hlt
    · rw [Slab.grow_pools_of_ne s.slab e]
      exact h.limits y
  · exact List.nodup_cons.mpr ⟨hnew, h.nodup⟩
  · intro q hq j hj
    cases List.mem_cons.mp hq with
    | inl e => exact hfresh j.2 q (h.numberedCells j q hj) e
    | inr hq => exact h.notFree q hq j hj

end

section
variable {κ : Type} [DecidableEq κ] {slab : Nat} {s : Arena κ} {cells : κ × Size → List Ptr}

theorem popped (h : Kept slab s cells) {k : κ} {z : Size} {p : Ptr} {s' : Slab κ}
    (hp : p ≠ null) (hpop : s.slab.Popped slab k z p s') :
    ∃ cells', Kept slab ⟨s', (p, z) :: s.live⟩ cells' := by
  obtain ⟨rfl, _, rfl⟩ := hpop
  obtain ⟨l, hl, _⟩ := (h.lists.chain (k, z)).cases_ne hp
  have hmem : (s.slab.cache k z).free ∈ cells (k, z) := by simp [hl]
  refine ⟨Function.update cells (k, z) l, h.placed, h.room, ?_, ?_, ?_, h.limits, ?_, ?_⟩
  · rw [Counted.setLine_heads]
    exact h.lists.pop hl
  · intro j q hq
    exact h.numberedCells j q (FreeLists.mem_of_mem_pop hl hq)
  · intro b hb
    cases List.mem_cons.mp hb with
    | inl e =>
      rw [e]
      exact h.numberedCells (k, z) _ hmem
    | inr hb => exact h.numberedLive b hb
  · exact List.nodup_cons.mpr ⟨fun hin => h.notFree _ hin (k, z) hmem, h.nodup⟩
  · intro q hq j hj
    have hj' := FreeLists.mem_of_mem_pop hl hj
    cases List.mem_cons.mp hq with
    | inl e =>
      rw [e] at hj
      exact h.lists.notMem_pop hl j hj
    | inr hq => exact h.notFree q hq j hj'

theorem live_erase (l : List (Ptr × Size)) (p : Ptr) :
    (l.eraseP fun b => b.1 = p).map Prod.fst = (l.map Prod.fst).erase p := by
  rw [List.erase_eq_eraseP', List.eraseP_map]
  congr 2

/-- A buffer in use goes back in front of the line of its class. -/
theorem dalloc (h : Kept slab s cells) (k : κ) {p : Ptr} (hslab : 0 < slab)
    (hp : p ∈ s.live.map Prod.fst) :
    ∃ cells', Kept slab ⟨s.slab.dalloc k p, s.live.eraseP fun b => b.1 = p⟩ cells' := by
  obtain ⟨b, hb, rfl⟩ := List.mem_map.mp hp
  have hnumber := h.numberedLive b hb
  have hne : b.1 ≠ null := by
    obtain ⟨i, _, hi, e⟩ := h.number hnumber
    rw [e]
    exact (bufferAt_inSlab hi).ne_null hslab
  have hlists := (h.write hp { s.slab.heap b.1 with unique := (s.slab.cache k b.2).free }).lists
  have hlink : (s.slab.setRoute b.1
      { s.slab.heap b.1 with unique := (s.slab.cache k b.2).free }).link b.1 =
        (s.slab.cache k b.2).free := by
    simp only [Slab.link, Slab.setRoute, Function.update_self]
  have hleft : ∀ q ∈ (s.live.map Prod.fst).erase b.1, q ∈ s.live.map Prod.fst ∧ q ≠ b.1 := by
    intro q hq
    exact ((List.Nodup.mem_erase_iff h.nodup).mp hq).symm
  rw [h.sound.returned b hb k, Slab.dallocCacheLine_eq]
  refine ⟨Function.update cells (k, b.2) (b.1 :: cells (k, b.2)), h.placed, h.room, ?_, ?_, ?_,
    h.limits, ?_, ?_⟩
  · rw [Counted.setLine_heads]
    exact hlists.push (k := (k, b.2)) hne (h.notFree b.1 hp) hlink
  · intro j q hq
    cases FreeLists.mem_push hq with
    | inl e =>
      obtain ⟨rfl, rfl⟩ := e
      exact hnumber
    | inr hq => exact h.numberedCells j q hq
  · intro c hc
    exact h.numberedLive c (List.mem_of_mem_eraseP hc)
  · rw [live_erase]
    exact h.nodup.erase b.1
  · rw [live_erase]
    intro q hq j hj
    obtain ⟨hq, hqb⟩ := hleft q hq
    cases FreeLists.mem_push hj with
    | inl e => exact hqb e.1
    | inr hj => exact h.notFree q hq j hj

end

end Kept

/-- The two lines of a cache are told apart by where a buffer goes. -/
theorem dallocCacheLine_inj {κ : Type} [DecidableEq κ] {s : Slab κ} {k : κ} {z z' : Size}
    {p : Ptr} (h : s.dallocCacheLine k z p = s.dallocCacheLine k z' p) : z = z' := by
  by_contra hne
  rw [Slab.dallocCacheLine_eq, Slab.dallocCacheLine_eq] at h
  have hcount := congrArg (fun s : Slab κ => (s.cache k z).freeCount) h
  simp only [Slab.setLine, Slab.setRoute, Function.update_self, Function.update_of_ne hne] at hcount
  have hn := congrArg UInt32.toNat hcount
  rw [UInt32.toNat_add] at hn
  have hlt := (s.cache k z).freeCount.toNat_lt
  change ((s.cache k z).freeCount.toNat + 1) % 4294967296 = _ at hn
  omega

section
variable {κ : Type} [DecidableEq κ] {slab : Nat} {s t : Arena κ} {cells : κ × Size → List Ptr}

theorem leadsToSound_of_kept {op : ArenaOp κ} (hst : s.step slab op = .ok t)
    (h : Kept slab t cells) : s.LeadsToSound slab op := by
  intro t' hst'
  obtain rfl := Except.ok.inj (hst.symm.trans hst')
  exact h.sound

/-- A small buffer in the large pool is taken for a large one. -/
theorem grown_above {k : κ} {p : Ptr} {s' : Slab κ} (hp : s.slab.Placed slab)
    (hgrow : s.slab.Grown k .small p s') (hroom : smallRoom ≤ (s.slab.pools .small).index) :
    s'.dalloc k p ≠ s'.dallocCacheLine k .small p := by
  obtain ⟨haddr, _⟩ := hgrow.bufferAt hp
  have hp' : s'.Placed slab := by
    rw [hgrow.2.2.2]
    exact hp.grow .small
  have hlarge : s'.isLarge p := by
    rw [Slab.isLarge, (hp' .large).1, haddr]
    show @LE.le Nat _ (bufferAt slab .large 0) (bufferAt slab .small (s.slab.pools .small).index)
    rw [bufferAt_small, ← smallRoom_eq, bufferAt_small]
    omega
  intro h
  rw [Slab.dalloc_eq, Slab.sizeClass, if_pos hlarge] at h
  cases dallocCacheLine_inj h

/-- A legal step that carves small buffers below the large pool keeps everything apart; one
that does not hands out a buffer that would come back to the wrong line. -/
theorem step_sound (hslab : 0 < slab) {op : ArenaOp κ} (h : Kept slab s cells)
    (hop : s.Legal op) (hst : s.step slab op = .ok t) :
    (s.LeadsToSound slab op ↔ s.BelowLarge op) ∧
      (s.BelowLarge op → ∃ cells', Kept slab t cells') := by
  have of_kept : (∃ cells', Kept slab t cells') → s.BelowLarge op →
      (s.LeadsToSound slab op ↔ s.BelowLarge op) ∧
        (s.BelowLarge op → ∃ cells', Kept slab t cells') := by
    intro hkept hbelow
    refine ⟨⟨fun _ => hbelow, fun _ => ?_⟩, fun _ => hkept⟩
    obtain ⟨cells', hkept⟩ := hkept
    exact leadsToSound_of_kept hst hkept
  cases op with
  | alloc k sz =>
    have hstep := hst
    rw [step, bind_eq_ok] at hstep
    obtain ⟨⟨p, s'⟩, ha, e⟩ := hstep
    cases e
    obtain ⟨hp, hc⟩ := Slab.alloc_sized ha
    cases hc with
    | inl hpop =>
      apply of_kept (h.popped hp hpop)
      intro hsmall hnull
      rw [hsmall] at hpop
      exact absurd (hpop.1.trans hnull) hp
    | inr hgrow =>
      by_cases hbelow : s.BelowLarge (.alloc k sz)
      · have hroom : Size.of sz = .small → (s.slab.pools .small).index < smallRoom := by
          intro hsmall
          exact hbelow hsmall (hsmall ▸ hgrow.1)
        exact of_kept ⟨cells, h.grown hroom hgrow⟩ hbelow
      · refine ⟨⟨?_, fun hb => absurd hb hbelow⟩, fun hb => absurd hb hbelow⟩
        intro hsound
        exfalso
        simp only [BelowLarge, not_forall, Nat.not_lt] at hbelow
        obtain ⟨hsmall, _, hroom⟩ := hbelow
        rw [hsmall] at hgrow
        apply grown_above h.placed hgrow hroom
        have hret := (hsound _ hst).returned (p, Size.of sz) List.mem_cons_self k
        rw [hsmall] at hret
        exact hret
  | dalloc k p =>
    cases hst
    exact of_kept (h.dalloc k hslab hop) trivial
  | write p r =>
    cases hst
    exact of_kept ⟨cells, h.write hop r⟩ trivial

end

/-- From `init_alloc` on, for any number of caches: in a run of legal calls that returns, the
buffers in use are apart, inside the slab and bound for their own lines in every state reached
exactly if every small buffer fresh from the pool lay below the large pool. -/
theorem live_buffers_apart {κ : Type} [DecidableEq κ] (slab : Ptr) (hslab : 0 < slab)
    (heap : Ptr → Route) (ops : List (ArenaOp κ)) (s : Arena κ)
    (hlegal : StepsOk (step slab) Legal (init slab heap) ops)
    (hr : ops.foldlM (step slab) (init slab heap) = .ok s) :
    StepsOk (step slab) (LeadsToSound slab) (init slab heap) ops ↔
      StepsOk (step slab) BelowLarge (init slab heap) ops := by
  apply stepsOk_iff (I := fun s : Arena κ => ∃ cells, Kept slab s cells) _
    ⟨_, init_kept slab heap⟩ hlegal hr
  intro s op t hs hop hst
  obtain ⟨cells, hs⟩ := hs
  exact step_sound hslab hs hop hst

section
variable {κ : Type} [DecidableEq κ]

instance (s : Arena κ) : ∀ op, Decidable (s.Legal op)
  | .alloc .. => isTrue trivial
  | .dalloc _ p => inferInstanceAs (Decidable (p ∈ s.live.map Prod.fst))
  | .write p _ => inferInstanceAs (Decidable (p ∈ s.live.map Prod.fst))

instance (s : Arena κ) : ∀ op, Decidable (s.BelowLarge op)
  | .alloc .. => inferInstanceAs (Decidable (_ → _ → _))
  | .dalloc .. => isTrue trivial
  | .write .. => isTrue trivial

end

def zeroPages : Ptr → Route := fun _ => ⟨0, 0, 0, ⟨0, 0, 0, 0, 0, 0, 0, 0⟩, fun _ => 0⟩

/-- Two caches; the buffer of the first one is returned through the second one and taken
again. -/
def passedOn : List (ArenaOp Bool) :=
  [.alloc false 100, .alloc true 3000, .dalloc true (2 ^ 46), .alloc false 200, .alloc true 50]

theorem live_buffers_apart_passed_on :
    ∃ s, passedOn.foldlM (step (2 ^ 46)) (init (2 ^ 46) zeroPages) = .ok s ∧
      StepsOk (step (2 ^ 46)) (LeadsToSound (2 ^ 46)) (init (2 ^ 46) zeroPages) passedOn := by
  have hr : (passedOn.foldlM (step (2 ^ 46)) (init (2 ^ 46) zeroPages)).map (fun _ => ()) =
      .ok () := by decide
  obtain ⟨s, hs, _⟩ := exists_of_map_eq_ok hr
  exact ⟨s, hs, (live_buffers_apart (2 ^ 46) (by decide) zeroPages passedOn s (by decide) hs).mpr
    (by decide)⟩

section
variable {κ : Type} [DecidableEq κ] {slab : Nat}

theorem step_carves (hslab : 0 < slab) {s : Arena κ} {k : κ} (z : Size) (sz : Nat)
    (hz : Size.of sz = z) (hsz : sz ≤ Size.large.bytes) (hp : s.slab.Placed slab)
    (hfree : (s.slab.cache k z).free = null) (hlt : (s.slab.pools z).index < z.max) :
    s.step slab (.alloc k sz) =
      .ok ⟨s.slab.grow z, (bufferAt slab z (s.slab.pools z).index, z) :: s.live⟩ := by
  obtain ⟨hbuf, hmax, hindex⟩ := hp z
  have hne : bufferAt slab z (s.slab.pools z).index ≠ null :=
    (bufferAt_inSlab hlt).ne_null hslab
  have hsize : s.slab.alloc slab k sz = s.slab.allocSize slab k z := by
    rw [Size.of] at hz
    rw [Slab.alloc, assert, if_pos hsz]
    split_ifs at hz ⊢ with h
    · rw [← hz]
      rfl
    · rw [← hz]
      rfl
  have hline : s.slab.allocCacheLine slab k z = .ok (null, s.slab) := by
    rw [Slab.allocCacheLine, if_neg (not_not.mpr hfree)]
    rfl
  have hcarve : s.slab.carve z =
      .ok (bufferAt slab z (s.slab.pools z).index, s.slab.grow z) := by
    rw [Slab.carve, poolAlloc, assert, if_pos (hindex ▸ hlt)]
    change Except.ok ((s.slab.pools z).buf + (s.slab.pools z).allocMax * _, s.slab.grow z) = _
    rw [hbuf, hmax]
    rfl
  rw [step, hsize, Slab.allocSize, hline]
  change (do
    let (p, s') ← (do
      let (p, s') ← s.slab.orCarve z null
      assert (p ≠ null)
      return (p, s'))
    return (⟨s', (p, Size.of sz) :: s.live⟩ : Arena κ)) = _
  rw [Slab.orCarve, if_pos rfl, hcarve, hz]
  change (do
    let (p, s') ← (do
      assert (bufferAt slab z (s.slab.pools z).index ≠ null)
      return (bufferAt slab z (s.slab.pools z).index, s.slab.grow z))
    return (⟨s', (p, z) :: s.live⟩ : Arena κ)) = _
  rw [assert, if_pos hne]
  rfl

theorem small_run (hslab : 0 < slab) (k : κ) (n : Nat) {s : Arena κ} (hp : s.slab.Placed slab)
    (hfree : (s.slab.cache k .small).free = null)
    (hmax : (s.slab.pools .small).index + n ≤ Size.small.max) :
    ∃ t, (List.replicate n (.alloc k 100)).foldlM (step slab) s = .ok t ∧
      t.slab.Placed slab ∧ (t.slab.cache k .small).free = null ∧
      (t.slab.pools .small).index = (s.slab.pools .small).index + n ∧
      ∀ b ∈ s.live, b ∈ t.live := by
  induction n generalizing s with
  | zero => exact ⟨s, rfl, hp, hfree, rfl, fun b hb => hb⟩
  | succ n ih =>
    have hlt : (s.slab.pools .small).index < Size.small.max := by omega
    have hst := step_carves hslab .small 100 rfl (by decide) hp hfree hlt
    have hindex : ((s.slab.grow .small).pools .small).index =
        (s.slab.pools .small).index + 1 := by
      rw [Slab.grow_pools_self]
    obtain ⟨t, ht, hpt, hft, hit, hlive⟩ := @ih ⟨s.slab.grow .small,
      (bufferAt slab .small (s.slab.pools .small).index, .small) :: s.live⟩ (hp.grow .small) hfree
      (by rw [hindex]; omega)
    refine ⟨t, ?_, hpt, hft, ?_, fun b hb => hlive b (List.mem_cons_of_mem _ hb)⟩
    · rw [List.replicate_succ, List.foldlM_cons, hst]
      exact ht
    · rw [hit, hindex]
      omega

end

/-- One large buffer, and one small buffer more than fit below the large pool. -/
def smallAfterLarge (n : Nat) : List (ArenaOp Unit) :=
  .alloc () 4000 :: List.replicate (n + 1) (.alloc () 100)

theorem smallAfterLarge_overlap {n : Nat} (hn : n = smallRoom) :
    ∃ s, (smallAfterLarge n).foldlM (step (2 ^ 46)) (init (2 ^ 46) zeroPages) = .ok s ∧
      StepsOk (step (2 ^ 46)) Legal (init (2 ^ 46) zeroPages) (smallAfterLarge n) ∧
      ¬ s.live.Pairwise Apart := by
  have hslab : (0 : Nat) < 2 ^ 46 := by decide
  have hmax : n < Size.small.max := by
    rw [hn]
    decide
  have hp : (init (2 ^ 46) zeroPages : Arena Unit).slab.Placed (2 ^ 46) :=
    (init_kept (2 ^ 46) zeroPages).placed
  have h1 := step_carves (k := ()) hslab .large 4000 rfl (by decide) hp rfl
    (by decide)
  obtain ⟨s, hs, hps, hfree, hindex, hlive⟩ := small_run
    (s := ⟨(init (2 ^ 46) zeroPages).slab.grow .large, [(bufferAt (2 ^ 46) .large 0, .large)]⟩)
    hslab () n (hp.grow .large) rfl (by rw [Nat.le_iff_lt_add_one]; exact Nat.lt_succ_of_lt (by
      change 0 + n < _
      rwa [Nat.zero_add]))
  have hindex : (s.slab.pools .small).index = n := hindex.trans (Nat.zero_add n)
  have h3 := step_carves (k := ()) hslab .small 100 rfl (by decide) hps hfree
    (by rwa [hindex])
  rw [hindex, hn, smallRoom_eq] at h3
  refine ⟨⟨s.slab.grow .small, (bufferAt (2 ^ 46) .large 0, .small) :: s.live⟩, ?_, ?_, ?_⟩
  · rw [smallAfterLarge, List.foldlM_cons, h1, List.replicate_succ']
    change (List.replicate n (ArenaOp.alloc () 100) ++
      [ArenaOp.alloc () 100]).foldlM (step (2 ^ 46)) _ = _
    rw [List.foldlM_append]
    change (List.replicate n (ArenaOp.alloc () 100)).foldlM (step (2 ^ 46))
      ⟨(init (2 ^ 46) zeroPages).slab.grow .large, [(bufferAt (2 ^ 46) .large 0, .large)]⟩ >>= _ = _
    rw [hs]
    change s.step (2 ^ 46) (.alloc () 100) >>= pure = _
    rw [h3]
    rfl
  · apply stepsOk_of_forall
    intro op hop s
    rw [smallAfterLarge, List.mem_cons] at hop
    cases hop with
    | inl e =>
      rw [e]
      trivial
    | inr hop =>
      rw [List.eq_of_mem_replicate hop]
      trivial
  · intro hapart
    have hboth := (List.pairwise_cons.mp hapart).1 _ (hlive _ List.mem_cons_self)
    have hpos : Size.small.bytes = 256 ∧ Size.large.bytes = 4224 := ⟨rfl, rfl⟩
    cases hboth with
    | inl h => exact absurd h (by decide)
    | inr h => exact absurd h (by decide)

/-- The last small buffer has the address of the large one. -/
theorem live_buffers_overlap :
    ∃ s, (smallAfterLarge smallRoom).foldlM (step (2 ^ 46)) (init (2 ^ 46) zeroPages) = .ok s ∧
      StepsOk (step (2 ^ 46)) Legal (init (2 ^ 46) zeroPages) (smallAfterLarge smallRoom) ∧
      ¬ s.live.Pairwise Apart := smallAfterLarge_overlap rfl

end Arena

end FastParse
