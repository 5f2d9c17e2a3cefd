import FastParse.Slab.Alloc

namespace FastParse

open Framework

/-- Buffer number `i` of a pool. -/
def bufferAt (slab : Ptr) (z : Size) (i : Nat) : Ptr := (initPools slab z).buf + z.bytes * i

/-- How many small buffers lie below the large pool: the product in `init_pool` has wrapped,
and the large pool starts inside the small one. -/
def smallRoom : Nat := 6445568

theorem bufferAt_small (slab i : Nat) : @Eq Nat (bufferAt slab .small i) (slab + 256 * i) := rfl

theorem bufferAt_large (slab i : Nat) :
    @Eq Nat (bufferAt slab .large i) (slab + 1650065408 + 4224 * i) := rfl

theorem smallRoom_eq (slab : Nat) :
    @Eq Nat (bufferAt slab .small smallRoom) (bufferAt slab .large 0) := by
  have hs := bufferAt_small slab smallRoom
  have hl := bufferAt_large slab 0
  rw [smallRoom] at hs ⊢
  omega

/-- Below the overlap the buffers of both pools have addresses of their own. -/
theorem bufferAt_inj {slab : Ptr} {z z' : Size} {i i' : Nat}
    (hz : z = .small → i < smallRoom) (hz' : z' = .small → i' < smallRoom)
    (h : bufferAt slab z i = bufferAt slab z' i') : z = z' ∧ i = i' := by
  have h : @Eq Nat (bufferAt slab z i) (bufferAt slab z' i') := h
  cases z <;> cases z'
  · rw [bufferAt_small, bufferAt_small] at h
    exact ⟨rfl, by omega⟩
  · have hi := hz rfl
    rw [smallRoom] at hi
    rw [bufferAt_small, bufferAt_large] at h
    omega
  · have hi := hz' rfl
    rw [smallRoom] at hi
    rw [bufferAt_small, bufferAt_large] at h
    omega
  · rw [bufferAt_large, bufferAt_large] at h
    exact ⟨rfl, by omega⟩

theorem bufferAt_inSlab {slab : Nat} {z : Size} {i : Nat} (h : i < z.max) :
    InSlab slab (bufferAt slab z i) := by
  have hs : slabSize = 14464000000 := by decide
  have hin (p : Nat) (h1 : slab ≤ p) (h2 : p + 40 ≤ slab + 14464000000) : InSlab slab p := by
    rw [InSlab, hs]
    exact ⟨h1, h2⟩
  cases z with
  | small =>
    have h : i < 40000000 := h
    exact hin (slab + 256 * i) (by omega) (by omega)
  | large =>
    have h : i < 1000000 := h
    apply hin
    · rw [bufferAt_large]
      omega
    · rw [bufferAt_large]
      omega

theorem InSlab.ne_null {slab p : Nat} (hs : 0 < slab) (h : InSlab slab p) : p ≠ null := by
  have hp : slab ≤ p := h.1
  show p ≠ 0
  omega

theorem InSlab.ne_emptyPtr {slab p : Nat} (hs : slab + slabSize < 2 ^ 64)
    (h : InSlab slab p) : p ≠ emptyPtr := by
  have hp : p + 40 ≤ slab + slabSize := h.2
  show p ≠ 2 ^ 64 - 1
  omega

/-- The size class of a request. -/
def Size.of (sz : Nat) : Size := if Size.small.bytes < sz then .large else .small

namespace Slab

section
variable {κ : Type}

/-- The pools are where `init_pools` put them, whatever has been carved from them. -/
def Placed (slab : Ptr) (s : Slab κ) : Prop :=
  ∀ z, (s.pools z).buf = (initPools slab z).buf ∧ (s.pools z).allocMax = z.bytes ∧
    (s.pools z).indexMax = z.max

/-- The address is that of a buffer taken from a pool before. -/
def Carved (slab : Ptr) (s : Slab κ) (p : Ptr) : Prop :=
  ∃ z, ∃ i, i < (s.pools z).index ∧ p = bufferAt slab z i

def grow (s : Slab κ) (z : Size) : Slab κ :=
  let pool := s.pools z
  { s with pools := Function.update s.pools z { pool with index := pool.index + 1 } }

theorem grow_pools_self (s : Slab κ) (z : Size) :
    (s.grow z).pools z = { s.pools z with index := (s.pools z).index + 1 } :=
  Function.update_self _ _ _

theorem grow_pools_of_ne (s : Slab κ) {y z : Size} (h : y ≠ z) :
    (s.grow z).pools y = s.pools y :=
  Function.update_of_ne h _ _

theorem lt_grow (s : Slab κ) {y : Size} {i : Nat} (z : Size) (h : i < (s.pools y).index) :
    i < ((s.grow z).pools y).index := by
  by_cases e : y = z
  · subst y
    rw [grow_pools_self]
    exact Nat.lt_succ_of_lt h
  · rwa [grow_pools_of_ne s e]

theorem lt_grow_self (s : Slab κ) (z : Size) :
    (s.pools z).index < ((s.grow z).pools z).index := by
  rw [grow_pools_self]
  exact Nat.lt_succ_self _

theorem grow_room {s : Slab κ} {z : Size} (h : (s.pools .small).index ≤ smallRoom)
    (hz : z = .small → (s.pools .small).index < smallRoom) :
    ((s.grow z).pools .small).index ≤ smallRoom := by
  by_cases e : Size.small = z
  · rw [← e, grow_pools_self]
    exact hz e.symm
  · rw [grow_pools_of_ne s e]
    exact h

def Grown (s : Slab κ) (k : κ) (z : Size) (p : Ptr) (s' : Slab κ) : Prop :=
  (s.cache k z).free = null ∧ (s.pools z).index < (s.pools z).indexMax ∧
    p = (s.pools z).buf + (s.pools z).allocMax * (s.pools z).index ∧ s' = s.grow z

/-- `ISLARGE` tells the classes apart below the large pool. -/
theorem sizeClass_bufferAt {slab : Nat} {s : Slab κ} (hp : s.Placed slab) {z : Size}
    {i : Nat} (hz : z = .small → i < smallRoom) : s.sizeClass (bufferAt slab z i) = z := by
  have hbuf : (s.pools .large).buf = bufferAt slab .large 0 := (hp .large).1
  rw [Slab.sizeClass]
  cases z with
  | small =>
    have hi : i < 6445568 := hz rfl
    have hsmall : ¬ s.isLarge (bufferAt slab .small i) := by
      rw [Slab.isLarge, hbuf]
      show ¬ @LE.le Nat _ (bufferAt slab .large 0) (bufferAt slab .small i)
      rw [bufferAt_large, bufferAt_small]
      omega
    rw [if_neg hsmall]
  | large =>
    have hlarge : s.isLarge (bufferAt slab .large i) := by
      rw [Slab.isLarge, hbuf]
      show @LE.le Nat _ (bufferAt slab .large 0) (bufferAt slab .large i)
      rw [bufferAt_large, bufferAt_large]
      omega
    rw [if_pos hlarge]

theorem Placed.grow {slab : Ptr} {s : Slab κ} (hp : s.Placed slab) (z : Size) :
    (s.grow z).Placed slab := by
  intro y
  by_cases e : y = z
  · subst y
    rw [grow_pools_self]
    exact hp z
  · rw [grow_pools_of_ne s e]
    exact hp y

theorem Carved.grow {slab : Ptr} {s : Slab κ} {p : Ptr} (hc : s.Carved slab p) (z : Size) :
    (s.grow z).Carved slab p := by
  obtain ⟨y, i, hi, e⟩ := hc
  exact ⟨y, i, lt_grow s z hi, e⟩

theorem Grown.bufferAt {slab : Ptr} {s s' : Slab κ} {k : κ} {z : Size} {p : Ptr}
    (h : s.Grown k z p s') (hp : s.Placed slab) :
    p = bufferAt slab z (s.pools z).index ∧ (s.pools z).index < z.max := by
  obtain ⟨_, hlt, rfl, _⟩ := h
  obtain ⟨hbuf, hmax, hindex⟩ := hp z
  exact ⟨by rw [hbuf, hmax, FastParse.bufferAt], hindex ▸ hlt⟩

/-- While the small pool stays below the large one, no buffer is handed out twice. -/
theorem Grown.fresh {slab : Ptr} {s s' : Slab κ} {k : κ} {y z : Size} {p : Ptr} {i : Nat}
    (h : s.Grown k z p s') (hp : s.Placed slab) (hroom : (s.pools .small).index ≤ smallRoom)
    (hz : z = .small → (s.pools .small).index < smallRoom) (hi : i < (s.pools y).index) :
    FastParse.bufferAt slab y i ≠ p := by
  intro e
  have hsmall : y = .small → i < smallRoom := by
    intro ey
    rw [ey] at hi
    exact Nat.lt_of_lt_of_le hi hroom
  have hown : z = .small → (s.pools z).index < smallRoom := by
    intro ez
    rw [ez]
    exact hz ez
  obtain ⟨rfl, rfl⟩ := bufferAt_inj hsmall hown (e.trans (h.bufferAt hp).1)
  exact Nat.lt_irrefl _ hi

variable [DecidableEq κ]

def Popped (slab : Ptr) (s : Slab κ) (k : κ) (z : Size) (p : Ptr) (s' : Slab κ) : Prop :=
  p = (s.cache k z).free ∧ InSlab slab p ∧
    s' = s.setLine k z ⟨s.link p, (s.cache k z).freeCount - 1⟩

/-- The line of the size class that was asked for comes first, then its pool. -/
theorem alloc_sized {slab : Ptr} {s s' : Slab κ} {k : κ} {sz : Nat} {p : Ptr}
    (h : s.alloc slab k sz = .ok (p, s')) :
    p ≠ null ∧ (s.Popped slab k (Size.of sz) p s' ∨ s.Grown k (Size.of sz) p s') := by
  have h : s.allocSize slab k (Size.of sz) = .ok (p, s') := by
    rw [alloc, assert_bind_ok] at h
    rw [Size.of]
    split_ifs at h ⊢
    · exact h.2
    · exact h.2
  generalize Size.of sz = z at h
  rw [allocSize, bind_eq_ok] at h
  obtain ⟨⟨p1, s1⟩, hline, h⟩ := h
  rw [bind_eq_ok] at h
  obtain ⟨⟨p2, s2⟩, hcarve, h⟩ := h
  rw [assert_bind_ok] at h
  obtain ⟨hp, h⟩ := h
  cases h
  refine ⟨hp, ?_⟩
  rw [allocCacheLine] at hline
  by_cases hfree : (s.cache k z).free = null
  · rw [if_neg (by simpa using hfree)] at hline
    cases hline
    rw [orCarve, if_pos rfl, carve, bind_eq_ok] at hcarve
    obtain ⟨⟨p3, pool⟩, hpool, hcarve⟩ := hcarve
    cases hcarve
    rw [poolAlloc, assert_bind_ok] at hpool
    obtain ⟨hlt, hpool⟩ := hpool
    cases hpool
    exact .inr ⟨hfree, hlt, rfl, rfl⟩
  · rw [if_pos hfree] at hline
    split_ifs at hline with hin
    cases hline
    rw [orCarve, if_neg hfree] at hcarve
    cases hcarve
    exact .inl ⟨rfl, hin, rfl⟩

theorem alloc_cases {slab : Ptr} {s s' : Slab κ} {k : κ} {sz : Nat} {p : Ptr}
    (h : s.alloc slab k sz = .ok (p, s')) :
    p ≠ null ∧ ∃ z, s.Popped slab k z p s' ∨ s.Grown k z p s' :=
  ⟨(alloc_sized h).1, Size.of sz, (alloc_sized h).2⟩

theorem Placed.alloc {slab : Ptr} {s s' : Slab κ} {k : κ} {sz : Nat} {p : Ptr}
    (hp : s.Placed slab) (h : s.alloc slab k sz = .ok (p, s')) : s'.Placed slab := by
  obtain ⟨_, z, hc⟩ := alloc_cases h
  cases hc with
  | inl hc =>
    rw [hc.2.2]
    exact hp
  | inr hc =>
    rw [hc.2.2.2]
    exact hp.grow z

theorem Carved.alloc {slab : Ptr} {s s' : Slab κ} {k : κ} {sz : Nat} {p q : Ptr}
    (hq : s.Carved slab q) (h : s.alloc slab k sz = .ok (p, s')) : s'.Carved slab q := by
  obtain ⟨_, z, hc⟩ := alloc_cases h
  cases hc with
  | inl hc =>
    rw [hc.2.2]
    exact hq
  | inr hc =>
    rw [hc.2.2.2]
    exact hq.grow z

/-- At most one more buffer has been taken from a pool, the one handed out. -/
theorem carved_of_alloc {slab : Ptr} {s s' : Slab κ} {k : κ} {sz : Nat} {p q : Ptr}
    (hp : s.Placed slab) (h : s.alloc slab k sz = .ok (p, s')) (hq : s'.Carved slab q) :
    s.Carved slab q ∨ q = p := by
  obtain ⟨_, z, hc⟩ := alloc_cases h
  cases hc with
  | inl hc =>
    rw [hc.2.2] at hq
    exact .inl hq
  | inr hc =>
    have haddr := (hc.bufferAt hp).1
    obtain ⟨y, i, hi, e⟩ := hq
    rw [hc.2.2.2] at hi
    by_cases hy : y = z
    · subst hy
      rw [grow_pools_self] at hi
      cases Nat.lt_succ_iff_lt_or_eq.mp hi with
      | inl hlt => exact .inl ⟨y, i, hlt, e⟩
      | inr hlast => exact .inr (e.trans (hlast ▸ haddr.symm))
    · rw [grow_pools_of_ne s hy] at hi
      exact .inl ⟨y, i, hi, e⟩

theorem alloc_heap {slab : Ptr} {s s' : Slab κ} {k : κ} {sz : Nat} {p : Ptr}
    (h : s.alloc slab k sz = .ok (p, s')) : s'.heap = s.heap := by
  obtain ⟨_, z, hc⟩ := alloc_cases h
  cases hc with
  | inl hc => rw [hc.2.2, setLine]
  | inr hc => rw [hc.2.2.2, grow]

/-- Whatever the cache lines hold, the buffer handed out lies in the slab. -/
theorem alloc_inSlab {slab : Ptr} {s s' : Slab κ} {k : κ} {sz : Nat} {p : Ptr}
    (hp : s.Placed slab) (h : s.alloc slab k sz = .ok (p, s')) : InSlab slab p := by
  obtain ⟨_, z, hc⟩ := alloc_cases h
  cases hc with
  | inl hc => exact hc.2.1
  | inr hc =>
    obtain ⟨e, hlt⟩ := hc.bufferAt hp
    rw [e]
    exact bufferAt_inSlab hlt

end

end Slab

end FastParse
