import FastParse.Framework.LinkedStack
import FastParse.Slab.Pools
import Mathlib.Data.List.Nodup
import Mathlib.Data.List.Perm.Subperm

namespace FastParse

open Framework

/-- Disjoint buffers in the slab, each with room for a link. -/
structure Buffers (slab : Ptr) (buffer : Ptr → Prop) (size : Ptr → Nat) : Prop where
  inSlab : ∀ p, buffer p → InSlab slab p
  link : ∀ p, buffer p → 8 ≤ size p
  apart : ∀ p q : Nat, buffer p → buffer q → p ≠ q → p + size p ≤ q ∨ q + size q ≤ p

/-- The calls on one cache line, and what the users of the buffers store. -/
inductive LineOp where
  | alloc
  | dalloc (p : Ptr)
  | write (p : Ptr) (r : Route)

/-- The buffers that have been freed and not been handed out since, the latest first. -/
def freedStep (l : List Ptr) : LineOp → List Ptr
  | .alloc => l.tail
  | .dalloc p => p :: l
  | .write .. => l

section
variable {slab : Nat} {buffer : Ptr → Prop} {size : Ptr → Nat} {l : List Nat}

theorem buffers_of_pool (slab : Nat) (z : Size) :
    Buffers slab (fun p => ∃ i < z.max, p = bufferAt slab z i) fun _ => z.bytes := by
  refine ⟨?_, ?_, ?_⟩
  · rintro p ⟨i, hi, rfl⟩
    exact bufferAt_inSlab hi
  · intro _ _
    cases z <;> decide
  · rintro p q ⟨i, _, rfl⟩ ⟨j, _, rfl⟩ hne
    have hij : i ≠ j := fun e => hne (by rw [e])
    cases z with
    | small =>
      rw [bufferAt_small, bufferAt_small]
      change slab + 256 * i + 256 ≤ slab + 256 * j ∨ slab + 256 * j + 256 ≤ slab + 256 * i
      omega
    | large =>
      rw [bufferAt_large, bufferAt_large]
      change slab + 1650065408 + 4224 * i + 4224 ≤ slab + 1650065408 + 4224 * j ∨
        slab + 1650065408 + 4224 * j + 4224 ≤ slab + 1650065408 + 4224 * i
      omega

/-- The links of different buffers are different words of the slab, so a `uint32_t` can count
them. -/
theorem Buffers.length_lt (hb : Buffers slab buffer size) (hl : ∀ p ∈ l, buffer p)
    (hnd : l.Nodup) : l.length < 2 ^ 32 := by
  have hsize : slabSize = 14464000000 := by decide
  have hwords : (l.map fun p => (p - slab) / 8).Nodup := by
    apply hnd.map_on
    intro p hp q hq e
    by_contra hne
    have hpin : slab ≤ p := (hb.inSlab p (hl p hp)).1
    have hqin : slab ≤ q := (hb.inSlab q (hl q hq)).1
    have hplink := hb.link p (hl p hp)
    have hqlink := hb.link q (hl q hq)
    have hapart := hb.apart p q (hl p hp) (hl q hq) hne
    omega
  have hrange : (l.map fun p => (p - slab) / 8) ⊆ List.range 1808000000 := by
    intro w hw
    obtain ⟨p, hp, rfl⟩ := List.mem_map.mp hw
    have hin : slab ≤ p ∧ p + 40 ≤ slab + slabSize := hb.inSlab p (hl p hp)
    rw [hsize] at hin
    rw [List.mem_range]
    omega
  have hle := (hwords.subperm hrange).length_le
  rw [List.length_map, List.length_range] at hle
  omega

end

namespace Slab

section
variable {κ : Type}

theorem link_setRoute (s : Slab κ) (p : Ptr) (r : Route) :
    (s.setRoute p r).link = Function.update s.link p r.unique := by
  funext q
  by_cases e : q = p
  · simp [link, setRoute, e]
  · simp [link, setRoute, e]

/-- A buffer that is freed or written is not met when the links are followed from `free`. -/
def OffLine (buffer : Ptr → Prop) (k : κ) (z : Size) (s : Slab κ) : LineOp → Prop
  | .alloc => True
  | .dalloc p => buffer p ∧ ¬ Linked s.link null (s.cache k z).free p
  | .write p _ => buffer p ∧ ¬ Linked s.link null (s.cache k z).free p

/-- A line that is a stack of buffers, with their number in `free_count`. -/
structure Stacked (buffer : Ptr → Prop) (s : Slab κ) (k : κ) (z : Size) (l : List Ptr) : Prop where
  stack : LinkedStack s.link null (s.cache k z).free l
  buffers : ∀ p ∈ l, buffer p
  count : (s.cache k z).freeCount.toNat = l.length

/-- What the users store elsewhere does not reach the line. -/
theorem Stacked.write {buffer : Ptr → Prop} {s : Slab κ} {k : κ} {z : Size} {l : List Ptr}
    (h : Stacked buffer s k z l) {p : Ptr} (hfresh : p ∉ l) (r : Route) :
    Stacked buffer (s.setRoute p r) k z l := by
  refine ⟨?_, h.buffers, h.count⟩
  rw [link_setRoute]
  exact h.stack.write hfresh r.unique

end

section
variable {κ : Type} [DecidableEq κ]

theorem setLine_self (s : Slab κ) (k : κ) (z : Size) (cl : CacheLine) :
    (s.setLine k z cl).cache k z = cl := by
  simp [setLine]

def lineStep (slab : Ptr) (k : κ) (z : Size) (s : Slab κ) : LineOp → Exec (Slab κ)
  | .alloc => do
    let (_, s) ← s.allocCacheLine slab k z
    return s
  | .dalloc p => return s.dallocCacheLine k z p
  | .write p r => return s.setRoute p r

/-- From `free` the `next` pointers run through exactly the buffers of the list and end in
`NULL`; `free_count` is their number. The next allocation returns the first of them, and `NULL`
exactly when `free_count` is zero. -/
structure LineIs (slab : Ptr) (s : Slab κ) (k : κ) (z : Size) (l : List Ptr) : Prop where
  chain : Chain s.link null (s.cache k z).free l
  nodup : l.Nodup
  count : (s.cache k z).freeCount.toNat = l.length
  alloc : ∃ p t, s.allocCacheLine slab k z = .ok (p, t) ∧ p = l.headD null ∧
    (p = null ↔ (s.cache k z).freeCount = 0)

variable {slab : Nat} {buffer : Ptr → Prop} {size : Ptr → Nat} {s : Slab κ} {k : κ} {z : Size}
  {l : List Ptr}

namespace Stacked

/-- The buffer on top is handed out; an empty line stays as it is. -/
theorem alloc (h : Stacked buffer s k z l) (hb : Buffers slab buffer size) :
    ∃ t, s.allocCacheLine slab k z = .ok (l.headD null, t) ∧ Stacked buffer t k z l.tail := by
  cases l with
  | nil =>
    have hfree : (s.cache k z).free = null := h.stack.top_eq_null_iff.mpr rfl
    refine ⟨s, ?_, h⟩
    rw [allocCacheLine, if_neg (not_not.mpr hfree)]
    rfl
  | cons p l =>
    have hfree : (s.cache k z).free = p := h.stack.top_eq_headD
    have hne : p ≠ null := h.stack.chain.ne_null List.mem_cons_self
    have hin : InSlab slab p := hb.inSlab p (h.buffers p List.mem_cons_self)
    refine ⟨s.setLine k z ⟨s.link p, (s.cache k z).freeCount - 1⟩, ?_, ?_, ?_, ?_⟩
    · rw [allocCacheLine, hfree, if_pos hne, if_pos hin]
      rfl
    · rw [setLine_self]
      have hpop := h.stack.pop
      rwa [hfree] at hpop
    · intro q hq
      exact h.buffers q (List.mem_cons_of_mem p hq)
    · rw [setLine_self]
      have hcount := h.count
      have hone : 1 ≤ (s.cache k z).freeCount := by
        rw [UInt32.le_iff_toNat_le, hcount]
        exact Nat.succ_le_succ (Nat.zero_le _)
      rw [UInt32.toNat_sub_of_le _ _ hone, hcount]
      rfl

theorem dalloc (h : Stacked buffer s k z l) (hb : Buffers slab buffer size) (hslab : 0 < slab)
    {p : Ptr} (hp : buffer p) (hfresh : p ∉ l) :
    Stacked buffer (s.dallocCacheLine k z p) k z (p :: l) := by
  have hbuffers : ∀ q ∈ p :: l, buffer q := by
    intro q hq
    cases List.mem_cons.mp hq with
    | inl e => exact e ▸ hp
    | inr hq => exact h.buffers q hq
  have hstack := (h.stack.write hfresh (s.cache k z).free).push ((hb.inSlab p hp).ne_null hslab)
    hfresh (Function.update_self p _ s.link)
  have hlt := hb.length_lt hbuffers hstack.nodup
  rw [dallocCacheLine_eq]
  refine ⟨?_, hbuffers, ?_⟩
  · rw [setLine_self]
    have hlink := link_setRoute s p { s.heap p with unique := (s.cache k z).free }
    rw [← hlink] at hstack
    exact hstack
  · rw [setLine_self, UInt32.toNat_add, h.count]
    exact Nat.mod_eq_of_lt hlt

theorem step (h : Stacked buffer s k z l) (hb : Buffers slab buffer size) (hslab : 0 < slab)
    {op : LineOp} {ops : List LineOp}
    (hops : StepsOk (lineStep slab k z) (OffLine buffer k z) s (op :: ops)) :
    ∃ t, s.lineStep slab k z op = .ok t ∧ Stacked buffer t k z (freedStep l op) ∧
      StepsOk (lineStep slab k z) (OffLine buffer k z) t ops := by
  have hop := hops.1
  cases op with
  | alloc =>
    obtain ⟨t, ht, hrest⟩ := h.alloc hb
    have hst : s.lineStep slab k z .alloc = .ok t := by
      rw [lineStep, ht]
      rfl
    exact ⟨t, hst, hrest, (stepsOk_cons hops hst).2⟩
  | dalloc p =>
    rw [OffLine, h.stack.chain.linked_iff] at hop
    exact ⟨_, rfl, h.dalloc hb hslab hop.1 hop.2, hops.2⟩
  | write p r =>
    rw [OffLine, h.stack.chain.linked_iff] at hop
    exact ⟨_, rfl, h.write hop.2 r, hops.2⟩

theorem run (h : Stacked buffer s k z l) (hb : Buffers slab buffer size) (hslab : 0 < slab)
    {ops : List LineOp} (hops : StepsOk (lineStep slab k z) (OffLine buffer k z) s ops) :
    ∃ t, ops.foldlM (lineStep slab k z) s = .ok t ∧
      Stacked buffer t k z (ops.foldl freedStep l) := by
  obtain ⟨t, ht, hend, _⟩ := @run_simulates _ _ _ _ (lineStep slab k z) freedStep
    (fun ops s l => Stacked buffer s k z l ∧
      StepsOk (lineStep slab k z) (OffLine buffer k z) s ops)
    (fun op ops s l hs => hs.1.step hb hslab hs.2) ops s l ⟨h, hops⟩
  exact ⟨t, ht, hend⟩

theorem lineIs (h : Stacked buffer s k z l) (hb : Buffers slab buffer size) :
    s.LineIs slab k z l := by
  obtain ⟨t, ht, _⟩ := h.alloc hb
  refine ⟨h.stack.chain, h.stack.nodup, h.count, _, t, ht, rfl, ?_⟩
  rw [← h.stack.top_eq_headD, h.stack.top_eq_null_iff, ← List.length_eq_zero_iff, ← h.count]
  exact UInt32.toNat_inj (b := 0)

end Stacked

/-- After each call of a run on a line that starts empty, in which no buffer on the line is freed
or written, the line is the stack of the buffers that were freed and not handed out again. -/
theorem line_is_stack (hslab : 0 < slab) (hb : Buffers slab buffer size)
    (hempty : s.cache k z = ⟨null, 0⟩) (ops : List LineOp)
    (hops : StepsOk (lineStep slab k z) (OffLine buffer k z) s ops) :
    ∀ pre, pre <+: ops →
      ∃ t, pre.foldlM (lineStep slab k z) s = .ok t ∧
        t.LineIs slab k z (pre.foldl freedStep []) := by
  intro pre hpre
  obtain ⟨post, rfl⟩ := hpre
  have hstart : Stacked buffer s k z [] := by
    refine ⟨?_, by simp, ?_⟩
    · rw [hempty]
      exact LinkedStack.empty _ _
    · rw [hempty]
      rfl
  obtain ⟨t, ht, hstack⟩ := hstart.run hb hslab (stepsOk_append hops).1
  exact ⟨t, ht, hstack.lineIs hb⟩

end

def leftover : Route := ⟨7, 1, 0, ⟨0, 0, 0, 0, 0, 0, 0, 0⟩, fun _ => 0⟩

/-- The first two small buffers are freed, and the second one is taken and used; then the line is
emptied. -/
def twoFreed : List LineOp :=
  [.dalloc (2 ^ 46), .dalloc (2 ^ 46 + 256), .alloc, .write (2 ^ 46 + 256) leftover, .alloc, .alloc]

theorem line_is_stack_two :
    ∃ t, twoFreed.foldlM (lineStep (2 ^ 46) () .small)
        ⟨fun _ => leftover, initPools (2 ^ 46), fun _ => initCache⟩ = .ok t ∧
      t.LineIs (2 ^ 46) () .small (twoFreed.foldl freedStep []) := by
  have hfirst : ∃ i < Size.small.max, (2 ^ 46 : Nat) = bufferAt (2 ^ 46) .small i :=
    ⟨0, by decide, rfl⟩
  have hsecond : ∃ i < Size.small.max, (2 ^ 46 + 256 : Nat) = bufferAt (2 ^ 46) .small i :=
    ⟨1, by decide, rfl⟩
  refine line_is_stack (by decide) (buffers_of_pool (2 ^ 46) .small) rfl twoFreed ?_ twoFreed
    (List.prefix_refl _)
  refine ⟨⟨hfirst, ?_⟩, ⟨hsecond, ?_⟩, trivial, ⟨hsecond, ?_⟩, trivial, trivial, trivial⟩
  · intro h
    have hmem := (Chain.linked_iff (l := []) rfl).mp h
    simp at hmem
  · intro h
    exact absurd ((Chain.linked_iff (l := [2 ^ 46]) ⟨rfl, by decide, rfl⟩).mp h) (by decide)
  · intro h
    exact absurd ((Chain.linked_iff (l := [2 ^ 46]) ⟨rfl, by decide, rfl⟩).mp h) (by decide)

end Slab

end FastParse
