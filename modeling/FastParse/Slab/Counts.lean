import FastParse.Framework.RefCount
import FastParse.Slab.Pools

namespace FastParse

open Framework

theorem toNat_pred {c : UInt16} (h : 0 < c.toNat) : (c - 1).toNat = c.toNat - 1 := by
  rw [UInt16.toNat_sub_of_le c 1 (UInt16.le_iff_toNat_le.mpr h)]
  rfl

section
variable {κ ι : Type}

/-- The slots `slot` point into the slab, the cache lines are the lists `cells`. A use count
is the number of slots that point to the buffer, but for `owed`, which is still to be
retained once. `cur` is a buffer in use that no slot may hold yet. -/
structure Counted (slab : Ptr) (s : Slab κ) (slot : ι → Ptr) (cells : κ × Size → List Ptr)
    (owed cur : Ptr) : Prop where
  placed : s.Placed slab
  room : (s.pools .small).index ≤ smallRoom
  lists : FreeLists s.link null (fun k => (s.cache k.1 k.2).free) cells
  idle : ∀ k, ∀ p ∈ cells k, (s.heap p).useCount = 0
  counts : ∀ p, p ≠ null →
    refs slot p = ((s.heap p).useCount.toNat + if p = owed then 1 else 0 : ℕ)
  carvedCells : ∀ k, ∀ p ∈ cells k, s.Carved slab p
  carvedSlots : ∀ i, slot i ≠ null → s.Carved slab (slot i)
  cur : cur ≠ null → s.Carved slab cur ∧ ∀ k, cur ∉ cells k

namespace Counted

variable {slab : Ptr} {s s' : Slab κ} {slot : ι → Ptr} {cells : κ × Size → List Ptr}
  {owed cur : Ptr}

theorem useCount_pos (h : Counted slab s slot cells null cur) {i : ι} (hi : slot i ≠ null) :
    0 < (s.heap (slot i)).useCount.toNat := by
  have hc := h.counts (slot i) hi
  rw [if_neg hi, Nat.add_zero] at hc
  have hne : refs slot (slot i) ≠ 0 := refs_ne_zero rfl
  rw [hc] at hne
  apply Nat.pos_of_ne_zero
  intro e
  simp [e] at hne

theorem slot_not_free (h : Counted slab s slot cells null cur) {i : ι} (hi : slot i ≠ null)
    (k : κ × Size) : slot i ∉ cells k := by
  intro hk
  have hpos := h.useCount_pos hi
  have hz := h.idle k _ hk
  simp [hz] at hpos

/-- How a buffer is taken: as the first one of its line, or fresh when the line is empty. -/
def Taken (slab : Ptr) (s : Slab κ) (cells cells' : κ × Size → List Ptr) (k : κ × Size) (p : Ptr)
    [DecidableEq κ] : Prop :=
  (∃ l, cells k = p :: l ∧ cells' = Function.update cells k l) ∨
    cells k = [] ∧ cells' = cells ∧ ¬ s.Carved slab p ∧ s.sizeClass p = k.2

/-- A buffer fresh from its pool has not been handed out before. -/
theorem grown [DecidableEq κ] (h : Counted slab s slot cells null null) {k : κ} {z : Size}
    {p : Ptr} (hp : p ≠ null) (hroom : (s.pools .small).index < smallRoom)
    (hgrow : s.Grown k z p s') :
    Taken slab s cells cells (k, z) p ∧ Counted slab s' slot cells null p ∧
      (s'.heap p).useCount = 0 := by
  obtain ⟨haddr, hlt⟩ := hgrow.bufferAt h.placed
  have hfresh : ¬ s.Carved slab p := by
    rintro ⟨y, i, hi, e⟩
    exact hgrow.fresh h.placed h.room (fun _ => hroom) hi e.symm
  have hclass : s.sizeClass p = z := by
    rw [haddr]
    apply Slab.sizeClass_bufferAt h.placed
    intro ez
    rw [ez]
    exact hroom
  have hempty : cells (k, z) = [] := by
    have hc := h.lists.chain (k, z)
    cases hl : cells (k, z) with
    | nil => rfl
    | cons q l =>
      rw [hl] at hc
      exact absurd (hc.1.symm.trans hgrow.1) hc.2.1
  have hcells : ∀ j, p ∉ cells j := fun j hj => hfresh (h.carvedCells j p hj)
  have hslots : refs slot p = 0 := by
    rw [refs_eq_zero]
    intro i e
    exact hfresh (e ▸ h.carvedSlots i (e ▸ hp))
  obtain ⟨_, hindex, _, rfl⟩ := hgrow
  refine ⟨.inr ⟨hempty, rfl, hfresh, hclass⟩, ?_, ?_⟩
  · refine ⟨?_, ?_, h.lists, h.idle, h.counts, ?_, ?_, ?_⟩
    · exact h.placed.grow z
    · exact Slab.grow_room h.room fun _ => hroom
    · intro j q hq
      exact (h.carvedCells j q hq).grow z
    · intro i hi
      exact (h.carvedSlots i hi).grow z
    · intro _
      exact ⟨⟨z, (s.pools z).index, s.lt_grow_self z, haddr⟩, hcells⟩
  · have hc := h.counts p hp
    rw [hslots, if_neg hp, Nat.add_zero] at hc
    have hz : (s.heap p).useCount.toNat = 0 := by exact_mod_cast hc.symm
    exact UInt16.toNat_inj.mp hz

/-- A buffer that is on no line may be written: the lines stay, and idle buffers idle. -/
theorem setRoute_lines (h : Counted slab s slot cells owed cur) {p : Ptr} {r : Route}
    (hfree : ∀ k, p ∉ cells k) :
    FreeLists (s.setRoute p r).link null (fun k => ((s.setRoute p r).cache k.1 k.2).free) cells ∧
      ∀ k, ∀ q ∈ cells k, ((s.setRoute p r).heap q).useCount = 0 := by
  have hother : ∀ k, ∀ q ∈ cells k, (s.setRoute p r).heap q = s.heap q := by
    intro k q hq
    have hne : q ≠ p := fun e => hfree k (e ▸ hq)
    exact Function.update_of_ne hne r s.heap
  constructor
  · apply h.lists.congr
    intro k q hq
    rw [Slab.link, hother k q hq, Slab.link]
  · intro k q hq
    rw [hother k q hq]
    exact h.idle k q hq

theorem setRoute (h : Counted slab s slot cells owed cur) {p : Ptr} {r : Route}
    (hfree : ∀ k, p ∉ cells k) (hr : r.useCount = (s.heap p).useCount) :
    Counted slab (s.setRoute p r) slot cells owed cur := by
  obtain ⟨hlists, hidle⟩ := h.setRoute_lines (r := r) hfree
  refine ⟨h.placed, h.room, hlists, hidle, ?_, h.carvedCells, h.carvedSlots, h.cur⟩
  intro q hq
  have huse : ((s.setRoute p r).heap q).useCount = (s.heap q).useCount := by
    by_cases e : q = p
    · simp [Slab.setRoute, e, hr]
    · simp [Slab.setRoute, e]
  rw [huse]
  exact h.counts q hq

/-- The current buffer is retained for the slot it has been stored in. -/
theorem retain (h : Counted slab s slot cells cur cur) (hcur : cur ≠ null)
    (hlt : (s.heap cur).useCount.toNat < 65535) :
    Counted slab (s.retain cur) slot cells null cur := by
  have hinc : ((s.heap cur).useCount + 1).toNat = (s.heap cur).useCount.toNat + 1 := by
    rw [UInt16.toNat_add]
    exact Nat.mod_eq_of_lt (Nat.succ_lt_succ hlt)
  obtain ⟨hlists, hidle⟩ := h.setRoute_lines (h.cur hcur).2
  refine ⟨h.placed, h.room, hlists, hidle, ?_, h.carvedCells, h.carvedSlots, h.cur⟩
  intro p hp
  have hc := h.counts p hp
  rw [if_neg hp, Nat.add_zero]
  by_cases e : p = cur
  · subst e
    rw [if_pos rfl] at hc
    simp only [Slab.retain, Slab.setRoute, Function.update_self, hinc]
    exact hc
  · rw [if_neg e, Nat.add_zero] at hc
    simp only [Slab.retain, Slab.setRoute, Function.update_of_ne e]
    exact hc

section
variable [DecidableEq κ]

theorem setLine_heads (s : Slab κ) (k : κ) (z : Size) (cl : CacheLine) :
    (fun j : κ × Size => ((s.setLine k z cl).cache j.1 j.2).free) =
      Function.update (fun j => (s.cache j.1 j.2).free) (k, z) cl.free := by
  funext j
  obtain ⟨j1, j2⟩ := j
  by_cases e1 : j1 = k
  · subst e1
    by_cases e2 : j2 = z
    · simp [Slab.setLine, e2]
    · simp [Slab.setLine, e2]
  · simp [Slab.setLine, e1]

/-- The line that is popped loses its first buffer, which no slot holds. -/
theorem popped (h : Counted slab s slot cells null null) {k : κ} {z : Size} {p : Ptr}
    (hp : p ≠ null) (hpop : s.Popped slab k z p s') :
    ∃ cells', Taken slab s cells cells' (k, z) p ∧ Counted slab s' slot cells' null p ∧
      (s'.heap p).useCount = 0 := by
  obtain ⟨rfl, _, rfl⟩ := hpop
  obtain ⟨l, hl, _⟩ := (h.lists.chain (k, z)).cases_ne hp
  have hmem : (s.cache k z).free ∈ cells (k, z) := by simp [hl]
  refine ⟨Function.update cells (k, z) l, .inl ⟨l, hl, rfl⟩, ?_, h.idle (k, z) _ hmem⟩
  refine ⟨h.placed, h.room, ?_, ?_, h.counts, ?_, h.carvedSlots, ?_⟩
  · rw [setLine_heads]
    exact h.lists.pop hl
  · intro j q hq
    exact h.idle j q (FreeLists.mem_of_mem_pop hl hq)
  · intro j q hq
    exact h.carvedCells j q (FreeLists.mem_of_mem_pop hl hq)
  · intro _
    refine ⟨h.carvedCells (k, z) _ hmem, ?_⟩
    exact h.lists.notMem_pop hl

theorem alloc (h : Counted slab s slot cells null null) {k : κ} {sz : Nat} {p : Ptr}
    (hroom : (s.pools .small).index < smallRoom) (ha : s.alloc slab k sz = .ok (p, s')) :
    ∃ cells', Taken slab s cells cells' (k, Size.of sz) p ∧ Counted slab s' slot cells' null p ∧
      (s'.heap p).useCount = 0 := by
  obtain ⟨hp, hc⟩ := Slab.alloc_sized ha
  cases hc with
  | inl hpop => exact h.popped hp hpop
  | inr hgrow => exact ⟨cells, h.grown hp hroom hgrow⟩

/-- An idle buffer linked to the first one of a line goes in front of it. -/
theorem pushed (h : Counted slab s slot cells owed cur) {k : κ} {z : Size} {p : Ptr}
    (n : UInt32) (hp : p ≠ null) (hcarved : s.Carved slab p) (hfree : ∀ j, p ∉ cells j)
    (huse : (s.heap p).useCount = 0) (hlink : s.link p = (s.cache k z).free) (hcur : p ≠ cur) :
    Counted slab (s.setLine k z ⟨p, n⟩) slot
      (Function.update cells (k, z) (p :: cells (k, z))) owed cur := by
  refine ⟨h.placed, h.room, ?_, ?_, h.counts, ?_, h.carvedSlots, ?_⟩
  · rw [setLine_heads]
    exact h.lists.push (k := (k, z)) hp hfree hlink
  · intro j q hq
    cases FreeLists.mem_push hq with
    | inl e => exact e.1 ▸ huse
    | inr hq => exact h.idle j q hq
  · intro j q hq
    cases FreeLists.mem_push hq with
    | inl e => exact e.1 ▸ hcarved
    | inr hq => exact h.carvedCells j q hq
  · intro hne
    obtain ⟨hc, hn⟩ := h.cur hne
    refine ⟨hc, ?_⟩
    intro j hj
    cases FreeLists.mem_push hj with
    | inl e => exact hcur e.1.symm
    | inr hj => exact hn j hj

def onLine (cells : κ × Size → List Ptr) (k : κ × Size) (p : Ptr) : κ × Size → List Ptr :=
  Function.update cells k (p :: cells k)

/-- A buffer whose count has come down to zero goes back to a line. -/
theorem dalloc (h : Counted slab s slot cells owed cur) (k : κ) {p : Ptr} (hp : p ≠ null)
    (hcarved : s.Carved slab p) (hfree : ∀ j, p ∉ cells j) (huse : (s.heap p).useCount = 0)
    (hcur : p ≠ cur) :
    Counted slab (s.dalloc k p) slot (onLine cells (k, s.sizeClass p) p) owed cur := by
  rw [Slab.dalloc_eq, Slab.dallocCacheLine_eq]
  generalize s.sizeClass p = z
  have hwritten := h.setRoute (r := { s.heap p with unique := (s.cache k z).free }) hfree rfl
  apply hwritten.pushed _ hp hcarved hfree ?_ ?_ hcur
  · simp only [Slab.setRoute, Function.update_self]
    exact huse
  · simp only [Slab.link, Slab.setRoute, Function.update_self]

end

section
variable [DecidableEq ι]

theorem carved_update (h : Counted slab s slot cells owed cur) {i j : ι}
    (hj : Function.update slot i cur j ≠ null) :
    s.Carved slab (Function.update slot i cur j) := by
  by_cases e : j = i
  · subst e
    rw [Function.update_self] at hj ⊢
    exact (h.cur hj).1
  · rw [Function.update_of_ne e] at hj ⊢
    exact h.carvedSlots j hj

theorem fill (h : Counted slab s slot cells null cur) {i : ι} (hi : slot i = null) :
    Counted slab s (Function.update slot i cur) cells cur cur := by
  refine ⟨h.placed, h.room, h.lists, h.idle, ?_, h.carvedCells, fun _ => h.carved_update, h.cur⟩
  intro p hp
  have hc := h.counts p hp
  rw [if_neg hp, Nat.add_zero] at hc
  have hold : slot i ≠ p := fun e => hp (e ▸ hi)
  exact refs_update_gain slot i hold hc

/-- Storing the current buffer over another one, whose count goes down by one. -/
theorem decremented (h : Counted slab s slot cells null cur) {i : ι} (hi : slot i ≠ null) :
    Counted slab (s.setRoute (slot i) { s.heap (slot i) with
      useCount := (s.heap (slot i)).useCount - 1 }) (Function.update slot i cur) cells cur cur := by
  have hpos := h.useCount_pos hi
  have hdec := toNat_pred hpos
  obtain ⟨hlists, hidle⟩ := h.setRoute_lines (h.slot_not_free hi)
  refine ⟨h.placed, h.room, hlists, hidle, ?_, h.carvedCells, fun _ => h.carved_update, h.cur⟩
  intro p hp
  have hc := h.counts p hp
  rw [if_neg hp, Nat.add_zero] at hc
  by_cases ep : p = slot i
  · subst ep
    simp only [Slab.setRoute, Function.update_self, hdec]
    by_cases ec : slot i = cur
    · -- the slot gets what it held
      rw [← ec, Function.update_eq_self, hc, if_pos rfl, Nat.sub_add_cancel hpos]
    · rw [if_neg ec, Nat.add_zero]
      apply refs_update_old_eq slot i (Ne.symm ec)
      rw [hc, Nat.sub_add_cancel hpos]
  · simp only [Slab.setRoute, Function.update_of_ne ep]
    exact refs_update_gain slot i (Ne.symm ep) hc

end

section
variable [DecidableEq κ] [DecidableEq ι]

/-- The last reference to a buffer puts it on the line of its size class. -/
def releaseCells (s : Slab κ) (cells : κ × Size → List Ptr) (k : κ) (p : Ptr) :
    κ × Size → List Ptr :=
  if (s.heap p).useCount = 1 then onLine cells (k, s.sizeClass p) p else cells

/-- Storing the current buffer over another one, which is released. The count must not come
down to zero when both are the same buffer. -/
theorem release (h : Counted slab s slot cells null cur) (k : κ) {i : ι} (hi : slot i ≠ null)
    (hok : ¬ (slot i = cur ∧ (s.heap cur).useCount = 1)) :
    Counted slab (s.release k (slot i)) (Function.update slot i cur)
      (releaseCells s cells k (slot i)) cur cur := by
  have hd := h.decremented hi
  have hone : 0 = (s.heap (slot i)).useCount - 1 ↔ (s.heap (slot i)).useCount = 1 := by
    constructor
    · intro hz
      have hz := congrArg (· + 1) hz
      simpa using hz.symm
    · intro e
      rw [e]
      rfl
  simp only [Slab.release, hone, releaseCells]
  split_ifs with hz
  · apply hd.dalloc k hi (h.carvedSlots i hi) (h.slot_not_free hi)
    · simp [Slab.setRoute, hz]
    · intro e
      exact hok ⟨e, e ▸ hz⟩
  · exact hd

end

end Counted

end

end FastParse
