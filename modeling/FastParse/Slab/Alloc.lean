import FastParse.Framework.FreeLists
import FastParse.Locrib.Entry

namespace FastParse

open Framework

/-- The two size classes, the fields `small` and `large` of `struct pools` and `struct cache`. -/
inductive Size where
  | small
  | large
  deriving DecidableEq, Repr

/-- `LARGE` and `SMALL` -/
def Size.bytes : Size → Nat
  | .small => 256
  | .large => 4096 + 128

/-- `LARGE_MAX` and `SMALL_MAX` -/
def Size.max : Size → Nat
  | .small => 40000000
  | .large => 1000000

def slabSize : Nat := Size.small.bytes * Size.small.max + Size.large.bytes * Size.large.max

def sizeofRoute : Nat := 40

/-- `struct route` with the path attribute bytes behind it. While a buffer is on a cache
line its first eight bytes, here `unique`, are the link to the next one. -/
structure Route where
  unique : Nat
  useCount : UInt16
  updateLength : UInt16
  tiebreak : Tiebreak
  attributes : Mem

structure BufPool where
  buf : Ptr
  index : Nat
  indexMax : Nat
  allocMax : Nat

structure CacheLine where
  free : Ptr
  freeCount : UInt32

abbrev Cache := Size → CacheLine

/-- The buffers by address, the pools, and the caches of any number of owners. -/
structure Slab (κ : Type) where
  heap : Ptr → Route
  pools : Size → BufPool
  cache : κ → Cache

/-- A pointer through which a route header of the slab is accessed. -/
def InSlab (slab p : Ptr) : Prop := slab ≤ p ∧ p + sizeofRoute ≤ slab + slabSize

instance (slab p : Ptr) : Decidable (InSlab slab p) := inferInstanceAs (Decidable (_ ∧ _))

/-- The new pool and where the next one starts: `index_max * alloc_max` is a product of an
`int32_t` and a `uint32_t`. -/
def initPool (slab : Ptr) (allocMax indexMax : Nat) : BufPool × Ptr :=
  (⟨slab, 0, indexMax, allocMax⟩, slab + indexMax * allocMax % 2 ^ 32)

def initPools (slab : Ptr) : Size → BufPool :=
  let (small, slab) := initPool slab Size.small.bytes Size.small.max
  let (large, _) := initPool slab Size.large.bytes Size.large.max
  fun
  | .small => small
  | .large => large

def reinitPool (pool : BufPool) : BufPool := { pool with index := 0 }

def initCache : Cache := fun _ => ⟨null, 0⟩

def poolAlloc (pool : BufPool) : Exec (Ptr × BufPool) := do
  assert (pool.index < pool.indexMax)
  return (pool.buf + pool.allocMax * pool.index, { pool with index := pool.index + 1 })

section
variable {κ : Type} [DecidableEq κ]

namespace Slab

/-- `ISLARGE` -/
def isLarge (s : Slab κ) (p : Ptr) : Prop := (s.pools .large).buf ≤ p

instance (s : Slab κ) (p : Ptr) : Decidable (s.isLarge p) := Nat.decLe _ _

def link (s : Slab κ) (p : Ptr) : Ptr := (s.heap p).unique

def setRoute (s : Slab κ) (p : Ptr) (r : Route) : Slab κ :=
  { s with heap := Function.update s.heap p r }

def setLine (s : Slab κ) (k : κ) (z : Size) (cl : CacheLine) : Slab κ :=
  { s with cache := Function.update s.cache k (Function.update (s.cache k) z cl) }

/-- A non-null `free` is dereferenced for its link. -/
def allocCacheLine (slab : Ptr) (s : Slab κ) (k : κ) (z : Size) : Exec (Ptr × Slab κ) :=
  let cl := s.cache k z
  if cl.free ≠ null then
    if InSlab slab cl.free then
      return (cl.free, s.setLine k z ⟨s.link cl.free, cl.freeCount - 1⟩)
    else .error .segv
  else return (null, s)

def dallocCacheLine (s : Slab κ) (k : κ) (z : Size) (p : Ptr) : Slab κ :=
  let cl := s.cache k z
  let r := s.heap p
  if cl.free ≠ null then
    (s.setRoute p { r with unique := cl.free }).setLine k z ⟨p, cl.freeCount + 1⟩
  else
    (s.setRoute p { r with unique := null }).setLine k z ⟨p, cl.freeCount + 1⟩

def dalloc (s : Slab κ) (k : κ) (p : Ptr) : Slab κ :=
  if s.isLarge p then s.dallocCacheLine k .large p else s.dallocCacheLine k .small p

/-- Both branches link the buffer to what was first before. -/
theorem dallocCacheLine_eq (s : Slab κ) (k : κ) (z : Size) (p : Ptr) :
    s.dallocCacheLine k z p =
      (s.setRoute p { s.heap p with unique := (s.cache k z).free }).setLine k z
        ⟨p, (s.cache k z).freeCount + 1⟩ := by
  rw [dallocCacheLine]
  by_cases h : (s.cache k z).free = null
  · rw [if_neg (by simpa using h), h]
  · rw [if_pos h]

def sizeClass (s : Slab κ) (p : Ptr) : Size := if s.isLarge p then .large else .small

theorem dalloc_eq (s : Slab κ) (k : κ) (p : Ptr) :
    s.dalloc k p = s.dallocCacheLine k (s.sizeClass p) p := by
  rw [dalloc, sizeClass]
  split_ifs <;> rfl

/-- `use_count--`, and `dalloc` when that makes it zero. -/
def release (s : Slab κ) (k : κ) (p : Ptr) : Slab κ :=
  let r := s.heap p
  let useCount := r.useCount - 1
  let s := s.setRoute p { r with useCount }
  if 0 = useCount then s.dalloc k p else s

/-- `use_count++` -/
def retain (s : Slab κ) (p : Ptr) : Slab κ :=
  let r := s.heap p
  s.setRoute p { r with useCount := r.useCount + 1 }

/-- `unique` links the free buffers; whatever does not read it is the same after `dalloc`. -/
theorem dalloc_view {τ : Type} {f : Route → τ} (hf : ∀ r u, f { r with unique := u } = f r)
    (s : Slab κ) (k : κ) (p q : Ptr) : f ((s.dalloc k p).heap q) = f (s.heap q) := by
  rw [dalloc_eq, dallocCacheLine_eq]
  by_cases e : q = p
  · simp [setLine, setRoute, e, hf]
  · simp [setLine, setRoute, e]

theorem release_view {τ : Type} {f : Route → τ} (hf : ∀ r u, f { r with unique := u } = f r)
    (s : Slab κ) (k : κ) (p q : Ptr) :
    f ((s.release k p).heap q) =
      if q = p then f { s.heap p with useCount := (s.heap p).useCount - 1 } else f (s.heap q) := by
  have hset : f ((s.setRoute p { s.heap p with useCount := (s.heap p).useCount - 1 }).heap q) =
      if q = p then f { s.heap p with useCount := (s.heap p).useCount - 1 } else f (s.heap q) := by
    by_cases e : q = p
    · simp [setRoute, e]
    · simp [setRoute, e]
  by_cases hz : 0 = (s.heap p).useCount - 1
  · simp only [release, if_pos hz, dalloc_view hf]
    exact hset
  · simp only [release, if_neg hz]
    exact hset

/-- `pool_alloc` on the pool of a size class. -/
def carve (s : Slab κ) (z : Size) : Exec (Ptr × Slab κ) := do
  let (p, pool) ← poolAlloc (s.pools z)
  return (p, { s with pools := Function.update s.pools z pool })

/-- `if (NULL==p) p = pool_alloc(…)` -/
def orCarve (s : Slab κ) (z : Size) (p : Ptr) : Exec (Ptr × Slab κ) :=
  if p = null then s.carve z else .ok (p, s)

/-- `alloc_small` and `alloc_large`: the cache line first, then the pool. -/
def allocSize (slab : Ptr) (s : Slab κ) (k : κ) (z : Size) : Exec (Ptr × Slab κ) := do
  let (p, s) ← s.allocCacheLine slab k z
  let (p, s) ← s.orCarve z p
  assert (p ≠ null)
  return (p, s)

def alloc (slab : Ptr) (s : Slab κ) (k : κ) (sz : Nat) : Exec (Ptr × Slab κ) := do
  assert (Size.large.bytes ≥ sz)
  if Size.small.bytes < sz then s.allocSize slab k .large else s.allocSize slab k .small

end Slab

end

end FastParse
