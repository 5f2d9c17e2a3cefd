import FastParse.Framework.Serial
import FastParse.Slab.Peaks

namespace FastParse

open Framework

/-- Where a thread stands in `alloc` or `dalloc`, between two accesses to memory. -/
inductive AllocPlace where
  /-- outside of both -/
  | rest
  /-- `if (cl->free)` of `alloc_cache_line` -/
  | test (sz : Nat)
  /-- `p = cl->free` -/
  | take (sz : Nat)
  /-- the load of `* cl->free` -/
  | follow (sz : Nat) (p : Ptr)
  /-- the store to `cl->free` -/
  | unlink (sz : Nat) (p q : Ptr)
  /-- `cl->free_count--` -/
  | countDown (sz : Nat) (p : Ptr)
  /-- `atomic_fetch_add` of `pool_alloc` -/
  | fetchAdd (sz : Nat)
  /-- the assertion on the index and the address -/
  | claim (sz index : Nat)
  /-- `if (cl->free)` of `dalloc_cache_line` -/
  | tested (z : Size) (p : Ptr)
  /-- `*(void**) p = cl->free` -/
  | link (z : Size) (p : Ptr)
  /-- `cl->free = p` after that -/
  | push (z : Size) (p : Ptr)
  /-- `cl->free = p` on an empty line -/
  | pushFirst (z : Size) (p : Ptr)
  /-- `*(void**) p = NULL` -/
  | terminate (z : Size) (p : Ptr)
  /-- `cl->free_count++` -/
  | countUp (z : Size) (p : Ptr)
  deriving DecidableEq

/-- The slab, where each thread stands, and the buffers it has been given and has not returned,
with the size class it asked for. -/
structure AllocThreads (κ : Type) where
  slab : Slab κ
  place : κ → AllocPlace
  held : κ → List (Ptr × Size)

/-- A thread calls `alloc` or `dalloc`, or writes to one of its buffers, or takes the next step of
its call. -/
inductive AllocTurn (κ : Type) where
  | alloc (k : κ) (sz : Nat)
  | dalloc (k : κ) (p : Ptr)
  | write (k : κ) (p : Ptr) (r : Route)
  | go (k : κ)

namespace AllocThreads

section
variable {κ : Type} [DecidableEq κ]

def init (slab : Ptr) (heap : Ptr → Route) : AllocThreads κ :=
  ⟨⟨heap, initPools slab, fun _ => initCache⟩, fun _ => .rest, fun _ => []⟩

def goto (s : AllocThreads κ) (k : κ) (place : AllocPlace) : AllocThreads κ :=
  { s with place := Function.update s.place k place }

/-- `alloc` returns `p`. -/
def handOut (s : AllocThreads κ) (k : κ) (sz : Nat) (p : Ptr) : AllocThreads κ :=
  { s.goto k .rest with held := Function.update s.held k ((p, Size.of sz) :: s.held k) }

/-- `dalloc` returns. -/
def takeBack (s : AllocThreads κ) (k : κ) (p : Ptr) : AllocThreads κ :=
  { s.goto k .rest with held := Function.update s.held k ((s.held k).filter fun b => b.1 ≠ p) }

/-- The next access of the thread. -/
def next (slab : Ptr) (s : AllocThreads κ) (k : κ) : Exec (AllocThreads κ) :=
  match s.place k with
  | .rest => return s
  | .test sz =>
    if (s.slab.cache k (Size.of sz)).free ≠ null then return s.goto k (.take sz)
    else return s.goto k (.fetchAdd sz)
  | .take sz => return s.goto k (.follow sz (s.slab.cache k (Size.of sz)).free)
  | .follow sz p =>
    let free := (s.slab.cache k (Size.of sz)).free
    if InSlab slab free then return s.goto k (.unlink sz p (s.slab.link free))
    else .error .segv
  | .unlink sz p q =>
    let cl := s.slab.cache k (Size.of sz)
    return { s with slab := s.slab.setLine k (Size.of sz) { cl with free := q } }.goto k
      (.countDown sz p)
  | .countDown sz p => do
    let cl := s.slab.cache k (Size.of sz)
    let slab := s.slab.setLine k (Size.of sz) { cl with freeCount := cl.freeCount - 1 }
    assert (p ≠ null)
    return { s with slab }.handOut k sz p
  | .fetchAdd sz =>
    let index := (s.slab.pools (Size.of sz)).index
    return { s with slab := s.slab.grow (Size.of sz) }.goto k (.claim sz index)
  | .claim sz index => do
    let pool := s.slab.pools (Size.of sz)
    assert (index < pool.indexMax)
    let p := pool.buf + pool.allocMax * index
    assert (p ≠ null)
    return s.handOut k sz p
  | .tested z p =>
    if (s.slab.cache k z).free ≠ null then return s.goto k (.link z p)
    else return s.goto k (.pushFirst z p)
  | .link z p =>
    let r := s.slab.heap p
    let slab := s.slab.setRoute p { r with unique := (s.slab.cache k z).free }
    return { s with slab }.goto k (.push z p)
  | .push z p =>
    let cl := s.slab.cache k z
    return { s with slab := s.slab.setLine k z { cl with free := p } }.goto k (.countUp z p)
  | .pushFirst z p =>
    let cl := s.slab.cache k z
    return { s with slab := s.slab.setLine k z { cl with free := p } }.goto k (.terminate z p)
  | .terminate z p =>
    let r := s.slab.heap p
    return { s with slab := s.slab.setRoute p { r with unique := null } }.goto k (.countUp z p)
  | .countUp z p =>
    let cl := s.slab.cache k z
    let slab := s.slab.setLine k z { cl with freeCount := cl.freeCount + 1 }
    return { s with slab }.takeBack k p

/-- `ISLARGE` reads what `init_pools` has left and nobody changes. -/
def step (slab : Ptr) (s : AllocThreads κ) : AllocTurn κ → Exec (AllocThreads κ)
  | .alloc k sz => do
    assert (Size.large.bytes ≥ sz)
    return s.goto k (.test sz)
  | .dalloc k p => return s.goto k (.tested (s.slab.sizeClass p) p)
  | .write _ p r => return { s with slab := s.slab.setRoute p r }
  | .go k => s.next slab k

/-- A thread calls nothing while it is in a call, and returns and writes only what it has been
given. Small buffers are carved below the large pool. -/
def Legal (s : AllocThreads κ) : AllocTurn κ → Prop
  | .alloc k _ => s.place k = .rest
  | .dalloc k p => s.place k = .rest ∧ p ∈ (s.held k).map Prod.fst
  | .write k p _ => s.place k = .rest ∧ p ∈ (s.held k).map Prod.fst
  | .go k =>
    match s.place k with
    | .fetchAdd sz => Size.of sz = .small → (s.slab.pools .small).index < smallRoom
    | _ => True

instance (s : AllocThreads κ) : ∀ turn, Decidable (s.Legal turn)
  | .alloc .. => inferInstanceAs (Decidable (_ = _))
  | .dalloc .. => inferInstanceAs (Decidable (_ ∧ _))
  | .write .. => inferInstanceAs (Decidable (_ ∧ _))
  | .go k => by
    unfold Legal
    dsimp only
    split <;> infer_instance

end

end AllocThreads

end FastParse
