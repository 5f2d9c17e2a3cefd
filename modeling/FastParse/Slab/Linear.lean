import FastParse.Slab.Threads

namespace FastParse

open Framework

section
variable {κ : Type} [DecidableEq κ]

def ArenaOp.calledBy (k : κ) : ArenaOp κ → Bool
  | .alloc j _ => j = k
  | .dalloc j _ => j = k
  | .write .. => false

def callsBy (k : κ) (ops : List (ArenaOp κ)) : List (ArenaOp κ) := ops.filter (ArenaOp.calledBy k)

def AllocTurn.call : AllocTurn κ → List (ArenaOp κ)
  | .alloc k sz => [.alloc k sz]
  | .dalloc k p => [.dalloc k p]
  | .write .. => []
  | .go _ => []

def callsOf (k : κ) (turns : List (AllocTurn κ)) : List (ArenaOp κ) :=
  callsBy k (turns.flatMap AllocTurn.call)

theorem callsBy_append (k : κ) (ops ops' : List (ArenaOp κ)) :
    callsBy k (ops ++ ops') = callsBy k ops ++ callsBy k ops' := List.filter_append _ _

theorem callsOf_concat (k : κ) (turns : List (AllocTurn κ)) (turn : AllocTurn κ) :
    callsOf k (turns ++ [turn]) = callsOf k turns ++ callsBy k turn.call := by
  simp [callsOf, callsBy]

end

namespace AllocPlace

section
variable {κ : Type}

/-- The call that the thread is in, until it takes effect. -/
def pending (k : κ) : AllocPlace → List (ArenaOp κ)
  | rest => []
  | claim .. => []
  | test sz => [.alloc k sz]
  | take sz => [.alloc k sz]
  | follow sz _ => [.alloc k sz]
  | unlink sz _ _ => [.alloc k sz]
  | countDown sz _ => [.alloc k sz]
  | fetchAdd sz => [.alloc k sz]
  | tested _ p => [.dalloc k p]
  | link _ p => [.dalloc k p]
  | push _ p => [.dalloc k p]
  | pushFirst _ p => [.dalloc k p]
  | terminate _ p => [.dalloc k p]
  | countUp _ p => [.dalloc k p]

def reserved (slab : Ptr) : AllocPlace → List (Ptr × Size)
  | claim sz index => [(bufferAt slab (Size.of sz) index, Size.of sz)]
  | _ => []

/-- What the thread has made of its cache lines, which without its call would be those of `A`. -/
def line (A : Slab κ) (k : κ) (z : Size) : AllocPlace → CacheLine
  | countDown sz p =>
    if z = Size.of sz then ⟨A.link p, (A.cache k z).freeCount⟩ else A.cache k z
  | terminate y p => if z = y then ⟨p, (A.cache k z).freeCount⟩ else A.cache k z
  | countUp y p => if z = y then ⟨p, (A.cache k z).freeCount⟩ else A.cache k z
  | _ => A.cache k z

def buffer (A : Slab κ) (k : κ) (q : Ptr) : AllocPlace → Route
  | push z p => if q = p then { A.heap q with unique := (A.cache k z).free } else A.heap q
  | countUp z p => if q = p then { A.heap q with unique := (A.cache k z).free } else A.heap q
  | _ => A.heap q

def Knows (A : Slab κ) (k : κ) (held : List (Ptr × Size)) : AllocPlace → Prop
  | rest => True
  | test sz => sz ≤ Size.large.bytes
  | take sz => sz ≤ Size.large.bytes ∧ (A.cache k (Size.of sz)).free ≠ null
  | follow sz p => sz ≤ Size.large.bytes ∧ p = (A.cache k (Size.of sz)).free ∧ p ≠ null
  | unlink sz p q => sz ≤ Size.large.bytes ∧ p = (A.cache k (Size.of sz)).free ∧ p ≠ null ∧
      q = A.link p
  | countDown sz p => sz ≤ Size.large.bytes ∧ p = (A.cache k (Size.of sz)).free ∧ p ≠ null
  | fetchAdd sz => sz ≤ Size.large.bytes ∧ (A.cache k (Size.of sz)).free = null
  | claim sz index => index < (Size.of sz).max
  | tested z p => (p, z) ∈ held
  | link z p => (p, z) ∈ held
  | push z p => (p, z) ∈ held
  | pushFirst z p => (p, z) ∈ held ∧ (A.cache k z).free = null
  | terminate z p => (p, z) ∈ held ∧ (A.cache k z).free = null
  | countUp z p => (p, z) ∈ held

/-- Others change neither the lines of the thread nor what the first buffer of a line links to. -/
structure Frame (A A' : Slab κ) (k : κ) : Prop where
  cache : A'.cache k = A.cache k
  link : ∀ z, (A.cache k z).free ≠ null →
    A'.link (A.cache k z).free = A.link (A.cache k z).free

variable {A A' : Slab κ} {k : κ} {held : List (Ptr × Size)} {place : AllocPlace}

theorem Knows.congr (h : place.Knows A k held) (hframe : Frame A A' k) :
    place.Knows A' k held ∧ ∀ z, place.line A' k z = place.line A k z := by
  cases place with
  | unlink sz p q =>
    obtain ⟨hsz, rfl, hp, rfl⟩ := h
    refine ⟨?_, fun z => ?_⟩
    · simp only [Knows, hframe.cache, hframe.link _ hp]
      exact ⟨hsz, trivial, hp, trivial⟩
    · simp only [line, hframe.cache]
  | countDown sz p =>
    obtain ⟨hsz, rfl, hp⟩ := h
    refine ⟨?_, fun z => ?_⟩
    · simp only [Knows, hframe.cache]
      exact ⟨hsz, trivial, hp⟩
    · simp only [line, hframe.cache, hframe.link _ hp]
  | _ =>
    simp only [Knows, line, hframe.cache] at h ⊢
    exact ⟨h, fun _ => trivial⟩

end

end AllocPlace

namespace Arena

section
variable {κ : Type} [DecidableEq κ] {slab : Nat} {s t : Arena κ}

/-- What is asked of a call. -/
def Lawful (s : Arena κ) (op : ArenaOp κ) : Prop := s.Legal op ∧ s.BelowLarge op

theorem step_popped {k : κ} {sz : Nat} (hsz : sz ≤ Size.large.bytes)
    (hfree : (s.slab.cache k (Size.of sz)).free ≠ null)
    (hin : InSlab slab (s.slab.cache k (Size.of sz)).free) :
    s.step slab (.alloc k sz) =
      .ok ⟨s.slab.setLine k (Size.of sz) ⟨s.slab.link (s.slab.cache k (Size.of sz)).free,
          (s.slab.cache k (Size.of sz)).freeCount - 1⟩,
        ((s.slab.cache k (Size.of sz)).free, Size.of sz) :: s.live⟩ := by
  obtain ⟨t, ht⟩ := step_pops hsz hfree hin
  have hstep := ht
  rw [step, bind_eq_ok] at hstep
  obtain ⟨⟨p, s'⟩, ha, e⟩ := hstep
  cases e
  obtain ⟨rfl, _, rfl⟩ := (Slab.alloc_sized ha).2.resolve_right fun hgrow => hfree hgrow.1
  exact ht

theorem step_exhausted {k : κ} {sz : Nat} (hfree : (s.slab.cache k (Size.of sz)).free = null)
    (hfull : (s.slab.pools (Size.of sz)).indexMax ≤ (s.slab.pools (Size.of sz)).index) :
    ∃ e, s.step slab (.alloc k sz) = .error e := by
  cases hstep : s.step slab (.alloc k sz) with
  | error e => exact ⟨e, rfl⟩
  | ok t =>
    rw [step, bind_eq_ok] at hstep
    obtain ⟨⟨p, s'⟩, ha, _⟩ := hstep
    obtain ⟨hp, hc⟩ := Slab.alloc_sized ha
    cases hc with
    | inl hpop => exact absurd (hpop.1.trans hfree) hp
    | inr hgrow => exact absurd hgrow.2.1 (Nat.not_lt.mpr hfull)

theorem mem_erased {l : List (Ptr × Size)} (hl : (l.map Prod.fst).Nodup) {p : Ptr}
    {b : Ptr × Size} : b ∈ l.eraseP (fun c => c.1 = p) ↔ b ∈ l ∧ b.1 ≠ p := by
  induction l with
  | nil => simp
  | cons c l ih =>
    obtain ⟨hc, hl⟩ := List.nodup_cons.mp hl
    by_cases e : c.1 = p
    · rw [List.eraseP_cons_of_pos (by simpa using e)]
      have hout : b ∈ l → b.1 ≠ p := fun hb hp =>
        hc ((e.trans hp.symm) ▸ List.mem_map_of_mem hb)
      constructor
      · exact fun hb => ⟨List.mem_cons_of_mem c hb, hout hb⟩
      · rintro ⟨hb, hp⟩
        exact (List.mem_cons.mp hb).resolve_left fun hbc => hp (hbc ▸ e)
    · rw [List.eraseP_cons_of_neg (by simpa using e), List.mem_cons, ih hl, List.mem_cons]
      constructor
      · rintro (rfl | hb)
        · exact ⟨.inl rfl, e⟩
        · exact ⟨.inr hb.1, hb.2⟩
      · rintro ⟨rfl | hb, hp⟩
        · exact .inl rfl
        · exact .inr ⟨hb, hp⟩

end

end Arena

namespace AllocThreads

section
variable {κ : Type} [DecidableEq κ]

/-- The buffers of a thread, with the one it is about to be given. -/
def owned (slab : Ptr) (s : AllocThreads κ) (k : κ) : List (Ptr × Size) :=
  (s.place k).reserved slab ++ s.held k

/-- The threads' state against the arena of the calls that have taken effect. -/
structure Stands (slab : Ptr) (turns : List (AllocTurn κ)) (s : AllocThreads κ)
    (ops : List (ArenaOp κ)) (a : Arena κ) : Prop where
  kept : ∃ cells, Arena.Kept slab a cells
  pools : s.slab.pools = a.slab.pools
  line : ∀ k z, s.slab.cache k z = (s.place k).line a.slab k z
  knows : ∀ k, (s.place k).Knows a.slab k (s.held k)
  buffer : ∀ k, ∀ b ∈ s.held k, s.slab.heap b.1 = (s.place k).buffer a.slab k b.1
  others : ∀ q, (∀ k, ∀ b ∈ s.held k, b.1 ≠ q) → s.slab.heap q = a.slab.heap q
  live : ∀ b, b ∈ a.live ↔ ∃ k, b ∈ s.owned slab k
  apart : ∀ j k, j ≠ k → ∀ b ∈ s.owned slab j, ∀ c ∈ s.owned slab k, b.1 ≠ c.1
  calls : ∀ k, callsBy k ops ++ (s.place k).pending k = callsOf k turns

/-- The state after a step of thread `k`. -/
def moved (s : AllocThreads κ) (k : κ) (slab : Slab κ) (place : AllocPlace)
    (held : List (Ptr × Size)) : AllocThreads κ :=
  ⟨slab, Function.update s.place k place, Function.update s.held k held⟩

theorem goto_eq (s : AllocThreads κ) (slab : Slab κ) (k : κ) (place : AllocPlace) :
    { s with slab := slab }.goto k place = s.moved k slab place (s.held k) := by
  rw [goto, moved, Function.update_eq_self]

section
variable {slab : Nat} {turns : List (AllocTurn κ)} {s : AllocThreads κ}
  {ops : List (ArenaOp κ)} {a : Arena κ} {k : κ}

theorem moved_owned_self (C : Slab κ) (place : AllocPlace) (held : List (Ptr × Size)) :
    (s.moved k C place held).owned slab k = place.reserved slab ++ held := by
  simp [owned, moved]

theorem moved_owned_of_ne {j : κ} (hj : j ≠ k) (C : Slab κ) (place : AllocPlace)
    (held : List (Ptr × Size)) : (s.moved k C place held).owned slab j = s.owned slab j := by
  simp [owned, moved, hj]

theorem Stands.held_live (h : Stands slab turns s ops a) {b : Ptr × Size} (hb : b ∈ s.held k) :
    b ∈ a.live := (h.live b).mpr ⟨k, List.mem_append_right _ hb⟩

theorem Stands.live_split (h : Stands slab turns s ops a) (k : κ) (b : Ptr × Size) :
    b ∈ a.live ↔ b ∈ s.owned slab k ∨ ∃ j, j ≠ k ∧ b ∈ s.owned slab j := by
  rw [h.live b]
  constructor
  · rintro ⟨j, hb⟩
    by_cases hj : j = k
    · exact .inl (hj ▸ hb)
    · exact .inr ⟨j, hj, hb⟩
  · rintro (hb | ⟨j, _, hb⟩)
    · exact ⟨k, hb⟩
    · exact ⟨j, hb⟩

/-- The first buffer of a line is in nobody's hands. -/
theorem Stands.line_free (h : Stands slab turns s ops a) {j : κ} {z : Size}
    (hfree : (a.slab.cache j z).free ≠ null) :
    (∀ b ∈ a.live, b.1 ≠ (a.slab.cache j z).free) ∧ InSlab slab (a.slab.cache j z).free := by
  obtain ⟨cells, hkept⟩ := h.kept
  have hmem : (a.slab.cache j z).free ∈ cells (j, z) :=
    (hkept.lists.linked_iff (k := (j, z))).mp (Linked.here hfree)
  refine ⟨?_, ?_⟩
  · intro b hb e
    exact hkept.notFree b.1 (List.mem_map_of_mem hb) (j, z) (e ▸ hmem)
  · obtain ⟨i, _, hi, e⟩ := hkept.number (hkept.numberedCells (j, z) _ hmem)
    rw [e]
    exact bufferAt_inSlab hi

/-- A step of thread `k` that changes its own lines and buffers, while the calls that have taken
effect lead from `a` to `a'`. -/
theorem Stands.move (h : Stands slab turns s ops a) {turn : AllocTurn κ} {C : Slab κ}
    {place : AllocPlace} {held : List (Ptr × Size)} {ops' : List (ArenaOp κ)} {a' : Arena κ}
    (hkept : ∃ cells, Arena.Kept slab a' cells) (hpools : C.pools = a'.slab.pools)
    (hline : ∀ z, C.cache k z = place.line a'.slab k z) (hknows : place.Knows a'.slab k held)
    (hbuffer : ∀ b ∈ held, C.heap b.1 = place.buffer a'.slab k b.1)
    (hheap : ∀ q, (∀ b ∈ s.held k, b.1 ≠ q) →
      C.heap q = s.slab.heap q ∧ a'.slab.heap q = a.slab.heap q)
    (hgone : ∀ b ∈ s.held k, (∀ b' ∈ held, b'.1 ≠ b.1) → C.heap b.1 = a'.slab.heap b.1)
    (hcache : ∀ j, j ≠ k → C.cache j = s.slab.cache j ∧ a'.slab.cache j = a.slab.cache j)
    (hlive : ∀ b, b ∈ a'.live ↔ b ∈ place.reserved slab ++ held ∨
      ∃ j, j ≠ k ∧ b ∈ s.owned slab j)
    (hapart : ∀ b ∈ place.reserved slab ++ held, ∀ j, j ≠ k → ∀ c ∈ s.owned slab j, b.1 ≠ c.1)
    (hcalls : callsBy k ops' ++ place.pending k = callsOf k (turns ++ [turn]))
    (hrest : ∀ j, j ≠ k → callsBy j ops' = callsBy j ops ∧
      callsOf j (turns ++ [turn]) = callsOf j turns) :
    Stands slab (turns ++ [turn]) (s.moved k C place held) ops' a' := by
  have hplace (j : κ) (hj : j ≠ k) : (s.moved k C place held).place j = s.place j :=
    Function.update_of_ne hj _ _
  have hheld (j : κ) (hj : j ≠ k) : (s.moved k C place held).held j = s.held j :=
    Function.update_of_ne hj _ _
  have hself : (s.moved k C place held).place k = place ∧ (s.moved k C place held).held k = held :=
    ⟨Function.update_self _ _ _, Function.update_self _ _ _⟩
  have hframe (j : κ) (hj : j ≠ k) : AllocPlace.Frame a.slab a'.slab j := by
    refine ⟨(hcache j hj).2, ?_⟩
    intro z hz
    have hout := (h.line_free hz).1
    exact congrArg Route.unique (hheap _ fun b hb => hout b (h.held_live hb)).2
  refine ⟨hkept, hpools, ?_, ?_, ?_, ?_, ?_, ?_, ?_⟩
  · intro j z
    by_cases hj : j = k
    · subst hj
      rw [hself.1]
      exact hline z
    · rw [hplace j hj, ((h.knows j).congr (hframe j hj)).2, ← h.line j z]
      exact congrFun (hcache j hj).1 z
  · intro j
    by_cases hj : j = k
    · subst hj
      rw [hself.1, hself.2]
      exact hknows
    · rw [hplace j hj, hheld j hj]
      exact ((h.knows j).congr (hframe j hj)).1
  · intro j b hb
    by_cases hj : j = k
    · subst hj
      rw [hself.2] at hb
      rw [hself.1]
      exact hbuffer b hb
    · rw [hheld j hj] at hb
      have hout : ∀ c ∈ s.held k, c.1 ≠ b.1 := fun c hc =>
        h.apart k j (Ne.symm hj) c (List.mem_append_right _ hc) b (List.mem_append_right _ hb)
      obtain ⟨hC, hA⟩ := hheap b.1 hout
      rw [hplace j hj]
      change C.heap b.1 = _
      rw [hC, h.buffer j b hb]
      cases s.place j <;> simp only [AllocPlace.buffer, (hcache j hj).2, hA]
  · intro q hq
    by_cases hk : ∀ b ∈ s.held k, b.1 ≠ q
    · obtain ⟨hC, hA⟩ := hheap q hk
      change C.heap q = _
      rw [hC, hA]
      apply h.others q
      intro j b hb
      by_cases hj : j = k
      · exact hk b (hj ▸ hb)
      · exact hq j b (by rwa [hheld j hj])
    · push Not at hk
      obtain ⟨b, hb, rfl⟩ := hk
      refine hgone b hb ?_
      intro c hc
      exact hq k c (by rwa [hself.2])
  · intro b
    rw [hlive b]
    constructor
    · rintro (hb | ⟨j, hj, hb⟩)
      · exact ⟨k, by rwa [moved_owned_self]⟩
      · exact ⟨j, by rwa [moved_owned_of_ne hj]⟩
    · rintro ⟨j, hb⟩
      by_cases hj : j = k
      · subst hj
        rw [moved_owned_self] at hb
        exact .inl hb
      · rw [moved_owned_of_ne hj] at hb
        exact .inr ⟨j, hj, hb⟩
  · intro i j hij b hb c hc
    by_cases hi : i = k
    · subst hi
      rw [moved_owned_self] at hb
      rw [moved_owned_of_ne hij.symm] at hc
      exact hapart b hb j hij.symm c hc
    · rw [moved_owned_of_ne hi] at hb
      by_cases hj : j = k
      · subst hj
        rw [moved_owned_self] at hc
        exact (hapart c hc i hi b hb).symm
      · rw [moved_owned_of_ne hj] at hc
        exact h.apart i j hij b hb c hc
  · intro j
    by_cases hj : j = k
    · subst hj
      rw [hself.1]
      exact hcalls
    · rw [hplace j hj, (hrest j hj).1, (hrest j hj).2]
      exact h.calls j

/-- A step that nobody notices: the calls that have taken effect stay the same. -/
theorem Stands.quiet (h : Stands slab turns s ops a) {turn : AllocTurn κ} {C : Slab κ}
    {place : AllocPlace} {held : List (Ptr × Size)} (hpools : C.pools = s.slab.pools)
    (hline : ∀ z, C.cache k z = place.line a.slab k z) (hknows : place.Knows a.slab k held)
    (hbuffer : ∀ b ∈ held, C.heap b.1 = place.buffer a.slab k b.1)
    (hheap : ∀ q, (∀ b ∈ s.held k, b.1 ≠ q) → C.heap q = s.slab.heap q)
    (hcache : ∀ j, j ≠ k → C.cache j = s.slab.cache j)
    (howned : place.reserved slab ++ held = s.owned slab k) (hsub : ∀ b ∈ s.held k, b ∈ held)
    (hpending : place.pending k = (s.place k).pending k ++ callsBy k turn.call)
    (hturn : ∀ j, j ≠ k → callsBy j turn.call = []) :
    Stands slab (turns ++ [turn]) (s.moved k C place held) ops a := by
  apply h.move h.kept (hpools.trans h.pools) hline hknows hbuffer
  · exact fun q hq => ⟨hheap q hq, rfl⟩
  · exact fun b hb hgone => absurd rfl (hgone b (hsub b hb))
  · exact fun j hj => ⟨hcache j hj, rfl⟩
  · rw [howned]
    exact h.live_split k
  · rw [howned]
    exact fun b hb j hj c hc => h.apart k j hj.symm b hb c hc
  · rw [hpending, callsOf_concat, ← List.append_assoc, h.calls k]
  · exact fun j hj => ⟨rfl, by rw [callsOf_concat, hturn j hj, List.append_nil]⟩

/-- The same for a step inside a call that leaves the hands of the thread as they are. -/
theorem Stands.inCall (h : Stands slab turns s ops a) {old place : AllocPlace}
    (hp : s.place k = old) {C : Slab κ} (hpools : C.pools = s.slab.pools)
    (hline : ∀ z, C.cache k z = place.line a.slab k z)
    (hknows : place.Knows a.slab k (s.held k))
    (hbuffer : ∀ b ∈ s.held k, C.heap b.1 = place.buffer a.slab k b.1)
    (hheap : ∀ q, (∀ b ∈ s.held k, b.1 ≠ q) → C.heap q = s.slab.heap q)
    (hcache : ∀ j, j ≠ k → C.cache j = s.slab.cache j)
    (hreserved : place.reserved slab = old.reserved slab)
    (hpending : place.pending k = old.pending k) :
    Stands slab (turns ++ [.go k]) ({ s with slab := C }.goto k place) ops a := by
  rw [goto_eq]
  exact h.quiet hpools hline hknows hbuffer hheap hcache (by rw [hreserved, owned, hp])
    (fun _ hb => hb) (by rw [hpending, hp]; simp [AllocTurn.call, callsBy])
    (fun _ _ => rfl)

theorem Stands.goOn (h : Stands slab turns s ops a) {old place : AllocPlace}
    (hp : s.place k = old) (hknows : place.Knows a.slab k (s.held k))
    (hline : ∀ z, old.line a.slab k z = place.line a.slab k z)
    (hbuffer : ∀ q, old.buffer a.slab k q = place.buffer a.slab k q)
    (hreserved : place.reserved slab = old.reserved slab)
    (hpending : place.pending k = old.pending k) :
    Stands slab (turns ++ [.go k]) (s.goto k place) ops a := by
  subst hp
  exact h.inCall rfl (C := s.slab) rfl (fun z => (h.line k z).trans (hline z)) hknows
    (fun b hb => (h.buffer k b hb).trans (hbuffer b.1)) (fun _ _ => rfl) (fun _ _ => rfl) hreserved
    hpending

end

end

end AllocThreads

end FastParse
