import FastParse.Slab.Linear

namespace FastParse

open Framework

namespace AllocThreads

section
variable {κ : Type} [DecidableEq κ] {slab : Nat} {turns : List (AllocTurn κ)}
  {s t : AllocThreads κ} {ops : List (ArenaOp κ)} {a : Arena κ} {k : κ} {sz : Nat} {z : Size}
  {p : Ptr}

/-- A thread has taken an index that its pool does not have. -/
def Failing (s : AllocThreads κ) : Prop :=
  ∃ k sz index, s.place k = .claim sz index ∧ (s.slab.pools (Size.of sz)).indexMax ≤ index

/-- Of each thread they are the first calls it has made, in its own order. -/
def CallsMade (turns : List (AllocTurn κ)) (ops : List (ArenaOp κ)) : Prop :=
  ∀ k, callsBy k ops <+: callsOf k turns

theorem CallsMade.grows (h : CallsMade turns ops) (turn : AllocTurn κ) :
    CallsMade (turns ++ [turn]) ops := by
  intro k
  rw [callsOf_concat]
  exact (h k).trans (List.prefix_append _ _)

/-- The calls that have taken effect go on from `a`, or one of them stops. -/
def Follows (slab : Ptr) (turns : List (AllocTurn κ)) (t : AllocThreads κ)
    (ops : List (ArenaOp κ)) (a : Arena κ) : Prop :=
  (∃ zs b, StepsOk (Arena.step slab) Arena.Lawful a zs ∧ zs.foldlM (Arena.step slab) a = .ok b ∧
    Stands slab turns t (ops ++ zs) b) ∨
  (∃ zs, CallsStop (Arena.step slab) Arena.Lawful (fun zs => CallsMade turns (ops ++ zs)) a zs) ∧
    t.Failing

theorem Stands.follows (h : Stands slab turns t ops a) : Follows slab turns t ops a :=
  .inl ⟨[], a, trivial, rfl, by rwa [List.append_nil]⟩

theorem follows_call {op : ArenaOp κ} {b : Arena κ} (hop : a.Lawful op)
    (hst : a.step slab op = .ok b) (h : Stands slab turns t (ops ++ [op]) b) :
    Follows slab turns t ops a := by
  refine .inl ⟨[op], b, ⟨hop, ?_⟩, ?_, h⟩
  · rw [hst]
    trivial
  · rw [List.foldlM_cons, hst]
    rfl

theorem call_stops {op : ArenaOp κ} {e : Halt} (hop : a.Lawful op)
    (hst : a.step slab op = .error e) (hmade : CallsMade turns (ops ++ [op])) :
    CallsStop (Arena.step slab) Arena.Lawful (fun zs => CallsMade turns (ops ++ zs)) a [op] := by
  refine ⟨⟨hop, ?_⟩, ⟨e, ?_⟩, hmade⟩
  · rw [hst]
    trivial
  · rw [List.foldlM_cons, hst]
    rfl

theorem Stands.calls_now (h : Stands slab turns s ops a) (op : ArenaOp κ)
    (hpending : (s.place k).pending k = [op]) (hby : op.calledBy k = true)
    (hother : ∀ j, j ≠ k → op.calledBy j = false) :
    callsBy k (ops ++ [op]) = callsOf k (turns ++ [.go k]) ∧
      ∀ j, j ≠ k → callsBy j (ops ++ [op]) = callsBy j ops ∧
        callsOf j (turns ++ [.go k]) = callsOf j turns := by
  have hgo (j : κ) : callsOf j (turns ++ [.go k]) = callsOf j turns := by
    rw [callsOf_concat]
    exact List.append_nil _
  refine ⟨?_, ?_⟩
  · rw [hgo, ← h.calls k, hpending, callsBy_append]
    simp [callsBy, hby]
  · intro j hj
    refine ⟨?_, hgo j⟩
    rw [callsBy_append]
    simp [callsBy, hother j hj]

theorem Stands.made (h : Stands slab turns s ops a) : CallsMade turns ops :=
  fun k => ⟨(s.place k).pending k, h.calls k⟩

theorem Stands.made_now (h : Stands slab turns s ops a) (op : ArenaOp κ)
    (hpending : (s.place k).pending k = [op]) (hby : op.calledBy k = true)
    (hother : ∀ j, j ≠ k → op.calledBy j = false) :
    CallsMade (turns ++ [.go k]) (ops ++ [op]) := by
  obtain ⟨hself, hothers⟩ := h.calls_now op hpending hby hother
  intro j
  by_cases e : j = k
  · rw [e, hself]
  · rw [(hothers j e).1, (hothers j e).2]
    exact h.made j

theorem Stands.made_call (h : Stands slab turns s ops a) (hp : s.place k = .rest) (sz : Nat) :
    CallsMade (turns ++ [.alloc k sz]) (ops ++ [.alloc k sz]) := by
  intro j
  rw [callsBy_append, callsOf_concat]
  by_cases e : j = k
  · have hcalls := h.calls k
    rw [hp] at hcalls
    rw [e, ← hcalls, AllocPlace.pending, List.append_nil]
    exact List.prefix_rfl
  · have hnone : callsBy j [.alloc k sz] = [] := by
      simp [callsBy, ArenaOp.calledBy, Ne.symm e]
    rw [hnone, List.append_nil]
    exact (h.made j).trans (List.prefix_append _ _)

/-- A buffer that is handed out now is in nobody's hands. -/
theorem Stands.hand_out (h : Stands slab turns s ops a) {b : Ptr × Size} {A : Slab κ}
    (hkept : ∃ cells, Arena.Kept slab ⟨A, b :: a.live⟩ cells)
    (hreserved : (s.place k).reserved slab = []) :
    (∀ c, c ∈ b :: a.live ↔ c ∈ b :: s.held k ∨ ∃ j, j ≠ k ∧ c ∈ s.owned slab j) ∧
      (∀ c ∈ b :: s.held k, ∀ j, j ≠ k → ∀ d ∈ s.owned slab j, c.1 ≠ d.1) ∧
      ∀ c ∈ a.live, c.1 ≠ b.1 := by
  obtain ⟨cells, hkept⟩ := hkept
  have hnew : ∀ c ∈ a.live, c.1 ≠ b.1 := by
    intro c hc e
    exact (List.nodup_cons.mp hkept.nodup).1 (e ▸ List.mem_map_of_mem hc)
  have howned : s.owned slab k = s.held k := by rw [owned, hreserved, List.nil_append]
  refine ⟨?_, ?_, hnew⟩
  · intro c
    rw [List.mem_cons, List.mem_cons, or_assoc, h.live_split k c, howned]
  · intro c hc j hj d hd
    cases List.mem_cons.mp hc with
    | inl e =>
      rw [e]
      exact (hnew d ((h.live d).mpr ⟨j, hd⟩)).symm
    | inr hc => exact h.apart k j hj.symm c (howned.symm ▸ hc) d hd

section
variable {old : AllocPlace}

theorem Stands.knows_at (h : Stands slab turns s ops a) (hp : s.place k = old) :
    old.Knows a.slab k (s.held k) := hp ▸ h.knows k

theorem Stands.line_at (h : Stands slab turns s ops a) (hp : s.place k = old) (z : Size) :
    s.slab.cache k z = old.line a.slab k z := hp ▸ h.line k z

theorem Stands.buffer_at (h : Stands slab turns s ops a) (hp : s.place k = old)
    {b : Ptr × Size} (hb : b ∈ s.held k) : s.slab.heap b.1 = old.buffer a.slab k b.1 :=
  hp ▸ h.buffer k b hb

end

theorem Stands.test (h : Stands slab turns s ops a) (hp : s.place k = .test sz)
    (hst : s.next slab k = .ok t) : Stands slab (turns ++ [.go k]) t ops a := by
  have hknows : sz ≤ Size.large.bytes := h.knows_at hp
  have hline : s.slab.cache k (Size.of sz) = a.slab.cache k (Size.of sz) := h.line_at hp _
  simp only [next, hp, hline] at hst
  split_ifs at hst with hfree
  · cases hst
    exact h.goOn hp ⟨hknows, hfree⟩ (fun _ => rfl) (fun _ => rfl) rfl rfl
  · cases hst
    exact h.goOn hp ⟨hknows, not_not.mp hfree⟩ (fun _ => rfl) (fun _ => rfl) rfl rfl

theorem Stands.take (h : Stands slab turns s ops a) (hp : s.place k = .take sz)
    (hst : s.next slab k = .ok t) : Stands slab (turns ++ [.go k]) t ops a := by
  obtain ⟨hsz, hfree⟩ := h.knows_at hp
  have hline : s.slab.cache k (Size.of sz) = a.slab.cache k (Size.of sz) := h.line_at hp _
  simp only [next, hp, hline] at hst
  cases hst
  exact h.goOn hp ⟨hsz, rfl, hfree⟩ (fun _ => rfl) (fun _ => rfl) rfl rfl

/-- The first buffer of the line is in the slab, and nobody writes to it. -/
theorem Stands.follow (h : Stands slab turns s ops a) (hp : s.place k = .follow sz p) :
    ∃ t, s.next slab k = .ok t ∧ Stands slab (turns ++ [.go k]) t ops a := by
  obtain ⟨hsz, hfirst, hne⟩ := h.knows_at hp
  have hline : s.slab.cache k (Size.of sz) = a.slab.cache k (Size.of sz) := h.line_at hp _
  obtain ⟨hout, hin⟩ := h.line_free (hfirst ▸ hne)
  have hlink : s.slab.link p = a.slab.link p := by
    rw [hfirst]
    exact congrArg Route.unique (h.others _ fun _ b hb => hout b (h.held_live hb))
  refine ⟨s.goto k (.unlink sz p (s.slab.link p)), ?_, ?_⟩
  · simp only [next, hp, hline, if_pos hin, hfirst]
    rfl
  · exact h.goOn hp ⟨hsz, hfirst, hne, hlink⟩ (fun _ => rfl) (fun _ => rfl) rfl rfl

theorem setLine_cache_of_ne {A : Slab κ} {j : κ} (hj : j ≠ k) (cl : CacheLine) :
    (A.setLine k z cl).cache j = A.cache j := by
  rw [Slab.setLine]
  exact Function.update_of_ne hj _ _

theorem Stands.unlink {q : Ptr} (h : Stands slab turns s ops a)
    (hp : s.place k = .unlink sz p q) (hst : s.next slab k = .ok t) :
    Stands slab (turns ++ [.go k]) t ops a := by
  obtain ⟨hsz, hfirst, hne, hq⟩ := h.knows_at hp
  have hline (y : Size) : s.slab.cache k y = a.slab.cache k y := h.line_at hp y
  simp only [next, hp] at hst
  cases hst
  apply h.inCall hp
  · rfl
  · intro y
    rw [Arena.setLine_cache, AllocPlace.line]
    by_cases e : y = Size.of sz
    · rw [if_pos (by rw [e]), if_pos e, hline, hq, e]
    · rw [if_neg (by simpa using e), if_neg e, hline]
  · exact ⟨hsz, hfirst, hne⟩
  · exact fun b hb => h.buffer_at hp hb
  · exact fun _ _ => rfl
  · exact fun j hj => setLine_cache_of_ne hj _
  · rfl
  · rfl

/-- A call of `alloc` takes effect: its buffer comes from `a'`. -/
theorem Stands.allocated (h : Stands slab turns s ops a) {old place : AllocPlace}
    (hp : s.place k = old) {C A : Slab κ} {held : List (Ptr × Size)} (hslab : 0 < slab)
    (hbelow : a.BelowLarge (.alloc k sz))
    (hst : a.step slab (.alloc k sz) = .ok ⟨A, (p, Size.of sz) :: a.live⟩)
    (hpools : C.pools = A.pools) (hline : ∀ z, C.cache k z = place.line A k z)
    (hknows : place.Knows A k held) (hheap : C.heap = s.slab.heap ∧ A.heap = a.slab.heap)
    (hbuffer : (∀ q, old.buffer a.slab k q = a.slab.heap q) ∧
      ∀ q, place.buffer A k q = A.heap q)
    (hcache : ∀ j, j ≠ k → C.cache j = s.slab.cache j ∧ A.cache j = a.slab.cache j)
    (hheld : place.reserved slab ++ held = (p, Size.of sz) :: s.held k)
    (hsub : ∀ b ∈ s.held k, b ∈ held) (hreserved : old.reserved slab = [])
    (hpending : old.pending k = [.alloc k sz] ∧ place.pending k = []) :
    Follows slab (turns ++ [.go k]) (s.moved k C place held) ops a := by
  have hlawful : a.Lawful (.alloc k sz) := ⟨trivial, hbelow⟩
  obtain ⟨cells, hcells⟩ := h.kept
  have hkept := (Arena.step_sound hslab hcells hlawful.1 hst).2 hbelow
  obtain ⟨hlive, hapart, hnew⟩ := h.hand_out (k := k) hkept (by rw [hp, hreserved])
  obtain ⟨hself, hothers⟩ := h.calls_now (.alloc k sz) (hp ▸ hpending.1)
    (by simp [ArenaOp.calledBy]) (fun j hj => by simp [ArenaOp.calledBy, hj.symm])
  apply follows_call hlawful hst
  apply h.move hkept hpools hline hknows
  · intro b hb
    rw [hbuffer.2, hheap.1, hheap.2]
    by_cases hold : ∃ c ∈ s.held k, c.1 = b.1
    · obtain ⟨c, hc, e⟩ := hold
      rw [← e, h.buffer_at hp hc, hbuffer.1]
    · apply h.others
      intro j c hc e
      by_cases hj : j = k
      · subst hj
        exact hold ⟨c, hc, e⟩
      · have hmem : b ∈ (p, Size.of sz) :: s.held k := hheld ▸ List.mem_append_right _ hb
        exact hapart b hmem j hj c (List.mem_append_right _ hc) e.symm
  · intro q _
    rw [hheap.1, hheap.2]
    exact ⟨rfl, rfl⟩
  · exact fun b hb hgone => absurd rfl (hgone b (hsub b hb))
  · exact hcache
  · rw [hheld]
    exact hlive
  · rw [hheld]
    exact hapart
  · rw [hpending.2, List.append_nil, hself]
  · exact hothers

theorem Stands.countDown (h : Stands slab turns s ops a) (hslab : 0 < slab)
    (hp : s.place k = .countDown sz p) :
    ∃ t, s.next slab k = .ok t ∧ Follows slab (turns ++ [.go k]) t ops a := by
  obtain ⟨hsz, hfirst, hne⟩ := h.knows_at hp
  have hline := h.line_at hp
  have hin := (h.line_free (hfirst ▸ hne)).2
  have hst := Arena.step_popped hsz (hfirst ▸ hne) hin
  rw [← hfirst] at hst
  refine ⟨s.moved k (s.slab.setLine k (Size.of sz) ⟨a.slab.link p,
    (a.slab.cache k (Size.of sz)).freeCount - 1⟩) .rest ((p, Size.of sz) :: s.held k), ?_, ?_⟩
  · have hown : s.slab.cache k (Size.of sz) =
        ⟨a.slab.link p, (a.slab.cache k (Size.of sz)).freeCount⟩ := by
      rw [hline, AllocPlace.line, if_pos rfl]
    simp only [next, hp, assert, if_pos hne, hown]
    rfl
  · apply h.allocated hp hslab _ hst
    · exact h.pools
    · intro y
      change (s.slab.setLine _ _ _).cache k y = (a.slab.setLine _ _ _).cache k y
      rw [Arena.setLine_cache, Arena.setLine_cache, hline, AllocPlace.line]
      by_cases e : y = Size.of sz
      · rw [if_pos (by rw [e]), if_pos (by rw [e])]
      · rw [if_neg (by simpa using e), if_neg e, if_neg (by simpa using e)]
    · trivial
    · exact ⟨rfl, rfl⟩
    · exact ⟨fun _ => rfl, fun _ => rfl⟩
    · exact fun j hj => ⟨setLine_cache_of_ne hj _, setLine_cache_of_ne hj _⟩
    · rfl
    · exact fun b hb => List.mem_cons_of_mem _ hb
    · rfl
    · exact ⟨rfl, rfl⟩
    · intro hsmall hfree
      rw [hsmall] at hfirst
      exact absurd (hfirst.trans hfree) hne

/-- The index is taken: the buffer is the thread's, or the pool has none left. -/
theorem Stands.fetchAdd (h : Stands slab turns s ops a) (hslab : 0 < slab)
    (hp : s.place k = .fetchAdd sz) (hlegal : s.Legal (.go k)) :
    ∃ t, s.next slab k = .ok t ∧ Follows slab (turns ++ [.go k]) t ops a := by
  obtain ⟨hsz, hfree⟩ := h.knows_at hp
  have hline (y : Size) : s.slab.cache k y = a.slab.cache k y := h.line_at hp y
  obtain ⟨cells, hkept⟩ := h.kept
  have hbelow : a.BelowLarge (.alloc k sz) := by
    intro hsmall _
    rw [← h.pools]
    simp only [Legal, hp] at hlegal
    exact hlegal hsmall
  have hgo : s.next slab k = .ok ({ s with slab := s.slab.grow (Size.of sz) }.goto k
      (.claim sz (s.slab.pools (Size.of sz)).index)) := by
    simp only [next, hp]
    rfl
  refine ⟨_, hgo, ?_⟩
  by_cases hlt : (s.slab.pools (Size.of sz)).index < (Size.of sz).max
  · have hst := Arena.step_carves hslab (Size.of sz) sz rfl hsz hkept.placed hfree
      (by rwa [← h.pools])
    rw [← h.pools] at hst
    rw [goto_eq]
    apply h.allocated hp hslab hbelow hst
    · simp only [Slab.grow, h.pools]
    · exact hline
    · exact hlt
    · exact ⟨rfl, rfl⟩
    · exact ⟨fun _ => rfl, fun _ => rfl⟩
    · exact fun _ _ => ⟨rfl, rfl⟩
    · rfl
    · exact fun _ hb => hb
    · rfl
    · exact ⟨rfl, rfl⟩
  · have hmax : (a.slab.pools (Size.of sz)).indexMax = (Size.of sz).max :=
      (hkept.placed (Size.of sz)).2.2
    have hfull : (a.slab.pools (Size.of sz)).indexMax ≤ (a.slab.pools (Size.of sz)).index := by
      rw [hmax, ← h.pools]
      exact Nat.le_of_not_lt hlt
    obtain ⟨e, hst⟩ := Arena.step_exhausted hfree hfull
    have hlawful : a.Lawful (.alloc k sz) := ⟨trivial, hbelow⟩
    have hmade := h.made_now (.alloc k sz) (by rw [hp]; rfl) (by simp [ArenaOp.calledBy])
      (fun j hj => by simp [ArenaOp.calledBy, hj.symm])
    refine .inr ⟨⟨_, call_stops hlawful hst hmade⟩, k, sz, _, Function.update_self _ _ _, ?_⟩
    change (((s.slab.grow (Size.of sz)).pools (Size.of sz))).indexMax ≤ _
    rw [Slab.grow_pools_self, h.pools]
    exact hfull

/-- The address of the buffer follows from its index. -/
theorem Stands.claim {index : Nat} (h : Stands slab turns s ops a) (hslab : 0 < slab)
    (hp : s.place k = .claim sz index) :
    ∃ t, s.next slab k = .ok t ∧ Stands slab (turns ++ [.go k]) t ops a := by
  have hlt : index < (Size.of sz).max := h.knows_at hp
  have hline (y : Size) : s.slab.cache k y = a.slab.cache k y := h.line_at hp y
  obtain ⟨cells, hkept⟩ := h.kept
  obtain ⟨hbuf, hmax, hindex⟩ := hkept.placed (Size.of sz)
  have haddr : (s.slab.pools (Size.of sz)).buf + (s.slab.pools (Size.of sz)).allocMax * index =
      bufferAt slab (Size.of sz) index := by
    rw [h.pools, hbuf, hmax, bufferAt]
  have hne : bufferAt slab (Size.of sz) index ≠ null := (bufferAt_inSlab hlt).ne_null hslab
  have howned : s.owned slab k = (bufferAt slab (Size.of sz) index, Size.of sz) :: s.held k := by
    rw [owned, hp]
    rfl
  refine ⟨s.moved k s.slab .rest ((bufferAt slab (Size.of sz) index, Size.of sz) :: s.held k), ?_,
    ?_⟩
  · simp only [next, hp, haddr, assert, if_pos hne]
    rw [if_pos (by rw [h.pools, hindex]; exact hlt)]
    rfl
  · apply h.quiet
    · rfl
    · exact hline
    · trivial
    · intro b hb
      by_cases hold : ∃ c ∈ s.held k, c.1 = b.1
      · obtain ⟨c, hc, e⟩ := hold
        rw [← e]
        exact h.buffer_at hp hc
      · apply h.others
        intro j c hc e
        by_cases hj : j = k
        · subst hj
          exact hold ⟨c, hc, e⟩
        · exact h.apart k j (Ne.symm hj) b (howned ▸ hb) c (List.mem_append_right _ hc) e.symm
    · exact fun _ _ => rfl
    · exact fun _ _ => rfl
    · rw [howned]
      rfl
    · exact fun _ hb => List.mem_cons_of_mem _ hb
    · rw [hp]
      rfl
    · exact fun _ _ => rfl

theorem Stands.tested (h : Stands slab turns s ops a) (hp : s.place k = .tested z p)
    (hst : s.next slab k = .ok t) : Stands slab (turns ++ [.go k]) t ops a := by
  have hmem : (p, z) ∈ s.held k := h.knows_at hp
  have hline : s.slab.cache k z = a.slab.cache k z := h.line_at hp z
  simp only [next, hp, hline] at hst
  split_ifs at hst with hfree
  · cases hst
    exact h.goOn hp hmem (fun _ => rfl) (fun _ => rfl) rfl rfl
  · cases hst
    exact h.goOn hp ⟨hmem, not_not.mp hfree⟩ (fun _ => rfl) (fun _ => rfl) rfl rfl

omit [DecidableEq κ] in
theorem setRoute_self (A : Slab κ) (p : Ptr) (r : Route) : (A.setRoute p r).heap p = r :=
  Function.update_self _ _ _

omit [DecidableEq κ] in
theorem setRoute_of_ne {q : Ptr} (hq : q ≠ p) (A : Slab κ) (r : Route) :
    (A.setRoute p r).heap q = A.heap q := Function.update_of_ne hq _ _

theorem Stands.stored (h : Stands slab turns s ops a) {old place : AllocPlace} {q : Ptr}
    (hp : s.place k = old) (hmem : (p, z) ∈ s.held k) (hq : q = (a.slab.cache k z).free)
    (hline : ∀ y, old.line a.slab k y = place.line a.slab k y)
    (hknows : place.Knows a.slab k (s.held k)) (hold : ∀ x, old.buffer a.slab k x = a.slab.heap x)
    (hplace : ∀ x, place.buffer a.slab k x =
      if x = p then { a.slab.heap x with unique := (a.slab.cache k z).free } else a.slab.heap x)
    (hreserved : place.reserved slab = old.reserved slab)
    (hpending : place.pending k = old.pending k) :
    Stands slab (turns ++ [.go k])
      ({ s with slab := s.slab.setRoute p { s.slab.heap p with unique := q } }.goto k place) ops
      a := by
  apply h.inCall hp
  · rfl
  · exact fun y => (h.line_at hp y).trans (hline y)
  · exact hknows
  · intro b hb
    have hbefore := h.buffer_at hp hb
    rw [hold] at hbefore
    rw [hplace]
    by_cases e : b.1 = p
    · rw [if_pos e, ← hq, ← hbefore, e, setRoute_self]
    · rw [if_neg e, ← hbefore, setRoute_of_ne e]
  · exact fun x hx => setRoute_of_ne (hx _ hmem).symm _ _
  · exact fun _ _ => rfl
  · exact hreserved
  · exact hpending

theorem Stands.link (h : Stands slab turns s ops a) (hp : s.place k = .link z p)
    (hst : s.next slab k = .ok t) : Stands slab (turns ++ [.go k]) t ops a := by
  have hmem : (p, z) ∈ s.held k := h.knows_at hp
  have hline : s.slab.cache k z = a.slab.cache k z := h.line_at hp z
  simp only [next, hp, hline] at hst
  cases hst
  exact h.stored hp hmem rfl (fun _ => rfl) hmem (fun _ => rfl) (fun _ => rfl) rfl rfl

theorem Stands.terminate (h : Stands slab turns s ops a) (hp : s.place k = .terminate z p)
    (hst : s.next slab k = .ok t) : Stands slab (turns ++ [.go k]) t ops a := by
  obtain ⟨hmem, hfree⟩ := h.knows_at hp
  simp only [next, hp] at hst
  cases hst
  exact h.stored hp hmem hfree.symm (fun _ => rfl) hmem (fun _ => rfl) (fun _ => rfl) rfl rfl

theorem Stands.pushed (h : Stands slab turns s ops a) {old place : AllocPlace}
    (hp : s.place k = old) (hold : ∀ y, old.line a.slab k y = a.slab.cache k y)
    (hplace : ∀ y, place.line a.slab k y =
      if y = z then ⟨p, (a.slab.cache k y).freeCount⟩ else a.slab.cache k y)
    (hknows : place.Knows a.slab k (s.held k))
    (hbuffer : ∀ q, old.buffer a.slab k q = place.buffer a.slab k q)
    (hreserved : place.reserved slab = old.reserved slab)
    (hpending : place.pending k = old.pending k) :
    Stands slab (turns ++ [.go k])
      ({ s with slab := s.slab.setLine k z ⟨p, (s.slab.cache k z).freeCount⟩ }.goto k place) ops
      a := by
  have hline (y : Size) : s.slab.cache k y = a.slab.cache k y := (h.line_at hp y).trans (hold y)
  apply h.inCall hp
  · rfl
  · intro y
    rw [Arena.setLine_cache, hplace]
    by_cases e : y = z
    · rw [if_pos (by rw [e]), if_pos e, hline, e]
    · rw [if_neg (by simpa using e), if_neg e, hline]
  · exact hknows
  · exact fun b hb => (h.buffer_at hp hb).trans (hbuffer b.1)
  · exact fun _ _ => rfl
  · exact fun j hj => setLine_cache_of_ne hj _
  · exact hreserved
  · exact hpending

theorem Stands.push (h : Stands slab turns s ops a) (hp : s.place k = .push z p)
    (hst : s.next slab k = .ok t) : Stands slab (turns ++ [.go k]) t ops a := by
  have hmem : (p, z) ∈ s.held k := h.knows_at hp
  simp only [next, hp] at hst
  cases hst
  exact h.pushed hp (fun _ => rfl) (fun _ => rfl) hmem (fun _ => rfl) rfl rfl

theorem Stands.pushFirst (h : Stands slab turns s ops a) (hp : s.place k = .pushFirst z p)
    (hst : s.next slab k = .ok t) : Stands slab (turns ++ [.go k]) t ops a := by
  have hknows := h.knows_at hp
  simp only [next, hp] at hst
  cases hst
  exact h.pushed hp (fun _ => rfl) (fun _ => rfl) hknows (fun _ => rfl) rfl rfl

theorem Stands.countUp (h : Stands slab turns s ops a) (hslab : 0 < slab)
    (hp : s.place k = .countUp z p) :
    ∃ t, s.next slab k = .ok t ∧ Follows slab (turns ++ [.go k]) t ops a := by
  have hmem : (p, z) ∈ s.held k := h.knows_at hp
  have hline := h.line_at hp
  have hown : s.slab.cache k z = ⟨p, (a.slab.cache k z).freeCount⟩ := by
    rw [hline, AllocPlace.line, if_pos rfl]
  have hlawful : a.Lawful (.dalloc k p) :=
    ⟨List.mem_map_of_mem (h.held_live hmem), trivial⟩
  obtain ⟨cells, hcells⟩ := h.kept
  have hst : a.step slab (.dalloc k p) =
      .ok ⟨(a.slab.setRoute p { a.slab.heap p with unique := (a.slab.cache k z).free }).setLine k z
        ⟨p, (a.slab.cache k z).freeCount + 1⟩, a.live.eraseP fun b => b.1 = p⟩ := by
    rw [Arena.step, hcells.sound.returned (p, z) (h.held_live hmem) k, Slab.dallocCacheLine_eq]
    rfl
  have hkept := (Arena.step_sound hslab hcells hlawful.1 hst).2 hlawful.2
  obtain ⟨hself, hothers⟩ := h.calls_now (.dalloc k p) (by rw [hp]; rfl)
    (by simp [ArenaOp.calledBy]) (fun j hj => by simp [ArenaOp.calledBy, hj.symm])
  have hbuffer (b : Ptr × Size) (hb : b ∈ s.held k) := h.buffer_at hp hb
  have howned : s.owned slab k = s.held k := by rw [owned, hp]; rfl
  refine ⟨s.moved k (s.slab.setLine k z ⟨p, (a.slab.cache k z).freeCount + 1⟩) .rest
    ((s.held k).filter fun b => b.1 ≠ p), ?_, ?_⟩
  · simp only [next, hp, hown]
    rfl
  · apply follows_call hlawful hst
    apply h.move hkept
    · exact h.pools
    · intro y
      change _ = (Slab.setLine _ k z _).cache k y
      rw [Arena.setLine_cache, Arena.setLine_cache, hline, AllocPlace.line]
      by_cases e : y = z
      · rw [if_pos (by rw [e]), if_pos (by rw [e])]
      · rw [if_neg (by simpa using e), if_neg e, if_neg (by simpa using e)]
        rfl
    · trivial
    · intro b hb
      obtain ⟨hb, hne⟩ := List.mem_filter.mp hb
      have hne : b.1 ≠ p := by simpa using hne
      have hsame := hbuffer b hb
      rw [AllocPlace.buffer, if_neg hne] at hsame
      change s.slab.heap b.1 = (Slab.setRoute a.slab p _).heap b.1
      rw [hsame, setRoute_of_ne hne]
    · intro q hq
      exact ⟨rfl, setRoute_of_ne (hq _ hmem).symm _ _⟩
    · intro b hb hgone
      have e : b.1 = p := by
        by_contra hne
        exact hgone b (List.mem_filter.mpr ⟨hb, by simpa using hne⟩) rfl
      have hsame := hbuffer b hb
      rw [AllocPlace.buffer, if_pos e] at hsame
      change s.slab.heap b.1 = (Slab.setRoute a.slab p _).heap b.1
      rw [hsame, e, setRoute_self]
    · exact fun j hj => ⟨setLine_cache_of_ne hj _, setLine_cache_of_ne hj _⟩
    · intro b
      rw [Arena.mem_erased hcells.nodup, h.live_split k b, howned]
      constructor
      · rintro ⟨hb | hb, hne⟩
        · exact .inl (List.mem_filter.mpr ⟨hb, by simpa using hne⟩)
        · exact .inr hb
      · rintro (hb | ⟨j, hj, hb⟩)
        · obtain ⟨hb, hne⟩ := List.mem_filter.mp hb
          exact ⟨.inl hb, by simpa using hne⟩
        · exact ⟨.inr ⟨j, hj, hb⟩, h.apart j k hj b hb (p, z) (howned ▸ hmem)⟩
    · intro b hb j hj c hc
      exact h.apart k j hj.symm b (howned ▸ (List.mem_filter.mp hb).1) c hc
    · rw [← hself]
      exact List.append_nil _
    · exact hothers

theorem Stands.rest (h : Stands slab turns s ops a) (hp : s.place k = .rest) :
    Stands slab (turns ++ [.go k]) s ops a := by
  have hsame : s.goto k .rest = s := by rw [goto, ← hp, Function.update_eq_self]
  have hgo := h.goOn hp (h.knows_at hp) (fun _ => rfl) (fun _ => rfl) rfl rfl
  rwa [hsame] at hgo

theorem follows_quiet (hgo : ∃ t, s.next slab k = .ok t)
    (h : ∀ t, s.next slab k = .ok t → Stands slab (turns ++ [.go k]) t ops a) :
    ∃ t, s.next slab k = .ok t ∧ Follows slab (turns ++ [.go k]) t ops a := by
  obtain ⟨t, ht⟩ := hgo
  exact ⟨t, ht, (h t ht).follows⟩

/-- A thread in a call is never stopped where the calls so far have not been. -/
theorem Stands.go (h : Stands slab turns s ops a) (hslab : 0 < slab) (hlegal : s.Legal (.go k)) :
    ∃ t, s.next slab k = .ok t ∧ Follows slab (turns ++ [.go k]) t ops a := by
  cases hp : s.place k with
  | rest => exact ⟨s, by simp only [next, hp]; rfl, (h.rest hp).follows⟩
  | test sz =>
    refine follows_quiet ?_ fun t => h.test hp
    simp only [next, hp]
    split_ifs <;> exact ⟨_, rfl⟩
  | take sz => exact follows_quiet ⟨_, by simp only [next, hp]; rfl⟩ fun t => h.take hp
  | follow sz p =>
    obtain ⟨t, ht, hstands⟩ := h.follow hp
    exact ⟨t, ht, hstands.follows⟩
  | unlink sz p q => exact follows_quiet ⟨_, by simp only [next, hp]; rfl⟩ fun t => h.unlink hp
  | countDown sz p => exact h.countDown hslab hp
  | fetchAdd sz => exact h.fetchAdd hslab hp hlegal
  | claim sz index =>
    obtain ⟨t, ht, hstands⟩ := h.claim hslab hp
    exact ⟨t, ht, hstands.follows⟩
  | tested z p =>
    refine follows_quiet ?_ fun t => h.tested hp
    simp only [next, hp]
    split_ifs <;> exact ⟨_, rfl⟩
  | link z p => exact follows_quiet ⟨_, by simp only [next, hp]; rfl⟩ fun t => h.link hp
  | push z p => exact follows_quiet ⟨_, by simp only [next, hp]; rfl⟩ fun t => h.push hp
  | pushFirst z p => exact follows_quiet ⟨_, by simp only [next, hp]; rfl⟩ fun t => h.pushFirst hp
  | terminate z p => exact follows_quiet ⟨_, by simp only [next, hp]; rfl⟩ fun t => h.terminate hp
  | countUp z p => exact h.countUp hslab hp

theorem Stands.enter (h : Stands slab turns s ops a) {turn : AllocTurn κ} {place : AllocPlace}
    (hp : s.place k = .rest) (hknows : place.Knows a.slab k (s.held k))
    (hline : ∀ z, place.line a.slab k z = a.slab.cache k z)
    (hbuffer : ∀ q, place.buffer a.slab k q = a.slab.heap q) (hreserved : place.reserved slab = [])
    (hpending : place.pending k = callsBy k turn.call)
    (hturn : ∀ j, j ≠ k → callsBy j turn.call = []) :
    Stands slab (turns ++ [turn]) (s.goto k place) ops a := by
  have hgoto : s.goto k place = s.moved k s.slab place (s.held k) := goto_eq s s.slab k place
  rw [hgoto]
  apply h.quiet
  · rfl
  · exact fun z => (h.line_at hp z).trans (hline z).symm
  · exact hknows
  · exact fun b hb => (h.buffer_at hp hb).trans (hbuffer b.1).symm
  · exact fun _ _ => rfl
  · exact fun _ _ => rfl
  · rw [owned, hreserved, hp]
    rfl
  · exact fun _ hb => hb
  · rw [hpending, hp]
    rfl
  · exact hturn

theorem Stands.callAlloc (h : Stands slab turns s ops a) (hp : s.place k = .rest)
    (hsz : Size.large.bytes ≥ sz) :
    Stands slab (turns ++ [.alloc k sz]) (s.goto k (.test sz)) ops a := by
  apply h.enter hp
  · exact hsz
  · exact fun _ => rfl
  · exact fun _ => rfl
  · rfl
  · simp [AllocPlace.pending, AllocTurn.call, callsBy, ArenaOp.calledBy]
  · intro j hj
    simp [AllocTurn.call, callsBy, ArenaOp.calledBy, hj.symm]

theorem Stands.callDalloc (h : Stands slab turns s ops a) (hp : s.place k = .rest)
    (hmem : p ∈ (s.held k).map Prod.fst) :
    Stands slab (turns ++ [.dalloc k p]) (s.goto k (.tested (s.slab.sizeClass p) p)) ops a := by
  obtain ⟨b, hb, rfl⟩ := List.mem_map.mp hmem
  obtain ⟨cells, hkept⟩ := h.kept
  obtain ⟨i, hi, _, e⟩ := hkept.number (hkept.numberedLive b (h.held_live hb))
  have hplaced : s.slab.Placed slab := by
    intro z
    rw [h.pools]
    exact hkept.placed z
  have hclass : s.slab.sizeClass b.1 = b.2 := by
    rw [e]
    exact Slab.sizeClass_bufferAt hplaced hi
  apply h.enter hp
  · rw [hclass]
    exact hb
  · exact fun _ => rfl
  · exact fun _ => rfl
  · rfl
  · simp [AllocPlace.pending, AllocTurn.call, callsBy, ArenaOp.calledBy]
  · intro j hj
    simp [AllocTurn.call, callsBy, ArenaOp.calledBy, hj.symm]

theorem Stands.write (h : Stands slab turns s ops a) (hp : s.place k = .rest)
    (hmem : p ∈ (s.held k).map Prod.fst) (r : Route) :
    Follows slab (turns ++ [.write k p r]) { s with slab := s.slab.setRoute p r } ops a := by
  obtain ⟨b, hb, rfl⟩ := List.mem_map.mp hmem
  have hlive := List.mem_map_of_mem (f := Prod.fst) (h.held_live hb)
  obtain ⟨cells, hkept⟩ := h.kept
  have hsame : ({ s with slab := s.slab.setRoute b.1 r } : AllocThreads κ) =
      s.moved k (s.slab.setRoute b.1 r) .rest (s.held k) := by
    rw [moved, ← hp, Function.update_eq_self, Function.update_eq_self]
  have hturn (j : κ) : callsOf j (turns ++ [.write k b.1 r]) = callsOf j turns := by
    rw [callsOf_concat]
    exact List.append_nil _
  have hop (j : κ) : callsBy j (ops ++ [.write b.1 r]) = callsBy j ops := by
    rw [callsBy_append]
    exact List.append_nil _
  have howned : s.owned slab k = s.held k := by rw [owned, hp]; rfl
  rw [hsame]
  have hlawful : a.Lawful (.write b.1 r) := ⟨hlive, trivial⟩
  apply follows_call hlawful rfl
  apply h.move ⟨cells, hkept.write hlive r⟩
  · exact h.pools
  · exact h.line_at hp
  · trivial
  · intro c hc
    change (s.slab.setRoute b.1 r).heap c.1 = (a.slab.setRoute b.1 r).heap c.1
    by_cases e : c.1 = b.1
    · rw [e, setRoute_self, setRoute_self]
    · rw [setRoute_of_ne e, setRoute_of_ne e]
      exact h.buffer_at hp hc
  · exact fun q hq => ⟨setRoute_of_ne (hq b hb).symm _ _, setRoute_of_ne (hq b hb).symm _ _⟩
  · exact fun c hc hgone => absurd rfl (hgone c hc)
  · exact fun _ _ => ⟨rfl, rfl⟩
  · exact fun c => howned ▸ h.live_split k c
  · exact fun c hc j hj d hd => h.apart k j hj.symm c (howned ▸ hc) d hd
  · rw [hop, hturn, ← h.calls k, hp]
  · exact fun j _ => ⟨hop j, hturn j⟩

/-- A step of one thread moves no other, and leaves the size of the pools alone. -/
theorem next_frame (h : s.next slab k = .ok t) :
    (∀ j, j ≠ k → t.place j = s.place j) ∧
      ∀ y, (t.slab.pools y).indexMax = (s.slab.pools y).indexMax := by
  have elsewhere (C : Slab κ) (place : AllocPlace) (j : κ) (hj : j ≠ k) :
      ({ s with slab := C }.goto k place).place j = s.place j := Function.update_of_ne hj _ _
  cases hp : s.place k with
  | rest =>
    simp only [next, hp] at h
    cases h
    exact ⟨fun _ _ => rfl, fun _ => rfl⟩
  | test sz =>
    simp only [next, hp] at h
    split_ifs at h <;> cases h <;> exact ⟨elsewhere _ _, fun _ => rfl⟩
  | follow sz p =>
    simp only [next, hp] at h
    split_ifs at h
    cases h
    exact ⟨elsewhere _ _, fun _ => rfl⟩
  | countDown sz p =>
    simp only [next, hp, assert_bind_ok] at h
    cases h.2
    exact ⟨elsewhere _ _, fun _ => rfl⟩
  | fetchAdd sz =>
    simp only [next, hp] at h
    cases h
    refine ⟨elsewhere _ _, ?_⟩
    intro y
    change ((s.slab.grow (Size.of sz)).pools y).indexMax = _
    by_cases e : y = Size.of sz
    · rw [e, Slab.grow_pools_self]
    · rw [Slab.grow_pools_of_ne _ e]
  | claim sz index =>
    simp only [next, hp, assert_bind_ok] at h
    cases h.2.2
    exact ⟨elsewhere _ _, fun _ => rfl⟩
  | tested z p =>
    simp only [next, hp] at h
    split_ifs at h <;> cases h <;> exact ⟨elsewhere _ _, fun _ => rfl⟩
  | _ =>
    simp only [next, hp] at h
    cases h
    exact ⟨elsewhere _ _, fun _ => rfl⟩

theorem Failing.late (h : s.Failing) {turn : AllocTurn κ} (hlegal : s.Legal turn)
    (hst : s.step slab turn = .ok t) : t.Failing := by
  obtain ⟨j, sz, index, hp, hfull⟩ := h
  have awake {i : κ} (hi : s.place i = .rest) : j ≠ i := by
    rintro rfl
    rw [hp] at hi
    cases hi
  cases turn with
  | alloc k n =>
    rw [step, assert_bind_ok] at hst
    cases hst.2
    exact ⟨j, sz, index, (Function.update_of_ne (awake hlegal) _ _).trans hp, hfull⟩
  | dalloc k p =>
    cases hst
    exact ⟨j, sz, index, (Function.update_of_ne (awake hlegal.1) _ _).trans hp, hfull⟩
  | write k p r =>
    cases hst
    exact ⟨j, sz, index, hp, hfull⟩
  | go k =>
    by_cases hj : j = k
    · subst hj
      simp only [step, next, hp, assert_bind_ok] at hst
      exact absurd hst.1 (Nat.not_lt.mpr hfull)
    · obtain ⟨hplace, hmax⟩ := next_frame hst
      exact ⟨j, sz, index, (hplace j hj).trans hp, by rwa [hmax]⟩

theorem alloc_too_large (hsz : ¬ Size.large.bytes ≥ sz) :
    a.Lawful (.alloc k sz) ∧ ∃ e, a.step slab (.alloc k sz) = .error e := by
  have hlarge : Size.of sz = .large := by
    rw [Size.of, if_pos]
    have hlt : 4224 < sz := Nat.lt_of_not_le hsz
    change 256 < sz
    omega
  refine ⟨⟨trivial, ?_⟩, .assertion, ?_⟩
  · intro hsmall
    rw [hlarge] at hsmall
    cases hsmall
  · rw [Arena.step, Slab.alloc, assert, if_neg hsz]
    rfl

theorem serializes (hslab : 0 < slab) :
    Serializes (step slab) Legal (Arena.step slab) Arena.Lawful
      (fun turns (s : AllocThreads κ) ops a => Stands slab turns s ops a) Failing CallsMade := by
  refine ⟨?_, ?_, ?_, ?_⟩
  · intro turns s ops a turn t h hlegal hst
    cases turn with
    | alloc k sz =>
      rw [step, assert_bind_ok] at hst
      obtain ⟨hsz, hst⟩ := hst
      cases hst
      exact (h.callAlloc hlegal hsz).follows
    | dalloc k p =>
      cases hst
      exact (h.callDalloc hlegal.1 hlegal.2).follows
    | write k p r =>
      cases hst
      exact h.write hlegal.1 hlegal.2 r
    | go k =>
      obtain ⟨t', ht, hfollows⟩ := h.go hslab hlegal
      obtain rfl := Except.ok.inj (ht.symm.trans hst)
      exact hfollows
  · intro turns s ops a turn e h hlegal hst
    cases turn with
    | alloc k sz =>
      by_cases hsz : Size.large.bytes ≥ sz
      · rw [step, assert, if_pos hsz] at hst
        cases hst
      · obtain ⟨hlawful, e', hstop⟩ := @alloc_too_large κ _ slab a k sz hsz
        exact ⟨_, call_stops hlawful hstop (h.made_call hlegal sz)⟩
    | dalloc k p => cases hst
    | write k p r => cases hst
    | go k =>
      obtain ⟨t, ht, _⟩ := h.go hslab hlegal
      exact absurd (ht.symm.trans hst) (by simp)
  · exact fun s turn t h hlegal hst => h.late hlegal hst
  · exact fun turns turn ops h => h.grows turn

theorem init_stands (slab : Ptr) (heap : Ptr → Route) :
    Stands slab [] (init slab heap : AllocThreads κ) [] (Arena.init slab heap) := by
  refine ⟨⟨_, Arena.init_kept slab heap⟩, rfl, fun _ _ => rfl, fun _ => trivial, ?_, fun _ _ => rfl,
    ?_, ?_, fun _ => rfl⟩
  · intro k b hb
    cases hb
  · intro b
    refine ⟨fun hb => (nomatch hb), ?_⟩
    rintro ⟨k, hb⟩
    cases hb
  · intro j k _ b hb
    cases hb

theorem Stands.held_apart (h : Stands slab turns s ops a) {j : κ} {b c : Ptr × Size}
    (hb : b ∈ s.held j) (hc : c ∈ s.held k) (hne : (j, b) ≠ (k, c)) : Arena.Apart b c := by
  obtain ⟨cells, hkept⟩ := h.kept
  have hbc : b ≠ c := by
    rintro rfl
    by_cases e : j = k
    · exact hne (by rw [e])
    · exact h.apart j k e b (List.mem_append_right _ hb) b (List.mem_append_right _ hc) rfl
  have hsymm : Std.Symm Arena.Apart := ⟨fun _ _ h => h.symm⟩
  exact hkept.sound.apart.forall (h.held_live hb) (h.held_live hc) hbc

/-- With all threads at rest the two states are the same. -/
theorem Stands.slab_eq (h : Stands slab turns s ops a) (hrest : ∀ k, s.place k = .rest) :
    s.slab = a.slab := by
  have hheap : s.slab.heap = a.slab.heap := by
    funext q
    by_cases hq : ∃ k, ∃ b ∈ s.held k, b.1 = q
    · obtain ⟨k, b, hb, rfl⟩ := hq
      exact h.buffer_at (hrest k) hb
    · exact h.others q fun k b hb e => hq ⟨k, b, hb, e⟩
  have hcache : s.slab.cache = a.slab.cache := by
    funext k z
    exact h.line_at (hrest k) z
  have hpools := h.pools
  generalize s.slab = C at hheap hcache hpools ⊢
  obtain ⟨heap, pools, cache⟩ := C
  subst hheap hcache hpools
  rfl

end

/-- However any number of threads take turns, one access to memory at a time: with all of them
outside `alloc` and `dalloc`, the slab and the buffers they hold are those of a run of whole calls,
one after the other, in which each thread makes its own calls in its own order; as long as no thread
has taken an index beyond its pool, no two buffers in anybody's hands overlap; and if the threads
stop, so does a run of whole calls that they have made, each thread's in its own order. -/
theorem alloc_serial {κ : Type} [DecidableEq κ] (slab : Ptr) (hslab : 0 < slab)
    (heap : Ptr → Route) (turns : List (AllocTurn κ))
    (hlegal : StepsOk (step slab) Legal (init slab heap) turns) :
    (∀ s, turns.foldlM (step slab) (init slab heap) = .ok s → (∀ k, s.place k = .rest) →
      ∃ ops a, StepsOk (Arena.step slab) Arena.Lawful (Arena.init slab heap) ops ∧
        ops.foldlM (Arena.step slab) (Arena.init slab heap) = .ok a ∧ s.slab = a.slab ∧
        (∀ b, b ∈ a.live ↔ ∃ k, b ∈ s.held k) ∧ ∀ k, callsBy k ops = callsOf k turns) ∧
    (∀ s, turns.foldlM (step slab) (init slab heap) = .ok s → ¬ s.Failing →
      ∀ j k, ∀ b ∈ s.held j, ∀ c ∈ s.held k, (j, b) ≠ (k, c) → Arena.Apart b c) ∧
    ∀ e, turns.foldlM (step slab) (init slab heap) = .error e →
      ∃ ops e', StepsOk (Arena.step slab) Arena.Lawful (Arena.init slab heap) ops ∧
        ops.foldlM (Arena.step slab) (Arena.init slab heap) = .error e' ∧
        ∀ k, callsBy k ops <+: callsOf k turns := by
  refine ⟨?_, ?_, ?_⟩
  · intro s hr hrest
    cases (serializes hslab).run (init_stands slab heap) hlegal hr with
    | inl h =>
      obtain ⟨ops, a, hops, ha, hstands⟩ := h
      have howned (k : κ) : s.owned slab k = s.held k := by rw [owned, hrest k]; rfl
      refine ⟨ops, a, hops, ha, hstands.slab_eq hrest, ?_, ?_⟩
      · simpa only [howned] using hstands.live
      · intro k
        rw [← hstands.calls k, hrest k]
        exact (List.append_nil _).symm
    | inr h =>
      obtain ⟨k, sz, index, hp, _⟩ := h.2
      exact absurd ((hrest k).symm.trans hp) (by simp)
  · intro s hr hfailing j k b hb c hc hne
    cases (serializes hslab).run (init_stands slab heap) hlegal hr with
    | inl h =>
      obtain ⟨ops, a, _, _, hstands⟩ := h
      exact hstands.held_apart hb hc hne
    | inr h => exact absurd h.2 hfailing
  · intro e hr
    obtain ⟨ops, hops, ⟨e', he⟩, hmade⟩ :=
      (@serializes κ _ slab hslab).run_stops (init_stands slab heap) hlegal hr
    exact ⟨ops, e', hops, he, hmade⟩

/-- Two threads ask for a small buffer; the one that is slower to `atomic_fetch_add` gets the second
one, returns it while the other asks again, and takes it back from its own line. -/
def overtaken : List (AllocTurn Bool) :=
  [.alloc false 100, .alloc true 200, .go false, .go true, .go true, .go false, .go false, .go true,
    .dalloc false (2 ^ 46 + 256), .go false, .alloc true 50, .go false, .go true, .go false,
    .go true, .go false, .go true, .alloc false 150] ++ List.replicate 5 (.go false)

theorem alloc_serial_overtaken :
    ∃ s ops a, overtaken.foldlM (step (2 ^ 46)) (init (2 ^ 46) Arena.zeroPages) = .ok s ∧
      s.held false = [(2 ^ 46 + 256, .small)] ∧
      s.held true = [(2 ^ 46 + 512, .small), (2 ^ 46, .small)] ∧
      ops.foldlM (Arena.step (2 ^ 46)) (Arena.init (2 ^ 46) Arena.zeroPages) = .ok a ∧
      s.slab = a.slab ∧ (∀ b, b ∈ a.live ↔ ∃ k, b ∈ s.held k) ∧
      callsBy true ops = [.alloc true 200, .alloc true 50] := by
  have hr : (overtaken.foldlM (step (2 ^ 46)) (init (2 ^ 46) Arena.zeroPages)).map (fun s =>
      ([s.place false, s.place true], s.held false, s.held true)) =
      .ok ([.rest, .rest], [(2 ^ 46 + 256, .small)],
        [(2 ^ 46 + 512, .small), (2 ^ 46, .small)]) := by
    decide +kernel
  obtain ⟨s, hs, e⟩ := exists_of_map_eq_ok hr
  simp only [Prod.mk.injEq, List.cons.injEq, and_true] at e
  obtain ⟨⟨hfalse, htrue⟩, hheld, hheld'⟩ := e
  obtain ⟨ops, a, _, ha, hslab, hlive, hcalls⟩ := (alloc_serial (2 ^ 46) (by decide) Arena.zeroPages
    overtaken (by decide +kernel)).1 s hs (Bool.forall_bool.mpr ⟨hfalse, htrue⟩)
  refine ⟨s, ops, a, hs, hheld, hheld', ha, hslab, hlive, ?_⟩
  rw [hcalls true]
  rfl

end AllocThreads

end FastParse
