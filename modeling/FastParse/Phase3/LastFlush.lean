import FastParse.Phase3.Interleavings
import FastParse.Phase3.Partition

namespace FastParse

open Framework ThreadProgram

theorem enterPhase3_ok {g : Phase3Vars} (hd : g.gate.debug = 0) : enterPhase3 g =
    .ok ({ g with gate := { g.gate with debug := 1 } }, .draining none) := by
  rw [enterPhase3, hd]
  rfl

theorem leavePhase3_ok {g : Phase3Vars} (hd : g.gate.debug = 1) : leavePhase3 g =
    .ok ({ g with gate := { g.gate with debug := 0 } }, .unlocking) := by
  rw [leavePhase3, hd]
  rfl

def Sending.Stops (w : Sending) (b : Block) (halt : Halt) : Prop :=
  ∃ e : Egress, emitBlock w.outlet (w.heap e.blocks.length) (w.tables e.blocks.length) b.route
    b.indices e = .error halt

section
variable {ι : Type} [DecidableEq ι]

/-- The best routes as they are now. -/
abbrev headsOf (cell : ∀ k : SpinLock, k.Vars) : Nat → Ptr := fun a => (cell (.entry a)).head

/-- How a `schedule_phase3` without company ends that has these indices in hand or before it:
`addrreftable` overflows, a block is not sent, or the journal is empty and the thread is outside
again. -/
inductive Flushed (w : Sending) (s : PeerSections ι) (i : ι) (pending : List Nat) :
    Exec (PeerSections ι) → Prop
  | overflow : 4096 < pending.length → Flushed w s i pending (.error .assertion)
  | unsent (b : Block) (halt : Halt) : b ∈ blocksOf (headsOf s.cell) pending → w.Stops b halt →
      Flushed w s i pending (.error halt)
  | finished (t : PeerSections ι) (j : Journal) : t.pc = Function.update s.pc i .outside →
      t.cell .journal = journalVars j → j.queue = [] → headsOf t.cell = headsOf s.cell →
      Flushed w s i pending (.ok t)

/-- What is left of the indices: their blocks are blocks of all of them. -/
structure LeftOf (head : Nat → Ptr) (pending pending' : List Nat) : Prop where
  length : pending'.length ≤ pending.length
  blocks : ∀ b ∈ blocksOf head pending', b ∈ blocksOf head pending

theorem LeftOf.refl (head : Nat → Ptr) (pending : List Nat) : LeftOf head pending pending :=
  ⟨Nat.le_refl _, fun _ hb => hb⟩

section
variable {w : Sending} {s s' : PeerSections ι} {i : ι} {pending pending' : List Nat}

theorem Flushed.after {r : Exec (PeerSections ι)} (h : Flushed w s' i pending' r) (pc : PeerPc)
    (hpc : s'.pc = Function.update s.pc i pc) (hleft : LeftOf (headsOf s.cell) pending pending')
    (hheads : headsOf s'.cell = headsOf s.cell) : Flushed w s i pending r := by
  cases h with
  | overflow hlt => exact .overflow (Nat.lt_of_lt_of_le hlt hleft.length)
  | unsent b halt hb hstop =>
    rw [hheads] at hb
    exact .unsent b halt (hleft.blocks b hb) hstop
  | finished t j ht hj hq hh =>
    refine .finished t j ?_ hj hq (hh.trans hheads)
    rw [ht, hpc, Function.update_idem]

theorem Flushed.stepped {pc : PeerPc} (hst : (peerProgram w).sectionStep s (.go i) = .ok s')
    (hpc : s'.pc = Function.update s.pc i pc) (hleft : LeftOf (headsOf s.cell) pending pending')
    (hheads : headsOf s'.cell = headsOf s.cell)
    (h : ∃ r, (peerProgram w).RunsAlone i s' r ∧ Flushed w s' i pending' r) :
    ∃ r, (peerProgram w).RunsAlone i s r ∧ Flushed w s i pending r := by
  obtain ⟨r, hrun, hend⟩ := h
  exact ⟨r, hrun.step hst, hend.after pc hpc hleft hheads⟩

theorem emit_alone {b : Block} {ahead : Option (Nat × Ptr)} (hpc : s.pc i = .emitting b ahead)
    (hb : b ∈ blocksOf (headsOf s.cell) pending)
    (hleft : LeftOf (headsOf s.cell) pending pending')
    (go : ∀ s' : PeerSections ι, s'.cell = s.cell → s'.pc i = afterBlock ahead →
      s'.shared.gate = s.shared.gate →
      ∃ r, (peerProgram w).RunsAlone i s' r ∧ Flushed w s' i pending' r) :
    ∃ r, (peerProgram w).RunsAlone i s r ∧ Flushed w s i pending r := by
  have hcode : (peerProgram w).code (s.pc i) = .atomic (emitCollected w b ahead) := by
    rw [hpc]
    rfl
  let n := s.shared.egress.blocks.length
  cases he : emitBlock w.outlet (w.heap n) (w.tables n) b.route b.indices s.shared.egress with
  | error halt =>
    have hstop : (peerProgram w).sectionStep s (.go i) = .error halt := by
      simp only [sectionStep, hcode, emitCollected]
      rw [he]
      rfl
    exact ⟨_, .stop hstop, .unsent b halt hb ⟨s.shared.egress, he⟩⟩
  | ok egress =>
    have hsent : emitCollected w b ahead s.shared =
        .ok ({ s.shared with egress }, afterBlock ahead) := by
      rw [emitCollected]
      simp only
      rw [he]
      rfl
    exact Flushed.stepped (sectionStep_atomic hcode hsent) rfl hleft rfl
      (go _ rfl (Function.update_self _ _ _) rfl)

theorem unlock_alone {j : Journal} (hpc : s.pc i = .leaving)
    (hj : s.cell .journal = journalVars j) (hq : j.queue = []) (hd : s.shared.gate.debug = 1) :
    ∃ r, (peerProgram w).RunsAlone i s r ∧ Flushed w s i pending r := by
  refine Flushed.stepped (sectionStep_atomic (by rw [hpc]; rfl) (leavePhase3_ok hd)) rfl
    (.refl _ pending) rfl ?_
  refine Flushed.stepped (sectionStep_atomic (f := unlockPhase3) (by simp [peerProgram]) rfl) rfl
    (.refl _ pending) rfl ?_
  refine ⟨_, .here i _, .finished _ j ?_ hj hq rfl⟩
  simp

/-- The indices of the block that is being collected: they have its route as their head. -/
def Collects (head : Nat → Ptr) (block : Option Block) (indices : List Nat) : Prop :=
  match block with
  | none => indices = []
  | some b => b.indices = indices ∧ indices ≠ [] ∧ ∀ a ∈ indices, head a = b.route

theorem collects_single (head : Nat → Ptr) (a : Nat) :
    Collects head (some ⟨head a, [a]⟩) [a] := by
  refine ⟨rfl, List.cons_ne_nil _ _, ?_⟩
  intro x hx
  rw [List.mem_singleton.mp hx]

theorem Collects.grow {head : Nat → Ptr} {b : Block} {indices : List Nat}
    (h : Collects head (some b) indices) {a : Nat} (ha : head a = b.route) :
    Collects head (some ⟨b.route, b.indices ++ [a]⟩) (indices ++ [a]) := by
  obtain ⟨hindices, _, hall⟩ := h
  refine ⟨by rw [hindices], by simp, ?_⟩
  intro x hx
  cases List.mem_append.mp hx with
  | inl hx => exact hall x hx
  | inr hx => rw [List.mem_singleton.mp hx, ha]

theorem Collects.block {head : Nat → Ptr} {b : Block} (h : Collects head (some b) b.indices) :
    blocksOf head b.indices = [b] := by
  obtain ⟨_, hne, hall⟩ := h
  obtain ⟨a, rest, hcons⟩ := List.exists_cons_of_ne_nil hne
  obtain ⟨route, indices⟩ := b
  simp only at hcons hall
  subst hcons
  have ha := hall a List.mem_cons_self
  rw [blocksOf_const fun x hx => (hall x (List.mem_cons_of_mem a hx)).trans ha.symm, ha]

theorem Collects.block_cons {head : Nat → Ptr} {b : Block} (h : Collects head (some b) b.indices)
    {a : Nat} (hne : head a ≠ b.route) (rest : List Nat) :
    blocksOf head (b.indices ++ a :: rest) = b :: blocksOf head (a :: rest) := by
  obtain ⟨_, hnil, hall⟩ := h
  obtain ⟨x, l, hcons⟩ := List.exists_cons_of_ne_nil hnil
  obtain ⟨route, indices⟩ := b
  simp only at hcons hall hne
  subst hcons
  have hx := hall x List.mem_cons_self
  rw [blocksOf_append_cons (fun y hy => (hall y (List.mem_cons_of_mem x hy)).trans hx.symm)
    (hx.symm ▸ hne), hx]

theorem leave_alone {j : Journal} (block : Option Block) {indices : List Nat}
    (hblock : Collects (headsOf s.cell) block indices)
    (hpc : s.pc i = afterPull block journalEmpty) (hj : s.cell .journal = journalVars j)
    (hq : j.queue = []) (hd : s.shared.gate.debug = 1) :
    ∃ r, (peerProgram w).RunsAlone i s r ∧ Flushed w s i indices r := by
  cases block with
  | none => exact unlock_alone hpc hj hq hd
  | some b =>
    obtain rfl := hblock.1
    refine emit_alone hpc ?_ (.refl _ _) ?_
    · rw [hblock.block]
      exact List.mem_singleton_self b
    · intro s' hcell hpc' hgate
      exact unlock_alone hpc' (hcell ▸ hj) hq (hgate ▸ hd)

/-- The test of the inner loop on an entry, up to the next pull; `go` is what follows. -/
theorem compare_alone {a : Nat} {block : Option Block} {indices rest : List Nat}
    (hpc : s.pc i = .comparing a (headsOf s.cell a) block)
    (hblock : Collects (headsOf s.cell) block indices) (hd : s.shared.gate.debug = 1)
    (go : ∀ (s' : PeerSections ι) (block' : Option Block) (indices' : List Nat),
      s'.cell = s.cell → s'.pc i = .draining block' → s'.shared.gate.debug = 1 →
      Collects (headsOf s'.cell) block' indices' →
      ∃ r, (peerProgram w).RunsAlone i s' r ∧ Flushed w s' i (indices' ++ rest) r) :
    ∃ r, (peerProgram w).RunsAlone i s r ∧ Flushed w s i (indices ++ a :: rest) r := by
  have hcode : (peerProgram w).code (s.pc i) =
      .atomic (compareRoutes a (headsOf s.cell a) block) := by
    rw [hpc]
    rfl
  have hsingle := collects_single (headsOf s.cell) a
  -- the entry goes into the block
  have resume {block' : Option Block}
      (hcompare : compareRoutes a (headsOf s.cell a) block s.shared =
        .ok (s.shared, .draining block'))
      (hblock' : Collects (headsOf s.cell) block' (indices ++ [a])) :
      ∃ r, (peerProgram w).RunsAlone i s r ∧ Flushed w s i (indices ++ a :: rest) r := by
    refine Flushed.stepped (sectionStep_atomic hcode hcompare) rfl (.refl _ _) rfl ?_
    have hnext := go { s with pc := Function.update s.pc i (.draining block') } block'
      (indices ++ [a]) rfl (Function.update_self _ _ _) hd hblock'
    rwa [List.append_assoc, List.singleton_append] at hnext
  cases block with
  | none =>
    obtain rfl : indices = [] := hblock
    exact resume rfl hsingle
  | some b =>
    obtain rfl := hblock.1
    by_cases e : headsOf s.cell a = b.route
    · by_cases hlt : b.indices.length < 4096
      · refine resume ?_ (hblock.grow e)
        simp only [compareRoutes, e, assert, hlt]
        rfl
      · have hfull : (peerProgram w).sectionStep s (.go i) = .error .assertion := by
          simp only [sectionStep, hcode, compareRoutes, e, assert, hlt]
          rfl
        refine ⟨_, .stop hfull, .overflow ?_⟩
        rw [List.length_append, List.length_cons]
        omega
    · have hdiffers : compareRoutes a (headsOf s.cell a) (some b) s.shared =
          .ok (s.shared, .emitting b (some (a, headsOf s.cell a))) := by
        simp only [compareRoutes, e]
        rfl
      have hparts := hblock.block_cons e rest
      refine Flushed.stepped (sectionStep_atomic hcode hdiffers) rfl (.refl _ _) rfl ?_
      have hleft : LeftOf (headsOf s.cell) (b.indices ++ a :: rest) ([a] ++ rest) := by
        refine ⟨by simp, ?_⟩
        intro c hc
        exact hparts ▸ List.mem_cons_of_mem b hc
      refine emit_alone (Function.update_self _ _ _) ?_ hleft ?_
      · exact hparts ▸ List.mem_cons_self
      · intro s' hcell hpc' hgate
        exact go s' _ [a] hcell hpc' (hgate ▸ hd) (hcell ▸ hsingle)

/-- The holder of `phase3_spinlock`, left alone, drains the journal. -/
theorem drain_alone {queue indices : List Nat} {j : Journal} (block : Option Block)
    (hblock : Collects (headsOf s.cell) block indices) (hpc : s.pc i = .draining block)
    (hj : s.cell .journal = journalVars j) (hq : j.queue = queue)
    (hne : ∀ a ∈ queue, a ≠ journalEmpty) (hd : s.shared.gate.debug = 1) :
    ∃ r, (peerProgram w).RunsAlone i s r ∧ Flushed w s i (indices ++ queue) r := by
  have hcode : (peerProgram w).code (s.pc i) =
      .locked .journal (pullAccesses (afterPull block)) := by
    rw [hpc]
    rfl
  induction queue generalizing s j block indices with
  | nil =>
    have hpull : (pullAccesses (afterPull block)).run (s.cell .journal) =
        .ok (journalVars j, afterPull block journalEmpty) := by
      rw [hj, pullAccesses_run, locribjPull_nil hq]
    refine Flushed.stepped (sectionStep_locked hcode hpull) rfl (.refl _ _) rfl ?_
    rw [List.append_nil]
    refine leave_alone block hblock ?_ ?_ hq hd
    · simp
    · simp
  | cons a rest ih =>
    have ha : a ≠ journalEmpty := hne a List.mem_cons_self
    obtain ⟨j', hj', hrest⟩ := locribjPull_cons hq
    have hpull : (pullAccesses (afterPull block)).run (s.cell .journal) =
        .ok (journalVars j', .reading a block) := by
      rw [hj, pullAccesses_run, hj']
      unfold afterPull
      rw [if_pos ha.symm]
    refine Flushed.stepped (sectionStep_locked hcode hpull) rfl (.refl _ _) rfl ?_
    -- the index is in hand: `read_and_clear`, then the test of the inner loop
    have hread (lre : LocribEntry) :
        (readAndClearAccesses fun route2 => PeerPc.comparing a route2 block).run lre =
          .ok ({ lre with pushFlag := false }, .comparing a lre.head block) := rfl
    have hheads (cell : ∀ k : SpinLock, k.Vars) : headsOf (Function.update cell (.entry a)
        { cell (.entry a) with pushFlag := false }) = headsOf cell := by
      funext k
      by_cases e : k = a
      · subst e
        simp [headsOf]
      · have hk : SpinLock.entry k ≠ .entry a := fun he => e (SpinLock.entry.inj he)
        simp [headsOf, hk]
    refine Flushed.stepped (sectionStep_locked (k := .entry a) ?_ (hread _)) rfl (.refl _ _)
      (hheads _) ?_
    · simp [peerProgram]
    · refine @compare_alone ι _ w _ i a block indices rest ?_ ?_ hd ?_
      · rw [hheads]
        simp [headsOf]
      · rw [hheads]
        exact hblock
      · intro s' block' indices' hcell hpc' hd' hblock'
        refine ih block' hblock' hpc' ?_ hrest ?_ hd' ?_
        · rw [hcell]
          simp
        · intro b hb
          exact hne b (List.mem_cons_of_mem a hb)
        · rw [hpc']
          rfl

/-- The trylock succeeds, and the assertion behind it. -/
theorem schedule_alone {j : Journal} (hpc : s.pc i = .scheduling)
    (hj : s.cell .journal = journalVars j) (hn : ∀ a ∈ j.queue, a ≠ journalEmpty)
    (hl : s.shared.gate.locked = false) (hd : s.shared.gate.debug = 0) :
    ∃ r, (peerProgram w).RunsAlone i s r ∧ Flushed w s i j.queue r := by
  have htry : trylock s.shared = .ok
      ({ s.shared with gate := { s.shared.gate with locked := true } }, .entering) := by
    rw [trylock, hl]
    rfl
  refine Flushed.stepped (sectionStep_atomic (by rw [hpc]; rfl) htry) rfl (.refl _ _) rfl ?_
  refine Flushed.stepped (sectionStep_atomic ?_ (enterPhase3_ok ?_)) rfl
    (.refl _ _) rfl ?_
  · simp [peerProgram]
  · exact hd
  · rw [← List.nil_append j.queue]
    refine drain_alone none rfl ?_ ?_ rfl hn ?_
    · simp
    · exact hj
    · rfl

end

/-- No thread is inside `locrib` or `schedule_phase3`. -/
def AllOutside (s : PeerAccesses ι) : Prop := ∀ i, s.position i = .between .outside

/-- Nothing is left to send: the journal is empty, no flag is up, and each head was sent last
as it is now. -/
structure Finished (s t : PeerAccesses ι) : Prop where
  outside : AllOutside t
  gate : t.shared.gate = gateInit
  journal : (t.cell .journal).jwrite = (t.cell .journal).jread
  flags : ∀ a, (t.cell (.entry a)).pushFlag = false
  heads : ∀ a, (t.cell (.entry a)).head = (s.cell (.entry a)).head
  sent : ∀ a, (t.cell (.entry a)).head ≠ null →
    ∃ b, lastBlock t.shared.egress.blocks a = some b ∧ b.route = (t.cell (.entry a)).head

omit [DecidableEq ι] in
theorem AllOutside.eq_quiet {w : Sending} {s : PeerAccesses ι} {a : PeerSections ι}
    (hall : AllOutside s) (h : (peerProgram w).Matches s a) :
    s = quiet a ∧ ∀ i, a.pc i = .outside := by
  refine ⟨h.eq_quiet fun k => ?_, fun i => h.between i .outside (hall i)⟩
  by_contra hl
  obtain ⟨i, rest, hi⟩ := (h.holder k).mp (by simpa using hl)
  rw [hall i] at hi
  cases hi

/-- With all threads outside and the journal empty, everything has been sent. -/
theorem finished_of_empty {w : Sending} {turns : List (Turn ι PeerCall)} {s : PeerAccesses ι}
    {t : PeerSections ι} {j : Journal}
    (hr : turns.foldlM (peerProgram w).sectionStep peersInit = .ok t)
    (hall : ∀ i, t.pc i = .outside) (hj : t.cell .journal = journalVars j) (hq : j.queue = [])
    (hheads : headsOf t.cell = headsOf s.cell) : Finished s (quiet t) := by
  obtain ⟨hg, th, hreach, hshows⟩ := peers_reach hr
  obtain ⟨_, htracked⟩ := Threads.reachable_tracked hreach
  obtain rfl := journalVars_inj (hj.symm.trans hshows.journal)
  have hfree : t.shared.gate.locked = false := by
    by_contra hl
    obtain ⟨i, hi⟩ := hg.holder.mp (by simpa using hl)
    rw [hall i] at hi
    exact hi
  have hflag (a : Nat) : (t.cell (.entry a)).pushFlag = false := by
    by_contra hf
    rw [hshows.entries] at hf
    have hw := htracked.waiting a (by simpa [Threads.flagged] using hf)
    rcases hw with hw | ⟨i, hi⟩ | hw
    · simp [Threads.flagged, hq] at hw
    · simp [Threads.flagged, hshows.producer, hall i, PeerPc.queues] at hi
    · simp [Threads.flagged, hshows.idle hfree] at hw
  have hread (a : Nat) : (t.cell (.entry a)).head = lastSent t.shared.egress.blocks a := by
    rw [← hshows.sent hfree]
    by_contra hne
    have hf := htracked.flagged a (by simpa [Threads.flagged, ← hshows.entries] using hne)
    simp [Threads.flagged, ← hshows.entries, hflag a] at hf
  refine ⟨fun i => ?_, ?_, ?_, hflag, fun a => congrFun hheads a, ?_⟩
  · simp [quiet, hall i]
  · have hd := hg.free hfree
    show t.shared.gate = gateInit
    rw [gateInit, ← hfree, ← hd]
  · show (t.cell .journal).jwrite = (t.cell .journal).jread
    rw [hj]
    exact (Ring.queue_eq_nil _).mp hq
  · intro a ha
    have hne : lastSent t.shared.egress.blocks a ≠ null := by
      rw [← hread a]
      exact ha
    cases hb : lastBlock t.shared.egress.blocks a with
    | none => simp [lastSent, hb] at hne
    | some b =>
      refine ⟨b, hb, ?_⟩
      show b.route = (t.cell (.entry a)).head
      simp [hread a, lastSent, hb]

/-- What holds after any run of accesses: the sections in the order of their ends, and the
producers and the consumer they stand for. -/
theorem accesses_reach {w : Sending} {turns : List (Turn ι PeerCall)} {s : PeerAccesses ι}
    (hr : turns.foldlM (peerProgram w).accessStep (quiet peersInit) = .ok s) :
    ∃ (whole : List (Turn ι PeerCall)) (a : PeerSections ι), whole.Sublist turns ∧
      whole.foldlM (peerProgram w).sectionStep peersInit = .ok a ∧ (peerProgram w).Matches s a ∧
      PeersGuarded a ∧ ∃ th, Relation.ReflTransGen Threads.Step Threads.init th ∧ Shows a th := by
  obtain ⟨whole, a, hsub, hrun, hm⟩ := (matches_quiet peersInit).run hr
  obtain ⟨hg, hshows⟩ := peers_reach hrun
  exact ⟨whole, a, hsub, hrun, hm, hg, hshows⟩

/-- Every interleaving of single accesses, whether it goes through or stops on an assertion, is
one of whole sections, and of the atomic steps of producers and a consumer that read and write
`LOCRIB` and the journal. -/
theorem sections_atomic (w : Sending) (turns : List (Turn ι PeerCall)) :
    match turns.foldlM (peerProgram w).accessStep (quiet peersInit) with
    | .ok s => ∃ (whole : List (Turn ι PeerCall)) (a : PeerSections ι) (th : Threads ι),
        whole.Sublist turns ∧ whole.foldlM (peerProgram w).sectionStep peersInit = .ok a ∧
        (peerProgram w).Matches s a ∧ Relation.ReflTransGen Threads.Step Threads.init th ∧
        Shows a th
    | .error halt => ∃ whole : List (Turn ι PeerCall),
        whole.Sublist turns ∧ whole.foldlM (peerProgram w).sectionStep peersInit = .error halt := by
  cases hr : turns.foldlM (peerProgram w).accessStep (quiet peersInit) with
  | ok s =>
    obtain ⟨whole, a, hsub, hrun, hm, _, th, hreach, hshows⟩ := accesses_reach hr
    exact ⟨whole, a, th, hsub, hrun, hm, hreach, hshows⟩
  | error halt => exact (matches_quiet peersInit).run_stops hr

/-- The thread is under `phase3_spinlock`: a section it is in, left alone, ends under it. -/
def HoldsPhase3 (s : PeerAccesses ι) (i : ι) : Prop :=
  match s.position i with
  | .between pc => pc.Holding
  | .inside k rest => ∃ v pc, rest.run (s.cell k) = .ok (v, pc) ∧ pc.Holding

omit [DecidableEq ι] in
theorem HoldsPhase3.holding {w : Sending} {s : PeerAccesses ι} {a : PeerSections ι} {i : ι}
    (h : HoldsPhase3 s i) (hm : (peerProgram w).Matches s a) : (a.pc i).Holding := by
  rw [HoldsPhase3] at h
  cases hp : s.position i with
  | between pc =>
    rw [hp] at h
    rw [hm.between i pc hp]
    exact h
  | inside k rest =>
    rw [hp] at h
    obtain ⟨v, pc, hr, hpc⟩ := h
    obtain ⟨body, hcode, hrun⟩ := hm.inside i k rest hp
    rw [hrun] at hr
    exact ((section_holding hcode).run hr).mp hpc

omit [DecidableEq ι] in
theorem resting_iff (w : Sending) (s : PeerAccesses ι) (i : ι) :
    (peerProgram w).Resting s i ↔ s.position i = .between .outside := by
  constructor
  · rintro ⟨pc, hpc, hcode⟩
    cases pc with
    | outside => exact hpc
    | _ => cases hcode
  · intro hpc
    exact ⟨.outside, hpc, rfl⟩

/-- In every interleaving one thread at most is under `phase3_spinlock`, and one in the section
of any other lock; no assertion on `phase3_debug` fails; and while any thread is inside, one of
those inside is not spinning. -/
theorem threads_never_stuck (w : Sending) (turns : List (Turn ι PeerCall)) (s : PeerAccesses ι)
    (hr : turns.foldlM (peerProgram w).accessStep (quiet peersInit) = .ok s) :
    (∀ i j, HoldsPhase3 s i → HoldsPhase3 s j → i = j) ∧
    (∀ i j k rest rest', s.position i = .inside k rest → s.position j = .inside k rest' → i = j) ∧
    (∀ i, s.position i = .between .entering ∨ s.position i = .between .leaving →
      ∃ t, (peerProgram w).accessStep s (.go i) = .ok t) ∧
    (∀ i, s.position i ≠ .between .outside →
      ∃ j, s.position j ≠ .between .outside ∧ ¬ (peerProgram w).Spins s j) := by
  obtain ⟨_, a, _, _, hm, hg, _⟩ := accesses_reach hr
  refine ⟨?_, hm.unique, ?_, ?_⟩
  · intro i j hi hj
    exact hg.unique i j (hi.holding hm) (hj.holding hm)
  · intro i hi
    have hdebug {pc : PeerPc} (hpc : s.position i = .between pc) (hold : pc.Holding) :
        s.shared.gate.debug = if pc.Counted then 1 else 0 := by
      have e := hm.between i pc hpc
      rw [hm.shared, ← e]
      exact hg.counted i (by rw [e]; exact hold)
    rcases hi with hi | hi
    · exact ⟨_, accessStep_atomic hi rfl (enterPhase3_ok (hdebug hi trivial))⟩
    · exact ⟨_, accessStep_atomic hi rfl (leavePhase3_ok (hdebug hi trivial))⟩
  · intro i hi
    obtain ⟨j, hj, hspin⟩ := hm.progress (i := i) fun hrest => hi ((resting_iff w s i).mp hrest)
    exact ⟨j, fun e => hj ((resting_iff w s j).mpr e), hspin⟩

/-- A route that wins over `NULL`, announced at the end of a block. -/
def announcing (addrref : Nat) (inside : lrIndexMask &&& (addrref ||| lrEob) < big)
    (new : { p : Ptr // p ≠ emptyPtr }) : PeerCall :=
  .locrib ⟨fun _ => ⟨0, 0, 0, 0, 0, 0, 0, 0⟩, addrref ||| lrEob, inside, new, true, false⟩

/-- Sixteen prefixes of eight bits, and routes that every serializer gets through. -/
def plainSending : Sending :=
  ⟨⟨peergroups, fun _ => true⟩, fun _ _ => blockRoute plainBlock,
    fun _ => ⟨fun _ => 0, fun i => 256 + i, 16⟩⟩

instance (s : PeerAccesses (Fin 2)) (i : Fin 2) : Decidable (s.position i = .between .outside) :=
  match h : s.position i with
  | .between .outside => isTrue rfl
  | .between (.updating _) | .between (.pushing _ _) | .between .scheduling
  | .between .entering | .between (.draining _) | .between (.reading _ _)
  | .between (.comparing _ _ _) | .between (.emitting _ _) | .between .leaving
  | .between .unlocking | .inside _ _ => isFalse fun e => by cases e

def contended : List (Turn (Fin 2) PeerCall) :=
  [.call 0 (announcing 7 (by decide) ⟨256, by decide⟩), .go 0,
    .call 1 (announcing 7 (by decide) ⟨512, by decide⟩), .go 1]

theorem threads_never_stuck_contended :
    ∃ s j, contended.foldlM (peerProgram plainSending).accessStep (quiet peersInit) = .ok s ∧
      s.position 1 ≠ .between .outside ∧ s.position j ≠ .between .outside ∧
      ¬ (peerProgram plainSending).Spins s j := by
  have hr : (contended.foldlM (peerProgram plainSending).accessStep (quiet peersInit)).map
      (fun s => decide (s.position 1 = .between .outside)) = .ok false := by decide +kernel
  obtain ⟨s, hs, e⟩ := exists_of_map_eq_ok hr
  have h1 : s.position 1 ≠ .between .outside := by simpa using e
  obtain ⟨j, hj, hspin⟩ := (threads_never_stuck plainSending contended s hs).2.2.2 1 h1
  exact ⟨s, j, hs, h1, hj, hspin⟩

/-- A `schedule_phase3(1)` of thread `i` that nobody interrupts, up to its step number `n`. -/
def flushTurns (i : ι) (n : Nat) : List (Turn ι PeerCall) :=
  .call i .schedulePhase3 :: List.replicate n (.go i)

/-- In every interleaving of the single accesses, when the last peer thread has returned, the
main thread's flush on its own empties the journal, lowers every flag and sends every head that
was not sent as it is. Only a block of more than 4096 indices can stop it, or the sending of one
of the blocks in the journal. -/
theorem last_flush (w : Sending) (turns : List (Turn ι PeerCall)) (s : PeerAccesses ι)
    (hr : turns.foldlM (peerProgram w).accessStep (quiet peersInit) = .ok s) (hall : AllOutside s)
    (i : ι) :
    ∃ n, 4096 < ((s.cell .journal).jwrite + big - (s.cell .journal).jread) % big ∧
        (flushTurns i n).foldlM (peerProgram w).accessStep s = .error .assertion ∨
      (∃ j b halt, s.cell .journal = journalVars j ∧ b ∈ blocksOf (headsOf s.cell) j.queue ∧
        w.Stops b halt ∧ (flushTurns i n).foldlM (peerProgram w).accessStep s = .error halt) ∨
      ∃ t, (flushTurns i n).foldlM (peerProgram w).accessStep s = .ok t ∧ Finished s t := by
  obtain ⟨whole, a, _, hrun, hm, hg, th, hreach, hshows⟩ := accesses_reach hr
  obtain ⟨rfl, hpc⟩ := hall.eq_quiet hm
  have hfree : a.shared.gate.locked = false := by
    by_contra hl
    obtain ⟨k, hk⟩ := hg.holder.mp (by simpa using hl)
    rw [hpc k] at hk
    exact hk
  have hrest : (peerProgram w).code (a.pc i) = .rest := by
    rw [hpc i]
    rfl
  let b : PeerSections ι := { a with pc := Function.update a.pc i .scheduling }
  obtain ⟨r, hruns, hend⟩ := @schedule_alone ι _ w b i th.rib.journal (by simp [b])
    hshows.journal (Threads.reachable_tracked hreach).1 hfree (hg.free hfree)
  obtain ⟨n, hn⟩ := hruns.accesses
  have hflush : (flushTurns i n).foldlM (peerProgram w).accessStep (quiet a) = r.map quiet := by
    rw [flushTurns, List.foldlM_cons, accessStep_call hrest]
    exact hn
  refine ⟨n, ?_⟩
  rw [hflush]
  cases hend with
  | overflow hlt =>
    refine .inl ⟨?_, rfl⟩
    show 4096 < ((a.cell .journal).jwrite + big - (a.cell .journal).jread) % big
    rw [hshows.journal]
    rw [Ring.queue_length] at hlt
    exact hlt
  | unsent block halt hblock hstops =>
    exact .inr (.inl ⟨th.rib.journal, block, halt, hshows.journal, hblock, hstops, rfl⟩)
  | finished t j ht hj hq hheads =>
    refine .inr (.inr ⟨quiet t, rfl, ?_⟩)
    obtain ⟨m, hm⟩ := hruns
    have hwhole : (whole ++ flushTurns i m).foldlM (peerProgram w).sectionStep peersInit =
        .ok t := by
      rw [List.foldlM_append, hrun]
      change (flushTurns i m).foldlM (peerProgram w).sectionStep a = .ok t
      rw [flushTurns, List.foldlM_cons, sectionStep_call hrest]
      exact hm
    refine finished_of_empty hwhole ?_ hj hq hheads
    intro k
    rw [ht]
    by_cases e : k = i
    · simp [e]
    · simp [b, e, hpc]

end

/-- Thread 1 pushes index 8 after the last pull of thread 0 and finds `phase3_spinlock` taken. -/
def leftBehind : List (Turn (Fin 2) PeerCall) :=
  .call 0 (announcing 7 (by decide) ⟨256, by decide⟩) :: List.replicate 28 (.go 0) ++
    .call 1 (announcing 8 (by decide) ⟨512, by decide⟩) :: List.replicate 13 (.go 1) ++
      List.replicate 3 (.go 0)

theorem leftBehind_runs :
    ∃ s, leftBehind.foldlM (peerProgram plainSending).accessStep (quiet peersInit) = .ok s ∧
      AllOutside s ∧ (s.cell .journal).jread = 1 ∧ (s.cell .journal).jwrite = 2 ∧
      (s.cell .journal).lrjournal 1 = 8 ∧ headsOf s.cell 8 = 512 := by
  have hr : (leftBehind.foldlM (peerProgram plainSending).accessStep (quiet peersInit)).map
      (fun s => (decide (s.position 0 = .between .outside),
        decide (s.position 1 = .between .outside), (s.cell .journal).jread,
        (s.cell .journal).jwrite, (s.cell .journal).lrjournal 1, headsOf s.cell 8)) =
      .ok (true, true, 1, 2, 8, 512) := by decide +kernel
  obtain ⟨s, hs, e⟩ := exists_of_map_eq_ok hr
  simp only [Prod.mk.injEq, decide_eq_true_eq] at e
  obtain ⟨h0, h1, hread, hwrite, hcell, hhead⟩ := e
  refine ⟨s, hs, ?_, hread, hwrite, hcell, hhead⟩
  intro i
  match i with
  | 0 => exact h0
  | 1 => exact h1

/-- A block with a route and one of the sixteen prefixes is sent. -/
theorem plainSending_sends {p : Ptr} (hp : p ≠ null) {a : Nat} (ha : a < 16) (halt : Halt) :
    ¬ plainSending.Stops ⟨p, [a]⟩ halt := by
  rintro ⟨e, he⟩
  have hemit : Emittable plainSending.outlet (plainSending.heap e.blocks.length)
      (plainSending.tables e.blocks.length) ⟨p, [a]⟩ := by
    refine ⟨?_, ?_, ?_, ?_⟩
    · intro b hb
      rw [List.mem_singleton.mp hb]
      exact .inl ha
    · intro _ pg hpg
      obtain rfl := List.mem_singleton.mp hpg
      exact ⟨.ibgp, rfl, show OriginFirst (blockRoute plainBlock).block by decide +kernel⟩
    · intro pg hpg hfile
      obtain rfl := List.mem_singleton.mp hpg
      cases hfile
    · rw [InTxBuffer, if_neg hp.symm]
      intro _ _ kind _
      have hroute : exportLength kind (blockRoute plainBlock) ≤ 64 := by
        cases kind <;> decide +kernel
      have hword : ∀ a < 16, nlriSize (256 + a) ≤ 64 := by decide
      have hroom := Nat.add_le_add (Nat.add_le_add_left hroute 23) (hword a ha)
      exact Nat.le_trans hroom (by decide)
  obtain ⟨e', hsent, _⟩ := emitBlock_returns hemit e
  cases hsent.symm.trans he

/-- The flush sends index 8. -/
theorem last_flush_leftBehind :
    ∃ s n t, leftBehind.foldlM (peerProgram plainSending).accessStep (quiet peersInit) = .ok s ∧
      (flushTurns 0 n).foldlM (peerProgram plainSending).accessStep s = .ok t ∧ Finished s t := by
  obtain ⟨s, hs, hall, hread, hwrite, hcell, hhead⟩ := leftBehind_runs
  obtain ⟨n, hn⟩ := last_flush plainSending leftBehind s hs hall 0
  rcases hn with hfull | ⟨j, b, halt, hj, hb, hstops, _⟩ | ⟨t, ht, hfinished⟩
  · rw [hread, hwrite] at hfull
    exact absurd hfull.1 (by decide)
  · rw [hj] at hread hwrite hcell
    change j.rd = 1 at hread
    change j.wr = 2 at hwrite
    have hqueue : j.queue = [8] := by
      have hsize : j.size = 1 := by
        rw [Ring.size, hread, hwrite]
        rfl
      rw [Ring.queue, hsize, hread]
      change [j.cell 1] = [8]
      rw [← hcell]
      rfl
    have hblock : blocksOf (headsOf s.cell) [8] = [⟨512, [8]⟩] := by
      rw [blocksOf_const (by simp), hhead]
    rw [hqueue, hblock] at hb
    rw [List.mem_singleton.mp hb] at hstops
    exact absurd hstops (plainSending_sends (by decide) (by decide) halt)
  · exact ⟨s, n, t, hs, ht, hfinished⟩

end FastParse
