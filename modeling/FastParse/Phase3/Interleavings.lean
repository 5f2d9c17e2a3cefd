import FastParse.Phase3.PeerProgram

namespace FastParse

open Framework

namespace PeerPc

def queues : PeerPc → Option Nat
  | pushing a _ => some a
  | _ => none

def pulled : PeerPc → Option Nat
  | reading a _ => some a
  | _ => none

/-- The blocks that a thread has collected and not sent yet, newest first. -/
def collected : PeerPc → List Block
  | draining block | reading _ block => block.toList
  | comparing a route2 block => ⟨route2, [a]⟩ :: block.toList
  | emitting block ahead => (ahead.map fun (a, route2) => ⟨route2, [a]⟩).toList ++ [block]
  | _ => []

end PeerPc

/-- A pull keeps the block, and the index if there is one. -/
theorem afterPull_spec (block : Option Block) (a : Nat) :
    ((afterPull block a).Holding ∧ (afterPull block a).Counted) ∧
    (afterPull block a).queues = none ∧
    (afterPull block a).pulled = (if a = journalEmpty then none else some a) ∧
    (afterPull block a).collected = block.toList := by
  by_cases ha : a = journalEmpty
  · subst ha
    cases block <;> exact ⟨⟨trivial, trivial⟩, rfl, rfl, rfl⟩
  · have hne : journalEmpty ≠ a := Ne.symm ha
    rw [if_neg ha]
    unfold afterPull
    rw [if_pos hne]
    exact ⟨⟨trivial, trivial⟩, rfl, rfl, rfl⟩

/-- The steps that no lock protects: the trylock, and those that only the holder of
`phase3_spinlock` takes. -/
inductive Phase3Step (g : Phase3Vars) : PeerPc → Phase3Vars → PeerPc → Prop
  | busy : g.gate.locked = true → Phase3Step g .scheduling g .outside
  | locked : g.gate.locked = false →
      Phase3Step g .scheduling { g with gate := ⟨true, g.gate.debug⟩ } .entering
  | entered : g.gate.debug = 0 →
      Phase3Step g .entering { g with gate := ⟨g.gate.locked, 1⟩ } (.draining none)
  | first (a : Nat) (route : Ptr) :
      Phase3Step g (.comparing a route none) g (.draining (some ⟨route, [a]⟩))
  | joined (a : Nat) (b : Block) : b.indices.length < 4096 →
      Phase3Step g (.comparing a b.route (some b)) g
        (.draining (some ⟨b.route, b.indices ++ [a]⟩))
  | differs (a : Nat) (route : Ptr) (b : Block) : route ≠ b.route →
      Phase3Step g (.comparing a route (some b)) g (.emitting b (some (a, route)))
  | emitted (b : Block) (ahead : Option (Nat × Ptr)) (egress : Egress) :
      egress.blocks = b :: g.egress.blocks →
      Phase3Step g (.emitting b ahead) { g with egress } (afterBlock ahead)
  | left : g.gate.debug = 1 →
      Phase3Step g .leaving { g with gate := ⟨g.gate.locked, 0⟩ } .unlocking
  | unlocked : Phase3Step g .unlocking { g with gate := ⟨false, g.gate.debug⟩ } .outside

theorem atomic_phase3Step {w : Sending} {g g' : Phase3Vars} {pc pc' : PeerPc}
    {f : Phase3Vars → Exec (Phase3Vars × PeerPc)} (hc : (peerProgram w).code pc = .atomic f)
    (h : f g = .ok (g', pc')) : Phase3Step g pc g' pc' := by
  cases pc with
  | scheduling =>
    cases hc
    rw [trylock] at h
    split_ifs at h with hl
    · cases h
      exact .busy hl
    · cases h
      exact .locked (by simpa using hl)
  | entering =>
    cases hc
    rw [enterPhase3, assert_bind_ok] at h
    obtain ⟨hd, h⟩ := h
    cases h
    rw [← hd]
    exact .entered hd.symm
  | comparing a route2 block =>
    cases hc
    cases block with
    | none =>
      cases h
      exact .first a route2
    | some b =>
      simp only [compareRoutes] at h
      split_ifs at h with e
      · rw [assert_bind_ok] at h
        obtain ⟨hlt, h⟩ := h
        cases h
        subst e
        exact .joined a b hlt
      · cases h
        exact .differs a route2 b e
  | emitting b ahead =>
    cases hc
    simp only [emitCollected, bind_eq_ok] at h
    obtain ⟨egress, he, h⟩ := h
    cases h
    exact .emitted b ahead egress (emitBlock_ok he).2
  | leaving =>
    cases hc
    rw [leavePhase3, assert_bind_ok] at h
    obtain ⟨hd, h⟩ := h
    cases h
    rw [← hd]
    exact .left hd.symm
  | unlocking =>
    cases hc
    cases h
    exact .unlocked
  | _ => cases hc

inductive PeerMoved {ι : Type} [DecidableEq ι] (s : PeerSections ι) :
    Turn ι PeerCall → PeerSections ι → Prop
  | idle (turn : Turn ι PeerCall) : PeerMoved s turn s
  | called (i : ι) (c : PeerCall) : s.pc i = .outside →
      PeerMoved s (.call i c) { s with pc := Function.update s.pc i (peerEnter c) }
  | updated (i : ι) (c : LocribCall) : s.pc i = .updating c →
      PeerMoved s (.go i) { s with
        cell := Function.update s.cell (.entry c.addrref)
          (locribSection c.tb (s.cell (.entry c.addrref)) c.new.1 c.update c.junk).1
        pc := Function.update s.pc i
          (if (locribSection c.tb (s.cell (.entry c.addrref)) c.new.1 c.update c.junk).2
            then .outside else .pushing c.addrref c.eobFlag) }
  | pushed (i : ι) (a : Nat) (eobFlag : Bool) (j j' : Journal) : s.pc i = .pushing a eobFlag →
      s.cell .journal = journalVars j → locribjPush j a = .ok j' →
      PeerMoved s (.go i) { s with
        cell := Function.update s.cell .journal (journalVars j')
        pc := Function.update s.pc i (if eobFlag then .scheduling else .outside) }
  | pulled (i : ι) (block : Option Block) (j : Journal) : s.pc i = .draining block →
      s.cell .journal = journalVars j →
      PeerMoved s (.go i) { s with
        cell := Function.update s.cell .journal (journalVars (locribjPull j).2)
        pc := Function.update s.pc i (afterPull block (locribjPull j).1) }
  | read (i : ι) (a : Nat) (block : Option Block) : s.pc i = .reading a block →
      PeerMoved s (.go i) { s with
        cell := Function.update s.cell (.entry a) { s.cell (.entry a) with pushFlag := false }
        pc := Function.update s.pc i (.comparing a (s.cell (.entry a)).head block) }
  | phase3 (i : ι) (g : Phase3Vars) (pc : PeerPc) : Phase3Step s.shared (s.pc i) g pc →
      PeerMoved s (.go i) { s with shared := g, pc := Function.update s.pc i pc }

theorem peerStep_moved {ι : Type} [DecidableEq ι] {w : Sending} {s s' : PeerSections ι}
    {turn : Turn ι PeerCall} (hj : ∃ j, s.cell .journal = journalVars j)
    (h : (peerProgram w).sectionStep s turn = .ok s') : PeerMoved s turn s' := by
  cases turn with
  | call i c =>
    cases hpc : s.pc i with
    | outside =>
      simp only [ThreadProgram.sectionStep, hpc, peerProgram] at h
      cases h
      exact .called i c hpc
    | _ =>
      simp only [ThreadProgram.sectionStep, hpc, peerProgram] at h
      cases h
      exact .idle _
  | go i =>
    have hatomic {f : Phase3Vars → Exec (Phase3Vars × PeerPc)}
        (hc : (peerProgram w).code (s.pc i) = .atomic f) : PeerMoved s (.go i) s' := by
      simp only [ThreadProgram.sectionStep, hc, bind_eq_ok] at h
      obtain ⟨⟨g, pc⟩, hf, h⟩ := h
      cases h
      exact .phase3 i g pc (atomic_phase3Step hc hf)
    cases hpc : s.pc i with
    | outside =>
      simp only [ThreadProgram.sectionStep, hpc, peerProgram] at h
      cases h
      exact .idle _
    | updating c =>
      simp only [ThreadProgram.sectionStep, hpc, peerProgram, locribAccesses_run] at h
      cases h
      exact .updated i c hpc
    | pushing a eobFlag =>
      obtain ⟨j, hj⟩ := hj
      simp only [ThreadProgram.sectionStep, hpc, peerProgram, hj, pushAccesses_run] at h
      cases hp : locribjPush j a with
      | error e =>
        rw [hp] at h
        cases h
      | ok j' =>
        rw [hp] at h
        cases h
        exact .pushed i a eobFlag j j' hpc hj hp
    | draining block =>
      obtain ⟨j, hj⟩ := hj
      simp only [ThreadProgram.sectionStep, hpc, peerProgram, hj, pullAccesses_run] at h
      cases h
      exact .pulled i block j hpc hj
    | reading a block =>
      simp only [ThreadProgram.sectionStep, hpc, peerProgram, readAndClearAccesses_run] at h
      cases h
      exact .read i a block hpc
    | _ => exact hatomic (by rw [hpc]; rfl)

/-- `phase3_spinlock` has one holder, and `phase3_debug` counts it between its two
assertions. -/
structure PeersGuarded {ι : Type} (s : PeerSections ι) : Prop where
  holder : s.shared.gate.locked = true ↔ ∃ i, (s.pc i).Holding
  unique : ∀ i j, (s.pc i).Holding → (s.pc j).Holding → i = j
  counted : ∀ i, (s.pc i).Holding → s.shared.gate.debug = if (s.pc i).Counted then 1 else 0
  free : s.shared.gate.locked = false → s.shared.gate.debug = 0

namespace PeersGuarded

variable {ι : Type} [DecidableEq ι] {s : PeerSections ι}

omit [DecidableEq ι] in
theorem init : PeersGuarded (peersInit : PeerSections ι) := by
  refine ⟨?_, ?_, ?_, fun _ => rfl⟩
  · simp [peersInit, gateInit, PeerPc.Holding]
  · intro i j hi
    exact absurd hi id
  · intro i hi
    exact absurd hi id

/-- A step that neither takes nor gives back the lock. -/
theorem keep (h : PeersGuarded s) {i : ι} {pc : PeerPc} {g : Phase3Vars}
    (cell : ∀ k : SpinLock, k.Vars) (hp : pc.Holding ↔ (s.pc i).Holding)
    (hl : g.gate.locked = s.shared.gate.locked)
    (hd : pc.Holding → g.gate.debug = if pc.Counted then 1 else 0)
    (hfree : ¬ pc.Holding → g = s.shared) :
    PeersGuarded ⟨cell, g, Function.update s.pc i pc⟩ := by
  have hold : ∀ j, (Function.update s.pc i pc j).Holding ↔ (s.pc j).Holding := by
    intro j
    by_cases e : j = i
    · rw [e, Function.update_self]
      exact hp
    · rw [Function.update_of_ne e]
  refine ⟨?_, ?_, ?_, ?_⟩
  · simp only [hl, hold]
    exact h.holder
  · intro j k hj hk
    exact h.unique j k ((hold j).mp hj) ((hold k).mp hk)
  · intro j hj
    by_cases e : j = i
    · subst e
      simp only [Function.update_self] at hj ⊢
      exact hd hj
    · have hj' := (hold j).mp hj
      have hi : ¬ pc.Holding := fun hi => e (h.unique j i hj' (hp.mp hi))
      simp only [Function.update_of_ne e, hfree hi]
      exact h.counted j hj'
  · intro hl'
    have hi : ¬ pc.Holding := by
      intro hi
      have hl'' := h.holder.mpr ⟨i, hp.mp hi⟩
      rw [← hl, hl'] at hl''
      cases hl''
    simp only [hfree hi] at hl' ⊢
    exact h.free hl'

theorem lock (h : PeersGuarded s) (i : ι) (hl : s.shared.gate.locked = false) :
    PeersGuarded { s with
      shared := { s.shared with gate := ⟨true, s.shared.gate.debug⟩ }
      pc := Function.update s.pc i .entering } := by
  have hnone : ∀ j, ¬ (s.pc j).Holding := by
    intro j hj
    have hl' := h.holder.mpr ⟨j, hj⟩
    rw [hl] at hl'
    cases hl'
  have honly : ∀ j, (Function.update s.pc i .entering j).Holding → j = i := by
    intro j hj
    by_contra e
    rw [Function.update_of_ne e] at hj
    exact hnone j hj
  refine ⟨?_, ?_, ?_, ?_⟩
  · simp only [true_iff]
    refine ⟨i, ?_⟩
    rw [Function.update_self]
    trivial
  · intro j k hj hk
    exact (honly j hj).trans (honly k hk).symm
  · intro j hj
    obtain rfl := honly j hj
    simpa [PeerPc.Counted] using h.free hl
  · intro hl'
    cases hl'

theorem unlock (h : PeersGuarded s) {i : ι} (hi : s.pc i = .unlocking) :
    PeersGuarded { s with
      shared := { s.shared with gate := ⟨false, s.shared.gate.debug⟩ }
      pc := Function.update s.pc i .outside } := by
  have hhold : (s.pc i).Holding := by
    rw [hi]
    trivial
  have hnone : ∀ j, ¬ (Function.update s.pc i .outside j).Holding := by
    intro j hj
    by_cases e : j = i
    · rw [e, Function.update_self] at hj
      exact hj
    · rw [Function.update_of_ne e] at hj
      exact e (h.unique j i hj hhold)
  refine ⟨?_, ?_, ?_, ?_⟩
  · simp [hnone]
  · intro j k hj
    exact absurd hj (hnone j)
  · intro j hj
    exact absurd hj (hnone j)
  · intro _
    have hc := h.counted i hhold
    simpa [hi, PeerPc.Counted] using hc

theorem moved (h : PeersGuarded s) {s' : PeerSections ι} {turn : Turn ι PeerCall}
    (hm : PeerMoved s turn s') : PeersGuarded s' := by
  cases hm with
  | idle => exact h
  | called i c hi => 
    refine h.keep s.cell ?_ rfl ?_ fun _ => rfl
    · rw [hi]
      cases c <;> exact Iff.rfl
    · cases c <;> exact fun hp => absurd hp id
  | updated i c hi =>
    refine h.keep _ ?_ rfl ?_ fun _ => rfl
    · rw [hi]
      split_ifs <;> exact Iff.rfl
    · split_ifs <;> exact fun hp => absurd hp id
  | pushed i a eobFlag j j' hi hj hp =>
    refine h.keep _ ?_ rfl ?_ fun _ => rfl
    · rw [hi]
      split_ifs <;> exact Iff.rfl
    · split_ifs <;> exact fun hp => absurd hp id
  | pulled i block j hi hj =>
    obtain ⟨⟨hhold, hcounted⟩, _⟩ := afterPull_spec block (locribjPull j).1
    have hd := h.counted i (by rw [hi]; trivial)
    refine h.keep _ ?_ rfl ?_ fun hn => absurd hhold hn
    · rw [hi]
      exact ⟨fun _ => trivial, fun _ => hhold⟩
    · intro _
      rw [if_pos hcounted]
      simpa [hi, PeerPc.Counted] using hd
  | read i a block hi =>
    have hd := h.counted i (by rw [hi]; trivial)
    refine h.keep _ ?_ rfl ?_ fun _ => rfl
    · rw [hi]
      exact Iff.rfl
    · intro _
      simpa [hi, PeerPc.Counted] using hd
  | phase3 i g pc hst =>
    generalize hi : s.pc i = pc0 at hst
    -- a step of the holder that leaves it the lock
    have inner {g : Phase3Vars} {pc : PeerPc} (hpc : pc.Holding) (hpc0 : pc0.Holding)
        (hl : g.gate.locked = s.shared.gate.locked)
        (hd : s.shared.gate.debug = (if pc0.Counted then 1 else 0) →
          g.gate.debug = if pc.Counted then 1 else 0) :
        PeersGuarded { s with shared := g, pc := Function.update s.pc i pc } := by
      rw [← hi] at hpc0 hd
      exact h.keep s.cell ⟨fun _ => hpc0, fun _ => hpc⟩ hl (fun _ => hd (h.counted i hpc0))
        fun hn => absurd hpc hn
    cases hst with
    | busy hl =>
      refine h.keep s.cell ?_ rfl (fun hp => absurd hp id) fun _ => rfl
      rw [hi]
      exact Iff.rfl
    | locked hl => exact h.lock i hl
    | entered hd => exact inner trivial trivial rfl fun _ => rfl
    | first a route => exact inner trivial trivial rfl id
    | joined a b hlt => exact inner trivial trivial rfl id
    | differs a route b hne => exact inner trivial trivial rfl id
    | emitted b ahead egress => cases ahead <;> exact inner trivial trivial rfl id
    | left hd => exact inner trivial trivial rfl fun _ => rfl
    | unlocked => exact h.unlock hi

end PeersGuarded

theorem lastSent_single (route : Ptr) (a : Nat) (blocks : List Block) :
    lastSent (⟨route, [a]⟩ :: blocks) = Function.update (lastSent blocks) a route := by
  funext k
  by_cases e : k = a
  · simp [lastSent, lastBlock, e]
  · simp [lastSent, lastBlock, e]

theorem lastSent_joined (b : Block) (a : Nat) (blocks : List Block) :
    lastSent (⟨b.route, b.indices ++ [a]⟩ :: blocks) =
      Function.update (lastSent (b :: blocks)) a b.route := by
  funext k
  by_cases e : k = a
  · simp [lastSent, lastBlock, e]
  · by_cases hk : k ∈ b.indices <;> simp [lastSent, lastBlock, e, hk]

/-- The sections seen as producers and one consumer: the holder of `phase3_spinlock` is the
consumer, and what it has read last of an index is the route of the newest block with it. -/
structure Shows {ι : Type} (s : PeerSections ι) (th : Threads ι) : Prop where
  entries : ∀ a, s.cell (.entry a) = th.rib.locrib a
  journal : s.cell .journal = journalVars th.rib.journal
  producer : th.producer = fun i => (s.pc i).queues
  consumer : ∀ i, (s.pc i).Holding → th.consumer = (s.pc i).pulled
  idle : s.shared.gate.locked = false → th.consumer = none
  read : ∀ i, (s.pc i).Holding →
    th.lastRead = lastSent ((s.pc i).collected ++ s.shared.egress.blocks)
  sent : s.shared.gate.locked = false → th.lastRead = lastSent s.shared.egress.blocks

theorem journalVars_inj {j j' : Journal} (h : journalVars j = journalVars j') : j = j' := by
  obtain ⟨cell, rd, wr, _, _⟩ := j
  obtain ⟨cell', rd', wr', _, _⟩ := j'
  cases h
  rfl

namespace Shows

variable {ι : Type} [DecidableEq ι] {s : PeerSections ι} {th : Threads ι}

omit [DecidableEq ι] in
theorem init : Shows (peersInit : PeerSections ι) Threads.init :=
  ⟨fun _ => rfl, rfl, rfl, fun _ hi => absurd hi id, fun _ => rfl, fun _ hi => absurd hi id,
    fun _ => rfl⟩

theorem producer_update (h : Shows s th) (i : ι) (pc : PeerPc) :
    Function.update th.producer i pc.queues =
      fun j => (Function.update s.pc i pc j).queues := by
  funext j
  by_cases e : j = i
  · simp [e]
  · simp [e, h.producer]

theorem producer_same (h : Shows s th) {i : ι} {pc : PeerPc}
    (hq : pc.queues = (s.pc i).queues) : Function.update th.producer i pc.queues = th.producer := by
  rw [hq, h.producer]
  exact Function.update_eq_self i _

omit [DecidableEq ι] in
theorem entries_update (h : Shows s th) (a : Nat) (lre : LocribEntry) (k : Nat) :
    Function.update s.cell (.entry a) lre (.entry k) = Function.update th.rib.locrib a lre k := by
  by_cases e : k = a
  · subst e
    simp
  · have hne : SpinLock.entry k ≠ .entry a := fun he => e (SpinLock.entry.inj he)
    simp [e, hne, h.entries]

/-- A step of a thread without `phase3_spinlock`, which may take it. -/
theorem outsider (h : Shows s th) {i : ι} (pc : PeerPc) {cell : ∀ k : SpinLock, k.Vars}
    (g : Phase3Vars) (rib : Rib) (hi : ¬ (s.pc i).Holding)
    (hentries : ∀ a, cell (.entry a) = rib.locrib a)
    (hjournal : cell .journal = journalVars rib.journal) (hpulled : pc.pulled = none)
    (hlock : pc.Holding → s.shared.gate.locked = false ∧ pc.collected = [])
    (hblocks : g.egress.blocks = s.shared.egress.blocks)
    (hfree : g.gate.locked = false → s.shared.gate.locked = false) :
    Shows ⟨cell, g, Function.update s.pc i pc⟩
      ⟨rib, Function.update th.producer i pc.queues, th.consumer, th.lastRead⟩ := by
  refine ⟨hentries, hjournal, h.producer_update i pc, ?_, fun hl => h.idle (hfree hl), ?_, ?_⟩
  · intro j hj
    by_cases e : j = i
    · subst e
      simp only [Function.update_self] at hj ⊢
      rw [hpulled]
      exact h.idle (hlock hj).1
    · simp only [Function.update_of_ne e] at hj ⊢
      exact h.consumer j hj
  · intro j hj
    by_cases e : j = i
    · subst e
      simp only [Function.update_self] at hj ⊢
      rw [(hlock hj).2, hblocks]
      exact h.sent (hlock hj).1
    · simp only [Function.update_of_ne e, hblocks] at hj ⊢
      exact h.read j hj
  · intro hl
    rw [hblocks]
    exact h.sent (hfree hl)

/-- A step of the thread with `phase3_spinlock`, which may give it back. -/
theorem holder (h : Shows s th) (hg : PeersGuarded s) {i : ι} (pc : PeerPc)
    {cell : ∀ k : SpinLock, k.Vars} (g : Phase3Vars) (rib : Rib) {lastRead : Nat → Ptr}
    (hi : (s.pc i).Holding) (hentries : ∀ a, cell (.entry a) = rib.locrib a)
    (hjournal : cell .journal = journalVars rib.journal)
    (hqueues : pc.queues = (s.pc i).queues)
    (hread : lastRead = lastSent (pc.collected ++ g.egress.blocks))
    (hfree : g.gate.locked = false → pc.pulled = none ∧ pc.collected = []) :
    Shows ⟨cell, g, Function.update s.pc i pc⟩ ⟨rib, th.producer, pc.pulled, lastRead⟩ := by
  have hother {j : ι} (hj : (Function.update s.pc i pc j).Holding) : j = i := by
    by_contra e
    rw [Function.update_of_ne e] at hj
    exact e (hg.unique j i hj hi)
  refine ⟨hentries, hjournal, ?_, ?_, fun hl => (hfree hl).1, ?_, ?_⟩
  · rw [← h.producer_update i pc, h.producer_same hqueues]
  · intro j hj
    obtain rfl := hother hj
    simp
  · intro j hj
    obtain rfl := hother hj
    simpa using hread
  · intro hl
    rw [hread, (hfree hl).2]
    rfl

omit [DecidableEq ι] in
theorem holding_locked (hg : PeersGuarded s) {i : ι} (hi : (s.pc i).Holding) :
    s.shared.gate.locked ≠ false := by
  rw [hg.holder.mpr ⟨i, hi⟩]
  decide

theorem phase3 (h : Shows s th) (hg : PeersGuarded s) {i : ι} {g : Phase3Vars} {pc : PeerPc}
    (hst : Phase3Step s.shared (s.pc i) g pc) :
    Shows { s with shared := g, pc := Function.update s.pc i pc } th := by
  generalize hi : s.pc i = pc0 at hst
  have out {g : Phase3Vars} {pc : PeerPc} (hpc0 : ¬ pc0.Holding) (hqueues : pc.queues = pc0.queues)
      (hpulled : pc.pulled = none)
      (hlock : pc.Holding → s.shared.gate.locked = false ∧ pc.collected = [])
      (hblocks : g.egress.blocks = s.shared.egress.blocks)
      (hfree : g.gate.locked = false → s.shared.gate.locked = false) :
      Shows { s with shared := g, pc := Function.update s.pc i pc } th := by
    rw [← hi] at hpc0 hqueues
    have hs := h.outsider pc g th.rib hpc0 h.entries h.journal hpulled hlock hblocks hfree
    rwa [h.producer_same hqueues] at hs
  have inner {g : Phase3Vars} {pc : PeerPc} (hpc0 : pc0.Holding) (hqueues : pc.queues = pc0.queues)
      (hpulled : pc.pulled = pc0.pulled)
      (hread : lastSent (pc0.collected ++ s.shared.egress.blocks) =
        lastSent (pc.collected ++ g.egress.blocks))
      (hfree : g.gate.locked = s.shared.gate.locked ∨ pc = .outside) :
      Shows { s with shared := g, pc := Function.update s.pc i pc } th := by
    rw [← hi] at hpc0 hqueues hpulled hread
    have hs := h.holder hg pc g th.rib hpc0 h.entries h.journal hqueues
      ((h.read i hpc0).trans hread) ?_
    · rwa [hpulled, ← h.consumer i hpc0] at hs
    · intro hl
      rcases hfree with e | rfl
      · exact absurd (e ▸ hl) (holding_locked hg hpc0)
      · exact ⟨rfl, rfl⟩
  cases hst with
  | busy hl => exact out id rfl rfl (fun hp => absurd hp id) rfl id
  | locked hl => exact out id rfl rfl (fun _ => ⟨hl, rfl⟩) rfl fun e => by cases e
  | entered hd => exact inner trivial rfl rfl rfl (.inl rfl)
  | first a route => exact inner trivial rfl rfl rfl (.inl rfl)
  | joined a b hlt =>
    refine inner trivial rfl rfl ?_ (.inl rfl)
    exact (lastSent_single b.route a _).trans (lastSent_joined b a _).symm
  | differs a route b hne => exact inner trivial rfl rfl rfl (.inl rfl)
  | emitted b ahead egress hblocks =>
    have hread (l : List Block) : lastSent (l ++ b :: s.shared.egress.blocks) =
        lastSent (l ++ egress.blocks) := by rw [hblocks]
    cases ahead with
    | none => exact inner trivial rfl rfl (hread []) (.inl rfl)
    | some entry => exact inner trivial rfl rfl (hread [_]) (.inl rfl)
  | left hd => exact inner trivial rfl rfl rfl (.inl rfl)
  | unlocked => exact inner trivial rfl rfl rfl (.inr rfl)

theorem called (h : Shows s th) {i : ι} (c : PeerCall) (hi : s.pc i = .outside) :
    Shows { s with pc := Function.update s.pc i (peerEnter c) } th := by
  have hout : ¬ (s.pc i).Holding := by
    rw [hi]
    exact id
  have enters {pc : PeerPc} (hq : pc.queues = none) (hp : pc.pulled = none)
      (hh : ¬ pc.Holding) : Shows { s with pc := Function.update s.pc i pc } th := by
    have hs := h.outsider pc s.shared th.rib hout h.entries h.journal hp
      (fun hp => absurd hp hh) rfl id
    have e : pc.queues = (s.pc i).queues := by
      rw [hq, hi]
      rfl
    rwa [h.producer_same e] at hs
  cases c with
  | locrib c => exact enters rfl rfl id
  | schedulePhase3 => exact enters rfl rfl id

/-- The section of `locrib`. -/
theorem updated (h : Shows s th) {i : ι} {c : LocribCall} (hi : s.pc i = .updating c) :
    ∃ th', Threads.Step th th' ∧ Shows { s with
      cell := Function.update s.cell (.entry c.addrref)
        (locribSection c.tb (s.cell (.entry c.addrref)) c.new.1 c.update c.junk).1
      pc := Function.update s.pc i
        (if (locribSection c.tb (s.cell (.entry c.addrref)) c.new.1 c.update c.junk).2
          then .outside else .pushing c.addrref c.eobFlag) } th' := by
  have hidle : th.producer i = none := by
    rw [h.producer]
    simp [hi, PeerPc.queues]
  have hst := Threads.Step.update th i c.tb c.addrref c.new.1 c.update c.junk hidle
  rw [← h.entries c.addrref] at hst
  refine ⟨_, hst, ?_⟩
  generalize locribSection c.tb (s.cell (.entry c.addrref)) c.new.1 c.update c.junk = out
  have hqueues : (if out.2 then PeerPc.outside else .pushing c.addrref c.eobFlag).queues =
      if out.2 then none else some c.addrref := by
    split_ifs <;> rfl
  rw [← hqueues]
  refine h.outsider _ s.shared ⟨_, th.rib.journal⟩ (by rw [hi]; exact id) (h.entries_update _ _)
    h.journal ?_ ?_ rfl id
  · split_ifs <;> rfl
  · split_ifs <;> exact fun hp => absurd hp id

/-- The journal entry behind it. -/
theorem pushed (h : Shows s th) {i : ι} {a : Nat} {eobFlag : Bool} {j j' : Journal}
    (hi : s.pc i = .pushing a eobFlag) (hj : s.cell .journal = journalVars j)
    (hp : locribjPush j a = .ok j') :
    ∃ th', Threads.Step th th' ∧ Shows { s with
      cell := Function.update s.cell .journal (journalVars j')
      pc := Function.update s.pc i (if eobFlag then .scheduling else .outside) } th' := by
  obtain rfl := journalVars_inj (hj.symm.trans h.journal)
  have hqueued : th.producer i = some a := by
    rw [h.producer]
    simp [hi, PeerPc.queues]
  refine ⟨_, Threads.Step.push th i a j' hqueued hp, ?_⟩
  have hqueues : (if eobFlag then PeerPc.scheduling else .outside).queues = none := by
    split_ifs <;> rfl
  rw [← hqueues]
  refine h.outsider _ s.shared ⟨th.rib.locrib, j'⟩ (by rw [hi]; exact id) (fun k => h.entries k)
    rfl ?_ ?_ rfl id
  · split_ifs <;> rfl
  · split_ifs <;> exact fun hp => absurd hp id

/-- The holder of `phase3_spinlock` takes an entry off the journal, or finds it empty. -/
theorem pulled (h : Shows s th) (hg : PeersGuarded s) {i : ι} {block : Option Block} {j : Journal}
    (hi : s.pc i = .draining block) (hj : s.cell .journal = journalVars j) :
    ∃ th', Threads.Step th th' ∧ Shows { s with
      cell := Function.update s.cell .journal (journalVars (locribjPull j).2)
      pc := Function.update s.pc i (afterPull block (locribjPull j).1) } th' := by
  obtain rfl := journalVars_inj (hj.symm.trans h.journal)
  have hhold : (s.pc i).Holding := by
    rw [hi]
    trivial
  have hnone : th.consumer = none := by
    rw [h.consumer i hhold, hi]
    rfl
  refine ⟨_, Threads.Step.pull th hnone, ?_⟩
  obtain ⟨_, hqueues, hpulled, hcollected⟩ := afterPull_spec block (locribjPull th.rib.journal).1
  rw [← hpulled]
  refine h.holder hg _ s.shared ⟨th.rib.locrib, (locribjPull th.rib.journal).2⟩ hhold
    (fun k => h.entries k) rfl ?_ ?_ fun hl => absurd hl (holding_locked hg hhold)
  · rw [hqueues, hi]
    rfl
  · rw [hcollected, h.read i hhold, hi]
    rfl

/-- It reads the entry it has taken. -/
theorem readCleared (h : Shows s th) (hg : PeersGuarded s) {i : ι} {a : Nat}
    {block : Option Block} (hi : s.pc i = .reading a block) :
    ∃ th', Threads.Step th th' ∧ Shows { s with
      cell := Function.update s.cell (.entry a) { s.cell (.entry a) with pushFlag := false }
      pc := Function.update s.pc i (.comparing a (s.cell (.entry a)).head block) } th' := by
  have hhold : (s.pc i).Holding := by
    rw [hi]
    trivial
  have htaken : th.consumer = some a := by
    rw [h.consumer i hhold, hi]
    rfl
  refine ⟨_, Threads.Step.readAndClear th a htaken, ?_⟩
  refine h.holder hg (.comparing a (s.cell (.entry a)).head block) s.shared
    (readAndClear th.rib a).2 hhold ?_ h.journal ?_ ?_
    fun hl => absurd hl (holding_locked hg hhold)
  · intro k
    rw [h.entries_update, h.entries]
    rfl
  · rw [hi]
    rfl
  · have e : (readAndClear th.rib a).1 = (s.cell (.entry a)).head := by
      rw [h.entries]
      rfl
    rw [h.read i hhold, hi, e]
    exact (lastSent_single _ a _).symm

/-- Every step is a step of the producers and the consumer, or changes nothing of theirs. -/
theorem moved (h : Shows s th) (hg : PeersGuarded s) {s' : PeerSections ι}
    {turn : Turn ι PeerCall} (hm : PeerMoved s turn s') :
    ∃ th', Relation.ReflTransGen Threads.Step th th' ∧ Shows s' th' := by
  have one {s' : PeerSections ι} (hstep : ∃ th', Threads.Step th th' ∧ Shows s' th') :
      ∃ th', Relation.ReflTransGen Threads.Step th th' ∧ Shows s' th' := by
    obtain ⟨th', hst, hs⟩ := hstep
    exact ⟨th', .single hst, hs⟩
  cases hm with
  | idle => exact ⟨th, .refl, h⟩
  | called i c hi => exact ⟨th, .refl, h.called c hi⟩
  | updated i c hi => exact one (h.updated hi)
  | pushed i a eobFlag j j' hi hj hp => exact one (h.pushed hi hj hp)
  | pulled i block j hi hj => exact one (h.pulled hg hi hj)
  | read i a block hi => exact one (h.readCleared hg hi)
  | phase3 i g pc hst => exact ⟨th, .refl, h.phase3 hg hst⟩

end Shows

/-- No section takes `phase3_spinlock` or gives it back. -/
theorem section_holding {w : Sending} {pc : PeerPc} {k : SpinLock}
    {body : Critical k.Vars Halt PeerPc}
    (hc : (peerProgram w).code pc = .locked k body) :
    body.Ends fun pc' => pc'.Holding ↔ pc.Holding := by
  cases pc with
  | updating c =>
    cases hc
    refine locribAccesses_ends fun pushFlag => ?_
    cases pushFlag <;> exact Iff.rfl
  | pushing a eobFlag =>
    cases hc
    apply pushAccesses_ends
    cases eobFlag <;> exact Iff.rfl
  | draining block =>
    cases hc
    exact pullAccesses_ends fun a => iff_true_intro (afterPull_spec block a).1.1
  | reading a block =>
    cases hc
    exact fun _ _ => Iff.rfl
  | _ => cases hc

theorem peers_reach {ι : Type} [DecidableEq ι] {w : Sending} {turns : List (Turn ι PeerCall)}
    {s : PeerSections ι} (hr : turns.foldlM (peerProgram w).sectionStep peersInit = .ok s) :
    PeersGuarded s ∧ ∃ th, Relation.ReflTransGen Threads.Step Threads.init th ∧ Shows s th := by
  refine run_keeps (I := fun s => PeersGuarded s ∧
    ∃ th, Relation.ReflTransGen Threads.Step Threads.init th ∧ Shows s th) ?_
    ⟨.init, _, .refl, .init⟩ hr
  intro s turn s' hs hst
  obtain ⟨hg, th, hreach, hshows⟩ := hs
  have hm := peerStep_moved ⟨_, hshows.journal⟩ hst
  obtain ⟨th', hsteps, hshows'⟩ := hshows.moved hg hm
  exact ⟨hg.moved hm, th', hreach.trans hsteps, hshows'⟩

end FastParse
