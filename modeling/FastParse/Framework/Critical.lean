import FastParse.Framework.Run
import Mathlib.Logic.Function.Basic

namespace FastParse.Framework

/-- A section under a lock: accesses to the cell that the lock protects, each of which may
store a new value and goes on with the old one. -/
inductive Critical (ν ε α : Type) where
  | done (a : α)
  | stop (e : ε)
  | access (store : ν → ν) (next : ν → Critical ν ε α)

namespace Critical

variable {ν ε α β : Type}

def run : Critical ν ε α → ν → Except ε (ν × α)
  | done a, v => .ok (v, a)
  | stop e, _ => .error e
  | access store next, v => (next v).run (store v)

def read (next : ν → Critical ν ε α) : Critical ν ε α := access id next

def write (store : ν → ν) (next : Critical ν ε α) : Critical ν ε α := access store fun _ => next

@[simp] theorem run_done (a : α) (v : ν) : (done a : Critical ν ε α).run v = .ok (v, a) := rfl

@[simp] theorem run_stop (e : ε) (v : ν) : (stop e : Critical ν ε α).run v = .error e := rfl

@[simp] theorem run_read (next : ν → Critical ν ε α) (v : ν) :
    (read next).run v = (next v).run v := rfl

@[simp] theorem run_write (store : ν → ν) (next : Critical ν ε α) (v : ν) :
    (write store next).run v = next.run (store v) := rfl

/-- Whatever the cell holds on the way, the section goes on with a value that meets `p`. -/
def Ends (p : α → Prop) : Critical ν ε α → Prop
  | done a => p a
  | stop _ => True
  | access _ next => ∀ v, (next v).Ends p

theorem Ends.run {p : α → Prop} {c : Critical ν ε α} {v v' : ν} {a : α} (h : c.Ends p)
    (hr : c.run v = .ok (v', a)) : p a := by
  induction c generalizing v with
  | done b =>
    cases hr
    exact h
  | stop e => cases hr
  | access store next ih => exact ih v (h v) hr

end Critical

/-- What a thread does next: nothing until it is called, one step on the shared data that no
lock protects, or a section under lock `k`. -/
inductive Action (κ : Type) (V : κ → Type) (G L ε : Type) where
  | rest
  | atomic (f : G → Except ε (G × L))
  | locked (k : κ) (body : Critical (V k) ε L)

/-- The threads run one program. `L` is where a thread stands between two actions, with its
local variables, and `C` what it can be called with. -/
structure ThreadProgram (κ : Type) (V : κ → Type) (G L C ε : Type) where
  enter : C → L
  code : L → Action κ V G L ε

/-- A thread at rest is called, or a thread takes its next step. -/
inductive Turn (ι C : Type) where
  | call (i : ι) (c : C)
  | go (i : ι)

/-- The state with each section as one step. -/
structure Sections (ι κ : Type) (V : κ → Type) (G L : Type) where
  cell : ∀ k, V k
  shared : G
  pc : ι → L

/-- Where a thread stands: between two actions, or under lock `k` with the rest of a section
before it. -/
inductive Position (κ : Type) (V : κ → Type) (L ε : Type) where
  | between (pc : L)
  | inside (k : κ) (rest : Critical (V k) ε L)

/-- The state with one access at a time. -/
structure Accesses (ι κ : Type) (V : κ → Type) (G L ε : Type) where
  cell : ∀ k, V k
  shared : G
  locked : κ → Bool
  position : ι → Position κ V L ε

namespace ThreadProgram

variable {ι κ : Type} {V : κ → Type} {G L C ε : Type} [DecidableEq ι] [DecidableEq κ]
variable (P : ThreadProgram κ V G L C ε)

def sectionStep (s : Sections ι κ V G L) : Turn ι C → Except ε (Sections ι κ V G L)
  | .call i c =>
    match P.code (s.pc i) with
    | .rest => return { s with pc := Function.update s.pc i (P.enter c) }
    | _ => return s
  | .go i =>
    match P.code (s.pc i) with
    | .rest => return s
    | .atomic f => do
      let (shared, pc) ← f s.shared
      return { s with shared, pc := Function.update s.pc i pc }
    | .locked k body => do
      let (v, pc) ← body.run (s.cell k)
      return { s with cell := Function.update s.cell k v, pc := Function.update s.pc i pc }

/-- A thread that finds the lock of its section taken spins. -/
def accessStep (s : Accesses ι κ V G L ε) : Turn ι C → Except ε (Accesses ι κ V G L ε)
  | .call i c =>
    match s.position i with
    | .between pc =>
      match P.code pc with
      | .rest => return { s with position := Function.update s.position i (.between (P.enter c)) }
      | _ => return s
    | .inside _ _ => return s
  | .go i =>
    match s.position i with
    | .between pc =>
      match P.code pc with
      | .rest => return s
      | .atomic f => do
        let (shared, pc) ← f s.shared
        return { s with shared, position := Function.update s.position i (.between pc) }
      | .locked k body =>
        if s.locked k then return s
        else return { s with
          locked := Function.update s.locked k true
          position := Function.update s.position i (.inside k body) }
    | .inside k (.done pc) => return { s with
        locked := Function.update s.locked k false
        position := Function.update s.position i (.between pc) }
    | .inside _ (.stop e) => throw e
    | .inside k (.access store next) => return { s with
        cell := Function.update s.cell k (store (s.cell k))
        position := Function.update s.position i (.inside k (next (s.cell k))) }

/-- Everything a step can do that takes one access at a time. -/
inductive Moved (s : Accesses ι κ V G L ε) : Turn ι C → Accesses ι κ V G L ε → Prop
  | idle (turn : Turn ι C) : Moved s turn s
  | called (i : ι) (c : C) (pc : L) : s.position i = .between pc → P.code pc = .rest →
      Moved s (.call i c)
        { s with position := Function.update s.position i (.between (P.enter c)) }
  | stepped (i : ι) (pc pc' : L) (f : G → Except ε (G × L)) (g : G) :
      s.position i = .between pc → P.code pc = .atomic f → f s.shared = .ok (g, pc') →
      Moved s (.go i)
        { s with shared := g, position := Function.update s.position i (.between pc') }
  | acquired (i : ι) (pc : L) (k : κ) (body : Critical (V k) ε L) :
      s.position i = .between pc → P.code pc = .locked k body → s.locked k = false →
      Moved s (.go i) { s with
        locked := Function.update s.locked k true
        position := Function.update s.position i (.inside k body) }
  | accessed (i : ι) (k : κ) (store : V k → V k) (next : V k → Critical (V k) ε L) :
      s.position i = .inside k (.access store next) →
      Moved s (.go i) { s with
        cell := Function.update s.cell k (store (s.cell k))
        position := Function.update s.position i (.inside k (next (s.cell k))) }
  | released (i : ι) (k : κ) (pc : L) : s.position i = .inside k (.done pc) →
      Moved s (.go i) { s with
        locked := Function.update s.locked k false
        position := Function.update s.position i (.between pc) }

variable {P}

theorem accessStep_moved {s s' : Accesses ι κ V G L ε} {turn : Turn ι C}
    (h : P.accessStep s turn = .ok s') : P.Moved s turn s' := by
  cases turn with
  | call i c =>
    cases hp : s.position i with
    | between pc =>
      cases hc : P.code pc with
      | rest =>
        simp only [accessStep, hp, hc] at h
        cases h
        exact .called i c pc hp hc
      | _ =>
        simp only [accessStep, hp, hc] at h
        cases h
        exact .idle _
    | inside k rest =>
      simp only [accessStep, hp] at h
      cases h
      exact .idle _
  | go i =>
    cases hp : s.position i with
    | between pc =>
      cases hc : P.code pc with
      | rest =>
        simp only [accessStep, hp, hc] at h
        cases h
        exact .idle _
      | atomic f =>
        simp only [accessStep, hp, hc, bind_eq_ok] at h
        obtain ⟨⟨g, pc'⟩, hf, h⟩ := h
        cases h
        exact .stepped i pc pc' f g hp hc hf
      | locked k body =>
        simp only [accessStep, hp, hc] at h
        split_ifs at h with hl
        · cases h
          exact .idle _
        · cases h
          exact .acquired i pc k body hp hc (by simpa using hl)
    | inside k rest =>
      cases rest with
      | done pc =>
        simp only [accessStep, hp] at h
        cases h
        exact .released i k pc hp
      | stop e =>
        simp only [accessStep, hp] at h
        cases h
      | access store next =>
        simp only [accessStep, hp] at h
        cases h
        exact .accessed i k store next hp

variable (P)

/-- The accesses so far belong to sections that will be one step when they release their lock.
What is left of a section, run from the cell as it is now, ends as the whole section run from
the cell as it was. -/
structure Matches (s : Accesses ι κ V G L ε) (a : Sections ι κ V G L) : Prop where
  shared : s.shared = a.shared
  between : ∀ i pc, s.position i = .between pc → a.pc i = pc
  inside : ∀ i k rest, s.position i = .inside k rest →
    ∃ body, P.code (a.pc i) = .locked k body ∧ rest.run (s.cell k) = body.run (a.cell k)
  holder : ∀ k, s.locked k = true ↔ ∃ i rest, s.position i = .inside k rest
  unique : ∀ i j k rest rest', s.position i = .inside k rest → s.position j = .inside k rest' →
    i = j
  cell : ∀ k, s.locked k = false → s.cell k = a.cell k

variable {P}

omit [DecidableEq ι] [DecidableEq κ] in
/-- Only the holder of a lock is inside its sections. -/
theorem Matches.held {s : Accesses ι κ V G L ε} {a : Sections ι κ V G L} (h : P.Matches s a)
    {i : ι} {k : κ} {rest : Critical (V k) ε L} (hi : s.position i = .inside k rest) :
    s.locked k = true :=
  (h.holder k).mpr ⟨i, rest, hi⟩

omit [DecidableEq κ] in
/-- A thread that stays outside of all sections goes on. -/
theorem Matches.outside {s : Accesses ι κ V G L ε} {a : Sections ι κ V G L} (h : P.Matches s a)
    {i : ι} {pc : L} (hi : s.position i = .between pc) (g : G) (pc' : L) :
    P.Matches { s with shared := g, position := Function.update s.position i (.between pc') }
      { a with shared := g, pc := Function.update a.pc i pc' } := by
  have hne {j : ι} {k : κ} {rest : Critical (V k) ε L} (hj : s.position j = .inside k rest) :
      j ≠ i := by
    intro e
    rw [e, hi] at hj
    cases hj
  have hold {j : ι} {k : κ} {rest : Critical (V k) ε L} :
      Function.update s.position i (.between pc') j = .inside k rest ↔
        s.position j = .inside k rest := by
    by_cases e : j = i
    · simp [e, hi]
    · simp [e]
  refine ⟨rfl, ?_, ?_, ?_, ?_, h.cell⟩
  · intro j q hj
    by_cases e : j = i
    · subst e
      simpa using hj
    · simp only [Function.update_of_ne e] at hj ⊢
      exact h.between j q hj
  · intro j k rest hj
    have hj := hold.mp hj
    simp only [Function.update_of_ne (hne hj)]
    exact h.inside j k rest hj
  · intro k
    simp only [hold]
    exact h.holder k
  · intro j j' k rest rest' hj hj'
    exact h.unique j j' k rest rest' (hold.mp hj) (hold.mp hj')

/-- The holder of lock `k`, or a thread that has just taken it, goes on inside. -/
theorem Matches.under {s : Accesses ι κ V G L ε} {a : Sections ι κ V G L} (h : P.Matches s a)
    {i : ι} {k : κ} {rest body : Critical (V k) ε L} {v : V k}
    (hcode : P.code (a.pc i) = .locked k body) (hrun : rest.run v = body.run (a.cell k))
    (honly : ∀ j r, s.position j = .inside k r → j = i)
    (hhere : ∀ k' r, s.position i = .inside k' r → k' = k) :
    P.Matches { s with
      cell := Function.update s.cell k v
      locked := Function.update s.locked k true
      position := Function.update s.position i (.inside k rest) } a := by
  have hold {j : ι} {k' : κ} {r : Critical (V k') ε L} (hk : k' ≠ k) :
      Function.update s.position i (.inside k rest) j = .inside k' r ↔
        s.position j = .inside k' r := by
    by_cases e : j = i
    · subst e
      simp only [Function.update_self]
      constructor
      · intro hj
        cases hj
        exact absurd rfl hk
      · intro hj
        exact absurd (hhere k' r hj) hk
    · simp [e]
  have hhold {j : ι} {r : Critical (V k) ε L}
      (hj : Function.update s.position i (.inside k rest) j = .inside k r) : j = i := by
    by_contra e
    rw [Function.update_of_ne e] at hj
    exact e (honly j r hj)
  refine ⟨h.shared, ?_, ?_, ?_, ?_, ?_⟩
  · intro j pc hj
    by_cases e : j = i
    · simp [e] at hj
    · simp only [Function.update_of_ne e] at hj
      exact h.between j pc hj
  · intro j k' r hj
    by_cases hk : k' = k
    · subst hk
      obtain rfl := hhold hj
      simp only [Function.update_self] at hj ⊢
      cases hj
      exact ⟨body, hcode, hrun⟩
    · simp only [Function.update_of_ne hk]
      exact h.inside j k' r ((hold hk).mp hj)
  · intro k'
    by_cases hk : k' = k
    · subst hk
      simp only [Function.update_self, true_iff]
      exact ⟨i, rest, by simp⟩
    · simp only [Function.update_of_ne hk, hold hk]
      exact h.holder k'
  · intro j j' k' r r' hj hj'
    by_cases hk : k' = k
    · subst hk
      exact (hhold hj).trans (hhold hj').symm
    · exact h.unique j j' k' r r' ((hold hk).mp hj) ((hold hk).mp hj')
  · intro k' hl
    by_cases hk : k' = k
    · simp [hk] at hl
    · simp only [Function.update_of_ne hk] at hl ⊢
      exact h.cell k' hl

/-- The holder of lock `k` leaves, and the cell is the result of its section. -/
theorem Matches.leave {s : Accesses ι κ V G L ε} {a : Sections ι κ V G L} (h : P.Matches s a)
    {i : ι} {k : κ} {pc : L} (hi : s.position i = .inside k (.done pc)) :
    P.Matches { s with
      locked := Function.update s.locked k false
      position := Function.update s.position i (.between pc) }
      { a with
        cell := Function.update a.cell k (s.cell k)
        pc := Function.update a.pc i pc } := by
  have hold {j : ι} {k' : κ} {r : Critical (V k') ε L} :
      Function.update s.position i (.between pc) j = .inside k' r ↔
        k' ≠ k ∧ s.position j = .inside k' r := by
    by_cases e : j = i
    · subst e
      simp only [Function.update_self, hi]
      constructor
      · intro hj
        cases hj
      · intro hj
        obtain ⟨hk, hj⟩ := hj
        cases hj
        exact absurd rfl hk
    · simp only [Function.update_of_ne e]
      constructor
      · intro hj
        refine ⟨?_, hj⟩
        intro hk
        subst hk
        exact e (h.unique j i k' r _ hj hi)
      · exact And.right
  have hne {j : ι} {k' : κ} {r : Critical (V k') ε L} (hk : k' ≠ k)
      (hj : s.position j = .inside k' r) : j ≠ i := by
    intro e
    rw [e, hi] at hj
    cases hj
    exact hk rfl
  refine ⟨h.shared, ?_, ?_, ?_, ?_, ?_⟩
  · intro j q hj
    by_cases e : j = i
    · subst e
      simpa using hj
    · simp only [Function.update_of_ne e] at hj ⊢
      exact h.between j q hj
  · intro j k' r hj
    obtain ⟨hk, hj⟩ := hold.mp hj
    simp only [Function.update_of_ne hk, Function.update_of_ne (hne hk hj)]
    exact h.inside j k' r hj
  · intro k'
    simp only [hold]
    by_cases hk : k' = k
    · simp [hk]
    · simp only [Function.update_of_ne hk]
      rw [h.holder k']
      simp [hk]
  · intro j j' k' r r' hj hj'
    exact h.unique j j' k' r r' (hold.mp hj).2 (hold.mp hj').2
  · intro k' hl
    by_cases hk : k' = k
    · subst hk
      simp
    · simp only [Function.update_of_ne hk] at hl ⊢
      exact h.cell k' hl

/-- One access is a silent step, or the step that ends a section. -/
theorem Matches.step {s s' : Accesses ι κ V G L ε} {a : Sections ι κ V G L} {turn : Turn ι C}
    (h : P.Matches s a) (hst : P.accessStep s turn = .ok s') :
    P.Matches s' a ∨ ∃ a', P.sectionStep a turn = .ok a' ∧ P.Matches s' a' := by
  cases accessStep_moved hst with
  | idle => exact .inl h
  | called i c pc hi hc =>
    right
    have e := h.between i pc hi
    refine ⟨{ a with pc := Function.update a.pc i (P.enter c) }, ?_, ?_⟩
    · simp only [sectionStep, e, hc]
      rfl
    · have hm := h.outside hi s.shared (P.enter c)
      rwa [h.shared] at hm ⊢
  | stepped i pc pc' f g hi hc hf =>
    right
    have e := h.between i pc hi
    refine ⟨{ a with shared := g, pc := Function.update a.pc i pc' }, ?_, h.outside hi g pc'⟩
    simp only [sectionStep, e, hc, ← h.shared, hf]
    rfl
  | acquired i pc k body hi hc hl =>
    left
    have e := h.between i pc hi
    have hnone (j : ι) (r : Critical (V k) ε L) : s.position j ≠ .inside k r := by
      intro hj
      rw [h.held hj] at hl
      cases hl
    have hm := @Matches.under _ _ _ _ _ _ _ _ _ P s a h i k body body (s.cell k)
      (by rw [e, hc]) (by rw [h.cell k hl]) (fun j r hj => absurd hj (hnone j r))
      (fun k' r hj => by rw [hi] at hj; cases hj)
    simpa using hm
  | accessed i k store next hi =>
    left
    obtain ⟨body, hcode, hrun⟩ := h.inside i k _ hi
    have hm := @Matches.under _ _ _ _ _ _ _ _ _ P s a h i k (next (s.cell k)) body
      (store (s.cell k)) hcode hrun (fun j r hj => h.unique j i k r _ hj hi)
      (fun k' r hj => by rw [hi] at hj; cases hj; rfl)
    have hl : Function.update s.locked k true = s.locked := by
      rw [← h.held hi, Function.update_eq_self]
    rwa [hl] at hm
  | released i k pc hi =>
    right
    obtain ⟨body, hcode, hrun⟩ := h.inside i k _ hi
    have hrun : body.run (a.cell k) = .ok (s.cell k, pc) := hrun.symm
    refine ⟨{ a with
      cell := Function.update a.cell k (s.cell k)
      pc := Function.update a.pc i pc }, ?_, ?_⟩
    · simp only [sectionStep, hcode, hrun]
      rfl
    · exact h.leave hi

/-- What stops a thread between two accesses stops the whole section. -/
theorem Matches.stops {s : Accesses ι κ V G L ε} {a : Sections ι κ V G L} {turn : Turn ι C}
    {e : ε} (h : P.Matches s a) (hst : P.accessStep s turn = .error e) :
    P.sectionStep a turn = .error e := by
  cases turn with
  | call i c =>
    cases hp : s.position i with
    | between pc =>
      cases hc : P.code pc <;> simp [accessStep, hp, hc, pure, Except.pure] at hst
    | inside k rest => simp [accessStep, hp, pure, Except.pure] at hst
  | go i =>
    cases hp : s.position i with
    | between pc =>
      have epc := h.between i pc hp
      cases hc : P.code pc with
      | rest => simp [accessStep, hp, hc, pure, Except.pure] at hst
      | atomic f =>
        simp only [accessStep, hp, hc] at hst
        simp only [sectionStep, epc, hc, ← h.shared]
        cases hf : f s.shared with
        | ok out => simp [hf, bind, Except.bind, pure, Except.pure] at hst
        | error e' => simpa [hf, bind, Except.bind] using hst
      | locked k body =>
        simp only [accessStep, hp, hc] at hst
        split_ifs at hst <;> simp [pure, Except.pure] at hst
    | inside k rest =>
      obtain ⟨body, hcode, hrun⟩ := h.inside i k rest hp
      cases rest with
      | done pc => simp [accessStep, hp, pure, Except.pure] at hst
      | stop e' =>
        simp only [accessStep, hp] at hst
        cases hst
        have hrun : body.run (a.cell k) = .error e := hrun.symm
        simp only [sectionStep, hcode, hrun]
        rfl
      | access store next => simp [accessStep, hp, pure, Except.pure] at hst

/-- A run of accesses is a run of whole sections, in the order in which they end. -/
theorem Matches.run {s s' : Accesses ι κ V G L ε} {a : Sections ι κ V G L}
    {turns : List (Turn ι C)} (h : P.Matches s a) (hr : turns.foldlM P.accessStep s = .ok s') :
    ∃ (whole : List (Turn ι C)) (a' : Sections ι κ V G L), whole.Sublist turns ∧
      whole.foldlM P.sectionStep a = .ok a' ∧ P.Matches s' a' := by
  induction turns generalizing s a with
  | nil =>
    cases hr
    exact ⟨[], a, .slnil, rfl, h⟩
  | cons turn turns ih =>
    rw [List.foldlM_cons, bind_eq_ok] at hr
    obtain ⟨u, hu, hr⟩ := hr
    cases h.step hu with
    | inl hm =>
      obtain ⟨whole, a', hsub, hrun, hm'⟩ := ih hm hr
      exact ⟨whole, a', hsub.cons turn, hrun, hm'⟩
    | inr hm =>
      obtain ⟨b, hb, hm⟩ := hm
      obtain ⟨whole, a', hsub, hrun, hm'⟩ := ih hm hr
      refine ⟨turn :: whole, a', hsub.cons_cons turn, ?_, hm'⟩
      rw [List.foldlM_cons, hb]
      exact hrun

/-- And one that stops, stops the sections as well. -/
theorem Matches.run_stops {s : Accesses ι κ V G L ε} {a : Sections ι κ V G L}
    {turns : List (Turn ι C)} {e : ε} (h : P.Matches s a)
    (hr : turns.foldlM P.accessStep s = .error e) :
    ∃ whole : List (Turn ι C), whole.Sublist turns ∧
      whole.foldlM P.sectionStep a = .error e := by
  induction turns generalizing s a with
  | nil => cases hr
  | cons turn turns ih =>
    rw [List.foldlM_cons] at hr
    cases hu : P.accessStep s turn with
    | error e' =>
      rw [hu] at hr
      cases hr
      refine ⟨[turn], (List.nil_sublist turns).cons_cons turn, ?_⟩
      rw [List.foldlM_cons, h.stops hu]
      rfl
    | ok u =>
      rw [hu] at hr
      cases h.step hu with
      | inl hm =>
        obtain ⟨whole, hsub, hrun⟩ := ih hm hr
        exact ⟨whole, hsub.cons turn, hrun⟩
      | inr hm =>
        obtain ⟨b, hb, hm⟩ := hm
        obtain ⟨whole, hsub, hrun⟩ := ih hm hr
        refine ⟨turn :: whole, hsub.cons_cons turn, ?_⟩
        rw [List.foldlM_cons, hb]
        exact hrun

section
variable (P)

def Resting (s : Accesses ι κ V G L ε) (i : ι) : Prop :=
  ∃ pc, s.position i = .between pc ∧ P.code pc = .rest

/-- The thread is at a lock that is taken. -/
def Spins (s : Accesses ι κ V G L ε) (i : ι) : Prop :=
  ∃ pc k body, s.position i = .between pc ∧ P.code pc = .locked k body ∧ s.locked k = true

end

omit [DecidableEq ι] [DecidableEq κ] in
/-- No section waits for a second lock, so whoever holds one can go on. -/
theorem Matches.progress {s : Accesses ι κ V G L ε} {a : Sections ι κ V G L}
    (h : P.Matches s a) {i : ι} (hi : ¬ P.Resting s i) :
    ∃ j, ¬ P.Resting s j ∧ ¬ P.Spins s j := by
  by_cases hs : P.Spins s i
  · obtain ⟨_, k, _, _, _, hl⟩ := hs
    obtain ⟨j, rest, hj⟩ := (h.holder k).mp hl
    refine ⟨j, ?_, ?_⟩
    · rintro ⟨pc, hpc, _⟩
      rw [hj] at hpc
      cases hpc
    · rintro ⟨pc, _, _, hpc, _⟩
      rw [hj] at hpc
      cases hpc
  · exact ⟨i, hi, hs⟩

def quiet (a : Sections ι κ V G L) : Accesses ι κ V G L ε :=
  ⟨a.cell, a.shared, fun _ => false, fun i => .between (a.pc i)⟩

omit [DecidableEq ι] [DecidableEq κ] in
theorem matches_quiet (a : Sections ι κ V G L) : P.Matches (quiet a) a := by
  refine ⟨rfl, ?_, ?_, ?_, ?_, fun _ _ => rfl⟩
  · intro i pc hi
    cases hi
    rfl
  · intro i k rest hi
    cases hi
  · intro k
    simp [quiet]
  · intro i j k rest rest' hi
    cases hi

omit [DecidableEq ι] [DecidableEq κ] in
theorem Matches.eq_quiet {s : Accesses ι κ V G L ε} {a : Sections ι κ V G L} (h : P.Matches s a)
    (hq : ∀ k, s.locked k = false) : s = quiet a := by
  obtain ⟨cell, shared, locked, position⟩ := s
  have hpos : position = fun i => .between (a.pc i) := by
    funext i
    cases hp : position i with
    | between pc => rw [h.between i pc hp]
    | inside k rest =>
      have hl := h.held hp
      rw [hq k] at hl
      cases hl
  have hcell : cell = a.cell := funext fun k => h.cell k (hq k)
  have hlocked : locked = fun _ => false := funext hq
  have hshared : shared = a.shared := h.shared
  rw [quiet, hpos, hcell, hlocked, hshared]

private theorem once {σ α : Type} (step : σ → α → Except ε σ) (s : σ) (x : α) :
    (List.replicate 1 x).foldlM step s = step s x := by
  simp only [List.replicate_one, List.foldlM_cons, List.foldlM_nil, bind_pure]

/-- The holder of a lock, left alone, gets to the end of its section. -/
theorem alone_inside {i : ι} {k : κ} {rest : Critical (V k) ε L} {s : Accesses ι κ V G L ε}
    (hi : s.position i = .inside k rest) :
    ∃ n, (List.replicate n (.go i)).foldlM P.accessStep s =
      (rest.run (s.cell k)).map fun (v, pc) => { s with
        cell := Function.update s.cell k v
        locked := Function.update s.locked k false
        position := Function.update s.position i (.between pc) } := by
  induction rest generalizing s with
  | done pc =>
    refine ⟨1, ?_⟩
    rw [once]
    simp [accessStep, hi, pure, Except.pure, Except.map]
  | stop e =>
    refine ⟨1, ?_⟩
    rw [once]
    simp only [accessStep, hi]
    rfl
  | access store next ih =>
    obtain ⟨n, hn⟩ := @ih (s.cell k) { s with
      cell := Function.update s.cell k (store (s.cell k))
      position := Function.update s.position i (.inside k (next (s.cell k))) } (by simp)
    refine ⟨n + 1, ?_⟩
    rw [List.replicate_succ, List.foldlM_cons]
    have hst : P.accessStep s (.go i) = .ok { s with
        cell := Function.update s.cell k (store (s.cell k))
        position := Function.update s.position i (.inside k (next (s.cell k))) } := by
      simp only [accessStep, hi]
      rfl
    rw [hst]
    change (List.replicate n (.go i)).foldlM P.accessStep _ = _
    rw [hn]
    simp [Critical.run]

omit [DecidableEq κ] in
theorem quiet_position (a : Sections ι κ V G L) (i : ι) (pc : L) :
    Function.update (quiet a : Accesses ι κ V G L ε).position i (.between pc) =
      fun j => .between (Function.update a.pc i pc j) := by
  funext j
  by_cases e : j = i
  · simp [e]
  · simp [quiet, e]

/-- A thread that runs alone makes each of its steps. -/
theorem alone_step (a : Sections ι κ V G L) (i : ι) :
    ∃ n, (List.replicate n (.go i)).foldlM P.accessStep (quiet a) =
      (P.sectionStep a (.go i)).map quiet := by
  cases hc : P.code (a.pc i) with
  | rest =>
    refine ⟨0, ?_⟩
    simp only [sectionStep, hc]
    rfl
  | atomic f =>
    refine ⟨1, ?_⟩
    rw [once]
    have hst : P.accessStep (quiet a) (.go i) = (do
        let (shared, pc) ← f a.shared
        return { (quiet a : Accesses ι κ V G L ε) with
          shared, position := Function.update (quiet a).position i (.between pc) }) := by
      simp only [accessStep, quiet, hc]
    rw [hst]
    simp only [sectionStep, hc, quiet_position]
    cases f a.shared with
    | error e => rfl
    | ok out => rfl
  | locked k body =>
    -- taking the lock, then the section
    let taken : Accesses ι κ V G L ε := ⟨a.cell, a.shared, Function.update (fun _ => false) k true,
      Function.update (fun j => .between (a.pc j)) i (.inside k body)⟩
    have htaken : taken.position i = .inside k body := by simp [taken]
    obtain ⟨n, hn⟩ := @alone_inside ι κ V G L C ε _ _ P i k body taken htaken
    refine ⟨n + 1, ?_⟩
    rw [List.replicate_succ, List.foldlM_cons]
    have hst : P.accessStep (quiet a) (.go i) = .ok taken := by
      simp only [accessStep, quiet, hc]
      rfl
    have hfree : Function.update (fun _ => false) k false = fun _ : κ => false :=
      Function.update_eq_self k _
    rw [hst]
    change (List.replicate n (.go i)).foldlM P.accessStep taken = _
    rw [hn]
    simp only [sectionStep, hc, taken, Function.update_idem, hfree]
    cases body.run (a.cell k) with
    | error e => rfl
    | ok out =>
      obtain ⟨v, pc⟩ := out
      have hp := @quiet_position ι κ V G L ε _ a i pc
      simp only [quiet] at hp
      simp only [Except.map, bind, Except.bind, pure, Except.pure, hp]
      rfl

theorem alone_run (i : ι) (m : Nat) (a : Sections ι κ V G L) :
    ∃ n, (List.replicate n (.go i)).foldlM P.accessStep (quiet a) =
      ((List.replicate m (.go i)).foldlM P.sectionStep a).map quiet := by
  induction m generalizing a with
  | zero => exact ⟨0, rfl⟩
  | succ m ih =>
    obtain ⟨n, hn⟩ := @alone_step ι κ V G L C ε _ _ P a i
    rw [List.replicate_succ, List.foldlM_cons]
    cases hst : P.sectionStep a (.go i) with
    | error e =>
      rw [hst] at hn
      exact ⟨n, hn⟩
    | ok b =>
      rw [hst] at hn
      obtain ⟨n', hn'⟩ := ih b
      refine ⟨n + n', ?_⟩
      rw [← List.replicate_append_replicate, List.foldlM_append, hn]
      exact hn'

theorem sectionStep_call {a : Sections ι κ V G L} {i : ι} (hc : P.code (a.pc i) = .rest) (c : C) :
    P.sectionStep a (.call i c) = .ok { a with pc := Function.update a.pc i (P.enter c) } := by
  simp only [sectionStep, hc]
  rfl

theorem accessStep_call {a : Sections ι κ V G L} {i : ι} (hc : P.code (a.pc i) = .rest) (c : C) :
    P.accessStep (quiet a) (.call i c) =
      .ok (quiet { a with pc := Function.update a.pc i (P.enter c) }) := by
  have hpc : (quiet a : Accesses ι κ V G L ε).position i = .between (a.pc i) := rfl
  simp only [accessStep, hpc, hc, quiet_position]
  rfl

theorem accessStep_atomic {s : Accesses ι κ V G L ε} {i : ι} {f : G → Except ε (G × L)} {g : G}
    {pc pc' : L} (hi : s.position i = .between pc) (hc : P.code pc = .atomic f)
    (hf : f s.shared = .ok (g, pc')) :
    P.accessStep s (.go i) =
      .ok { s with shared := g, position := Function.update s.position i (.between pc') } := by
  simp only [accessStep, hi, hc, hf]
  rfl

theorem sectionStep_atomic {a : Sections ι κ V G L} {i : ι} {f : G → Except ε (G × L)} {g : G}
    {pc : L} (hc : P.code (a.pc i) = .atomic f) (hf : f a.shared = .ok (g, pc)) :
    P.sectionStep a (.go i) = .ok { a with shared := g, pc := Function.update a.pc i pc } := by
  simp only [sectionStep, hc, hf]
  rfl

theorem sectionStep_locked {a : Sections ι κ V G L} {i : ι} {k : κ} {body : Critical (V k) ε L}
    {v : V k} {pc : L} (hc : P.code (a.pc i) = .locked k body)
    (hr : body.run (a.cell k) = .ok (v, pc)) :
    P.sectionStep a (.go i) = .ok { a with
      cell := Function.update a.cell k v, pc := Function.update a.pc i pc } := by
  simp only [sectionStep, hc, hr]
  rfl

section
variable (P)

/-- Thread `i` is the only one to move, and comes to `r`. -/
def RunsAlone (i : ι) (a : Sections ι κ V G L) (r : Except ε (Sections ι κ V G L)) : Prop :=
  ∃ m, (List.replicate m (.go i)).foldlM P.sectionStep a = r

end

theorem RunsAlone.here (i : ι) (a : Sections ι κ V G L) : P.RunsAlone i a (.ok a) := ⟨0, rfl⟩

theorem RunsAlone.step {i : ι} {a b : Sections ι κ V G L} {r : Except ε (Sections ι κ V G L)}
    (hst : P.sectionStep a (.go i) = .ok b) (h : P.RunsAlone i b r) : P.RunsAlone i a r := by
  obtain ⟨m, hm⟩ := h
  refine ⟨m + 1, ?_⟩
  rw [List.replicate_succ, List.foldlM_cons, hst]
  exact hm

theorem RunsAlone.stop {i : ι} {a : Sections ι κ V G L} {e : ε}
    (hst : P.sectionStep a (.go i) = .error e) : P.RunsAlone i a (.error e) := by
  refine ⟨1, ?_⟩
  rw [once]
  exact hst

theorem RunsAlone.accesses {i : ι} {a : Sections ι κ V G L} {r : Except ε (Sections ι κ V G L)}
    (h : P.RunsAlone i a r) :
    ∃ n, (List.replicate n (.go i)).foldlM P.accessStep (quiet a) = r.map quiet := by
  obtain ⟨m, hm⟩ := h
  obtain ⟨n, hn⟩ := @alone_run ι κ V G L C ε _ _ P i m a
  exact ⟨n, by rw [hn, hm]⟩

end ThreadProgram

end FastParse.Framework
