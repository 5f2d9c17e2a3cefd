import FastParse.Framework.SharedTable
import FastParse.Table.Indices

namespace FastParse

open Framework

/-- Tables reached by lookups one after the other are settled. -/
theorem slotsAfter_settled (las : List Nat) : (slotsAfter las).Settled := by
  apply SlotTable.Settled.after
  refine ⟨?_, ?_⟩
  · intro k hk
    exact absurd rfl hk
  · intro i hi hlt
    exact absurd hlt (Nat.not_lt_zero i)

/-- `lookup_RIB` up to the test: the word of the prefix and what its slot holds. -/
def readSlot (t : Bigtable) (l address : Nat) : Exec (Nat × Nat) := do
  let index ← encode l address
  assert (index < ribSize)
  return (index, t.rib index)

/-- The section between `LOCKBT` and `UNLOCKBT`. -/
def fillSlot (t : Bigtable) (index : Nat) : Nat × Bigtable :=
  let btindex := t.bigtableIndex
  (btindex, ⟨Function.update t.rib index btindex, Function.update t.bigtable btindex index,
    btindex + 1⟩)

/-- One after the other the two steps are the whole call. -/
theorem lookupRib_steps (t : Bigtable) (l address : Nat) :
    lookupRib t l address = do
      let (index, btindex) ← readSlot t l address
      if btindex = 0 then return fillSlot t index else return (btindex, t) := by
  rw [lookupRib, readSlot]
  cases encode l address with
  | error e => rfl
  | ok index =>
    by_cases h : index < ribSize
    · simp [assert, h, bind, Except.bind, pure, Except.pure, fillSlot]
    · simp [assert, h, bind, Except.bind]

/-- `waiting i` is the prefix thread `i` has found without an index, with its word; `returned`
are the finished calls, newest first. -/
structure Lookups (ι : Type) where
  tables : Bigtable
  waiting : ι → Option (Nat × Nat)
  returned : List (Nat × Nat)

/-- Thread `i` calls `lookup_RIB` for a prefix, or takes its turn at the lock. -/
inductive LookupTurn (ι : Type) where
  | call (i : ι) (la : Nat)
  | lock (i : ι)

namespace Lookups

section
variable {ι : Type}

def start (t : Bigtable) : Lookups ι := ⟨t, fun _ => none, []⟩

/-- The words of the prefixes asked for that had no index in `t`. -/
def newWords (t : Bigtable) (s : Lookups ι) : Finset Nat :=
  (s.returned.map fun c => prefixWord c.1).toFinset.filter
    fun w => ∀ i < t.bigtableIndex, t.bigtable i ≠ w

/-- Calls for one prefix have returned one index, and the cursor has advanced by one for each
distinct prefix that had no index before. -/
structure CallsAgree (t : Bigtable) (s : Lookups ι) : Prop where
  same : ∀ la i la' i', (la, i) ∈ s.returned → (la', i') ∈ s.returned → SamePrefix la la' → i = i'
  growth : s.tables.bigtableIndex = t.bigtableIndex + (s.newWords t).card

/-- No other thread has found the slot of the prefix empty and not filled it yet, and the
prefix is not the one that was given index zero. -/
def ReadAlone (t : Bigtable) (s : Lookups ι) : LookupTurn ι → Prop
  | .call i la => s.waiting i = none → s.tables.rib (prefixWord la) = 0 →
      (∀ j, (s.waiting j).map (fun c => prefixWord c.1) ≠ some (prefixWord la)) ∧
        t.bigtable 0 ≠ prefixWord la
  | .lock _ => True

def shared (s : Lookups ι) : SharedTable Nat ι :=
  ⟨s.tables.slots, fun i => (s.waiting i).map fun c => prefixWord c.1,
    s.returned.map fun c => (prefixWord c.1, c.2)⟩

def sharedTurn : LookupTurn ι → SharedTurn Nat ι
  | .call i la => .read i (prefixWord la)
  | .lock i => .fill i

/-- Only prefixes of length up to 24 are looked up, and each waits under its own word. -/
structure Short (s : Lookups ι) : Prop where
  returned : ∀ la i, (la, i) ∈ s.returned → lengthOf la ≤ 24
  waiting : ∀ i la index, s.waiting i = some (la, index) →
    lengthOf la ≤ 24 ∧ index = prefixWord la

end

variable {ι : Type} [DecidableEq ι]

def step (s : Lookups ι) : LookupTurn ι → Exec (Lookups ι)
  | .call i la =>
    match s.waiting i with
    | some _ => return s
    | none => do
      let (index, btindex) ← readSlot s.tables (lengthOf la) (addressOf la)
      if btindex = 0 then
        return { s with waiting := Function.update s.waiting i (some (la, index)) }
      else return { s with returned := (la, btindex) :: s.returned }
  | .lock i =>
    match s.waiting i with
    | none => return s
    | some (la, index) =>
      let (btindex, tables) := fillSlot s.tables index
      return ⟨tables, Function.update s.waiting i none, (la, btindex) :: s.returned⟩

theorem readSlot_ok {t : Bigtable} {la : Nat} {r : Nat × Nat}
    (h : readSlot t (lengthOf la) (addressOf la) = .ok r) :
    lengthOf la ≤ 24 ∧ r = (prefixWord la, t.rib (prefixWord la)) := by
  have hlen : lengthOf la ≤ 24 := by
    rw [readSlot, encode, bind_eq_ok] at h
    obtain ⟨index, he, _⟩ := h
    rw [assert_bind_ok] at he
    exact Nat.le_of_lt_succ he.1
  rw [readSlot, encode_eq la hlen] at h
  refine ⟨hlen, ?_⟩
  change (assert (prefixWord la < ribSize) >>= fun _ => pure (prefixWord la, t.rib (prefixWord la)))
    = _ at h
  rw [assert_bind_ok] at h
  exact (Except.ok.inj h.2).symm

theorem words_update (waiting : ι → Option (Nat × Nat)) (i : ι) (o : Option (Nat × Nat)) :
    (fun j => (Function.update waiting i o j).map fun c => prefixWord c.1) =
      Function.update (fun j => (waiting j).map fun c => prefixWord c.1) i
        (o.map fun c => prefixWord c.1) := by
  funext j
  exact Function.apply_update (fun _ o => Option.map (fun c : Nat × Nat => prefixWord c.1) o)
    waiting i o j

theorem Short.update {s : Lookups ι} (h : s.Short) (i : ι) {o : Option (Nat × Nat)}
    (ho : ∀ la index, o = some (la, index) → lengthOf la ≤ 24 ∧ index = prefixWord la) (j : ι)
    (la index : Nat) (hj : Function.update s.waiting i o j = some (la, index)) :
    lengthOf la ≤ 24 ∧ index = prefixWord la := by
  by_cases e : j = i
  · rw [e, Function.update_self] at hj
    exact ho la index hj
  · rw [Function.update_of_ne e] at hj
    exact h.waiting j la index hj

omit [DecidableEq ι] in
theorem Short.cons {s : Lookups ι} (h : s.Short) {la i : Nat} (hlen : lengthOf la ≤ 24)
    (la' j : Nat) (hj : (la', j) ∈ (la, i) :: s.returned) : lengthOf la' ≤ 24 := by
  cases List.mem_cons.mp hj with
  | inl e =>
    cases e
    exact hlen
  | inr hj => exact h.returned la' j hj

/-- A step of the threads is a step of the shared table. -/
theorem step_shared {s s' : Lookups ι} {e : LookupTurn ι} (hs : s.Short)
    (h : s.step e = .ok s') : s'.Short ∧ s'.shared = s.shared.step (sharedTurn e) := by
  cases e with
  | call i la =>
    cases hw : s.waiting i with
    | some c =>
      have e : s = s' := by simpa [step, hw, pure, Except.pure] using h
      subst e
      exact ⟨hs, by simp [sharedTurn, SharedTable.step, shared, hw]⟩
    | none =>
      simp only [step, hw] at h
      rw [bind_eq_ok] at h
      obtain ⟨r, hr, h⟩ := h
      obtain ⟨hlen, rfl⟩ := readSlot_ok hr
      simp only at h
      by_cases hk : s.tables.rib (prefixWord la) = 0
      · rw [if_pos hk] at h
        cases h
        refine ⟨⟨hs.returned, ?_⟩, ?_⟩
        · apply hs.update
          intro la' index e
          cases e
          exact ⟨hlen, rfl⟩
        · simp [sharedTurn, SharedTable.step, shared, hw, Bigtable.slots, hk, words_update]
      · rw [if_neg hk] at h
        cases h
        refine ⟨⟨hs.cons hlen, hs.waiting⟩, ?_⟩
        simp [sharedTurn, SharedTable.step, shared, hw, Bigtable.slots, hk]
  | lock i =>
    cases hw : s.waiting i with
    | none =>
      have e : s = s' := by simpa [step, hw, pure, Except.pure] using h
      subst e
      exact ⟨hs, by simp [sharedTurn, SharedTable.step, shared, hw]⟩
    | some c =>
      obtain ⟨la, index⟩ := c
      obtain ⟨hlen, rfl⟩ := hs.waiting i la index hw
      simp only [step, hw] at h
      cases h
      refine ⟨⟨hs.cons hlen, ?_⟩, ?_⟩
      · apply hs.update
        intro la' index e
        cases e
      · simp [sharedTurn, SharedTable.step, shared, hw, Bigtable.slots, SlotTable.fill, fillSlot,
          words_update]

omit [DecidableEq ι] in
theorem newWords_eq (t : Bigtable) (s : Lookups ι) :
    s.newWords t = SharedTable.newKeys t.slots s.shared.returned := by
  rw [newWords, SharedTable.newKeys, shared, List.map_map]
  rfl

omit [DecidableEq ι] in
theorem callsAgree_iff {t : Bigtable} {s : Lookups ι} (hs : s.Short) :
    s.CallsAgree t ↔ s.shared.Agree t.slots := by
  have hgrow := newWords_eq t s
  constructor
  · intro h
    refine ⟨?_, hgrow ▸ h.growth⟩
    intro w i j hi hj
    obtain ⟨c, hc, e⟩ := List.mem_map.mp hi
    obtain ⟨rfl, rfl⟩ := Prod.mk.inj e
    obtain ⟨c', hc', e⟩ := List.mem_map.mp hj
    obtain ⟨hw, rfl⟩ := Prod.mk.inj e
    apply h.same c.1 c.2 c'.1 c'.2 hc hc'
    exact (prefixWord_inj (hs.returned c.1 c.2 hc) (hs.returned c'.1 c'.2 hc')).mp hw.symm
  · intro h
    refine ⟨?_, hgrow ▸ h.growth⟩
    intro la i la' i' hi hi' hsame
    have hw := (prefixWord_inj (hs.returned la i hi) (hs.returned la' i' hi')).mpr hsame
    apply h.same (prefixWord la) i i'
    · exact List.mem_map.mpr ⟨(la, i), hi, rfl⟩
    · exact List.mem_map.mpr ⟨(la', i'), hi', by rw [hw]⟩

omit [DecidableEq ι] in
theorem readAlone_eq (t : Bigtable) (s : Lookups ι) (e : LookupTurn ι) :
    ReadAlone t s e ↔ s.shared.Alone t.slots (sharedTurn e) := by
  cases e with
  | lock i => exact Iff.rfl
  | call i la =>
    have hidle : s.shared.waiting i = none ↔ s.waiting i = none := by simp [shared]
    simp only [sharedTurn, SharedTable.Alone, hidle]
    exact Iff.rfl

/-- From tables whose indices lead to filled slots, whatever the threads and their turns: when
every call has returned, the calls agree exactly if every empty read was alone. -/
theorem concurrent_lookups (t : Bigtable) (ht : t.slots.Settled) (hpos : 0 < t.bigtableIndex)
    (turns : List (LookupTurn ι)) (s : Lookups ι) (hr : turns.foldlM step (start t) = .ok s)
    (hdone : ∀ i, s.waiting i = none) :
    s.CallsAgree t ↔ StepsOk step (ReadAlone t) (start t) turns := by
  have hshort : (start t : Lookups ι).Short := by
    refine ⟨?_, ?_⟩
    · intro la i hi
      exact absurd hi List.not_mem_nil
    · intro i la index hi
      cases hi
  obtain ⟨hs, hview, hok⟩ := run_view shared sharedTurn (fun s e s' h hst => step_shared h hst)
    (SharedTable.Alone t.slots) hshort hr
  have hcond : (fun s e => SharedTable.Alone t.slots (shared s) (sharedTurn e)) =
      (ReadAlone t : Lookups ι → LookupTurn ι → Prop) := by
    funext s e
    exact propext (readAlone_eq t s e).symm
  rw [hcond] at hok
  rw [callsAgree_iff hs, hok, hview]
  apply SharedTable.agree_iff ht hpos (SharedTable.Orderly.start ht hpos) ht
  intro i
  have hi : s.shared.waiting i = none := by simp [shared, hdone i]
  rwa [hview] at hi

instance (t : Bigtable) (s : Lookups (Fin 2)) : ∀ e, Decidable (ReadAlone t s e)
  | .call _ _ => inferInstanceAs (Decidable (_ → _ → (_ ∧ _)))
  | .lock _ => isTrue trivial

def oneLookup : Bigtable := SlotTable.tables (slotsAfter [8 <<< 32 ||| 10 <<< 24])

theorem oneLookup_settled : oneLookup.slots.Settled := slotsAfter_settled _

/-- Two threads ask for 11.0.0.0/8, the second one after the first has filled the slot. -/
def inTurn : List (LookupTurn (Fin 2)) :=
  [.call 0 (8 <<< 32 ||| 11 <<< 24), .call 1 (8 <<< 32 ||| 12 <<< 24), .lock 0,
    .call 0 (8 <<< 32 ||| 11 <<< 24), .lock 1, .call 1 (8 <<< 32 ||| 11 <<< 24)]

theorem concurrent_lookups_in_turn :
    ∃ s, inTurn.foldlM step (start oneLookup) = .ok s ∧ s.CallsAgree oneLookup := by
  have hr : (inTurn.foldlM step (start oneLookup)).map (fun s => (s.waiting 0, s.waiting 1)) =
      .ok (none, none) := by decide
  obtain ⟨s, hs, e⟩ := exists_of_map_eq_ok hr
  obtain ⟨h0, h1⟩ := Prod.mk.inj e
  refine ⟨s, hs, ?_⟩
  apply (concurrent_lookups oneLookup oneLookup_settled (by decide) inTurn s hs ?_).mpr
  · decide
  · intro i
    match i with
    | 0 => exact h0
    | 1 => exact h1

/-- Both threads find the slot of 11.0.0.0/8 empty before either takes the lock. -/
def atOnce : List (LookupTurn (Fin 2)) :=
  [.call 0 (8 <<< 32 ||| 11 <<< 24), .call 1 (8 <<< 32 ||| 11 <<< 24), .lock 0, .lock 1]

/-- The prefix then has the indices 1 and 2. -/
theorem lookups_disagree :
    ∃ s, atOnce.foldlM step (start oneLookup) = .ok s ∧ (∀ i, s.waiting i = none) ∧
      ¬ s.CallsAgree oneLookup := by
  have hr : (atOnce.foldlM step (start oneLookup)).map
      (fun s => (s.waiting 0, s.waiting 1, s.returned)) =
      .ok (none, none, [(8 <<< 32 ||| 11 <<< 24, 2), (8 <<< 32 ||| 11 <<< 24, 1)]) := by decide
  obtain ⟨s, hs, e⟩ := exists_of_map_eq_ok hr
  simp only [Prod.mk.injEq] at e
  obtain ⟨h0, h1, hret⟩ := e
  refine ⟨s, hs, ?_, ?_⟩
  · intro i
    match i with
    | 0 => exact h0
    | 1 => exact h1
  · intro h
    have e := h.same (8 <<< 32 ||| 11 <<< 24) 2 (8 <<< 32 ||| 11 <<< 24) 1
    rw [hret] at e
    exact absurd (e (by simp) (by simp) ⟨rfl, rfl⟩) (by decide)

end Lookups

end FastParse
