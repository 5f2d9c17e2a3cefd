import FastParse.Framework.Run
import FastParse.Framework.SlotTable

namespace FastParse.Framework

namespace SlotTable

section
variable {κ : Type}

def New (t : SlotTable κ) (k : κ) : Prop := ∀ i < t.next, t.key i ≠ k

/-- Filled slots and the reverse table agree: a key that is not the first one has its slot
filled. -/
structure Settled (t : SlotTable κ) : Prop where
  linked : t.Linked
  filed : ∀ i, 0 < i → i < t.next → t.slot (t.key i) ≠ 0

theorem New.slot {t : SlotTable κ} {k : κ} (h : t.New k) (hl : t.Linked) : t.slot k = 0 := by
  by_contra hne
  obtain ⟨hlt, hkey⟩ := hl k hne
  exact h _ hlt hkey

/-- A key with an empty slot has no number, or is the first one. -/
theorem Settled.new {t : SlotTable κ} (h : t.Settled) {k : κ} (hk : t.slot k = 0)
    (h0 : t.key 0 ≠ k) : t.New k := by
  intro i hi e
  cases Nat.eq_zero_or_pos i with
  | inl hz => exact h0 (hz ▸ e)
  | inr hpos => exact h.filed i hpos hi (e ▸ hk)

end

variable {κ : Type} [DecidableEq κ]

instance (t : SlotTable κ) : DecidablePred t.New :=
  fun k => inferInstanceAs (Decidable (∀ i < t.next, t.key i ≠ k))

/-- The next number for a key, whatever its slot holds. -/
def fill (t : SlotTable κ) (k : κ) : SlotTable κ :=
  ⟨Function.update t.slot k t.next, Function.update t.key t.next k, t.next + 1⟩

theorem fill_slot {t : SlotTable κ} {j k : κ} (hpos : 0 < t.next) (h : t.slot j ≠ 0) :
    (t.fill k).slot j ≠ 0 := by
  by_cases e : j = k
  · simp only [fill, e, Function.update_self]
    exact Nat.ne_of_gt hpos
  · simpa only [fill, Function.update_of_ne e] using h

theorem Settled.fill {t : SlotTable κ} (h : t.Settled) (k : κ) : (t.fill k).Settled := by
  refine ⟨?_, ?_⟩
  · intro j hj
    by_cases e : j = k
    · subst j
      simp [SlotTable.fill]
    · simp only [SlotTable.fill, Function.update_of_ne e] at hj ⊢
      obtain ⟨hlt, hkey⟩ := h.linked j hj
      refine ⟨Nat.lt_succ_of_lt hlt, ?_⟩
      rw [Function.update_of_ne (Nat.ne_of_lt hlt), hkey]
  · intro i hpos hi
    have hi : i < t.next + 1 := hi
    by_cases e : i = t.next
    · subst i
      simp only [SlotTable.fill, Function.update_self]
      exact Nat.ne_of_gt hpos
    · have hlt : i < t.next := by omega
      simp only [SlotTable.fill, Function.update_of_ne e]
      by_cases ek : t.key i = k
      · rw [ek, Function.update_self]
        omega
      · rw [Function.update_of_ne ek]
        exact h.filed i hpos hlt

theorem Settled.lookup {t : SlotTable κ} (h : t.Settled) (k : κ) : (t.lookup k).2.Settled := by
  by_cases hk : t.slot k = 0
  · rw [lookup_new hk]
    exact h.fill k
  · rw [lookup_old hk]
    exact h

theorem Settled.after {t : SlotTable κ} (h : t.Settled) (ks : List κ) : (t.after ks).Settled := by
  induction ks generalizing t with
  | nil => exact h
  | cons k ks ih => exact ih (h.lookup k)

end SlotTable

/-- `waiting i` is the key whose slot thread `i` has found empty; `returned` are the finished
lookups. -/
structure SharedTable (κ ι : Type) where
  table : SlotTable κ
  waiting : ι → Option κ
  returned : List (κ × Nat)

/-- A step of thread `i`: it starts a lookup, or fills the slot it has found empty. -/
inductive SharedTurn (κ ι : Type) where
  | read (i : ι) (k : κ)
  | fill (i : ι)

namespace SharedTable

variable {κ ι : Type}

def start (t : SlotTable κ) : SharedTable κ ι := ⟨t, fun _ => none, []⟩

section
variable [DecidableEq κ] (t : SlotTable κ)

/-- The keys looked up that had no number in `t`. -/
def newKeys (returned : List (κ × Nat)) : Finset κ :=
  (returned.map Prod.fst).toFinset.filter t.New

/-- Lookups of one key have returned one number, and there is one more number for each new
key. -/
structure Agree (s : SharedTable κ ι) : Prop where
  same : ∀ k i j, (k, i) ∈ s.returned → (k, j) ∈ s.returned → i = j
  growth : s.table.next = t.next + (newKeys t s.returned).card

/-- A lookup that finds the slot empty is the only one under way that has, and its key is not
the first one. -/
def Alone (s : SharedTable κ ι) : SharedTurn κ ι → Prop
  | .read i k => s.waiting i = none → s.table.slot k = 0 →
      (∀ j, s.waiting j ≠ some k) ∧ t.key 0 ≠ k
  | .fill _ => True

/-- Numbers returned are those in the slots, and a key whose slot has been found empty is a
new one that one thread alone is about to fill. -/
structure Orderly (s : SharedTable κ ι) : Prop where
  pos : 0 < s.table.next
  filled : ∀ k i, (k, i) ∈ s.returned → i ≠ 0 ∧ s.table.slot k = i
  waiting : ∀ i k, s.waiting i = some k → s.table.slot k = 0 ∧ t.New k
  alone : ∀ i j k, s.waiting i = some k → s.waiting j = some k → i = j
  known : ∀ k, t.New k → s.table.slot k ≠ 0 → k ∈ newKeys t s.returned
  empty : ∀ k, s.table.slot k = 0 → t.slot k = 0
  growth : s.table.next = t.next + (newKeys t s.returned).card

variable {t}

theorem newKeys_cons (k : κ) (i : Nat) (returned : List (κ × Nat)) :
    newKeys t ((k, i) :: returned) =
      if t.New k then insert k (newKeys t returned) else newKeys t returned := by
  simp [newKeys, Finset.filter_insert]

theorem Orderly.agree {s : SharedTable κ ι} (h : s.Orderly t) : s.Agree t := by
  refine ⟨?_, h.growth⟩
  intro k i j hi hj
  rw [← (h.filled k i hi).2, ← (h.filled k j hj).2]

theorem Orderly.start (ht : t.Settled) (hpos : 0 < t.next) :
    (start t : SharedTable κ ι).Orderly t := by
  refine ⟨hpos, ?_, ?_, ?_, ?_, fun _ hk => hk, ?_⟩
  · intro k i hi
    exact absurd hi List.not_mem_nil
  · intro i k hi
    cases hi
  · intro i j k hi
    cases hi
  · intro k hnew hk
    exact absurd (hnew.slot ht.linked) hk
  · rfl

theorem Orderly.hit {s : SharedTable κ ι} (h : s.Orderly t) {k : κ} (hk : s.table.slot k ≠ 0) :
    Orderly t { s with returned := (k, s.table.slot k) :: s.returned } := by
  have hkeys : newKeys t ((k, s.table.slot k) :: s.returned) = newKeys t s.returned := by
    rw [newKeys_cons]
    split_ifs with hnew
    · exact Finset.insert_eq_self.mpr (h.known k hnew hk)
    · rfl
  refine ⟨h.pos, ?_, h.waiting, h.alone, ?_, h.empty, ?_⟩
  · intro j i hi
    cases List.mem_cons.mp hi with
    | inl e =>
      cases e
      exact ⟨hk, rfl⟩
    | inr hi => exact h.filled j i hi
  · intro j hj hs
    rw [hkeys]
    exact h.known j hj hs
  · rw [hkeys]
    exact h.growth

end

variable [DecidableEq κ] [DecidableEq ι]

def step (s : SharedTable κ ι) : SharedTurn κ ι → SharedTable κ ι
  | .read i k =>
    match s.waiting i with
    | some _ => s
    | none =>
      if s.table.slot k = 0 then { s with waiting := Function.update s.waiting i (some k) }
      else { s with returned := (k, s.table.slot k) :: s.returned }
  | .fill i =>
    match s.waiting i with
    | none => s
    | some k =>
      ⟨s.table.fill k, Function.update s.waiting i none, (k, s.table.next) :: s.returned⟩

inductive Moved (s : SharedTable κ ι) : SharedTable κ ι → Prop
  | idle : Moved s s
  | hit (k : κ) : s.table.slot k ≠ 0 →
      Moved s { s with returned := (k, s.table.slot k) :: s.returned }
  | miss (i : ι) (k : κ) : s.waiting i = none → s.table.slot k = 0 →
      Moved s { s with waiting := Function.update s.waiting i (some k) }
  | filled (i : ι) (k : κ) : s.waiting i = some k →
      Moved s ⟨s.table.fill k, Function.update s.waiting i none,
        (k, s.table.next) :: s.returned⟩

theorem step_moved (s : SharedTable κ ι) (e : SharedTurn κ ι) : s.Moved (s.step e) := by
  cases e with
  | read i k =>
    cases hw : s.waiting i with
    | some k' =>
      simp only [step, hw]
      exact .idle
    | none =>
      simp only [step, hw]
      split_ifs with hk
      · exact .miss i k hw hk
      · exact .hit k hk
  | fill i =>
    cases hw : s.waiting i with
    | none =>
      simp only [step, hw]
      exact .idle
    | some k =>
      simp only [step, hw]
      exact .filled i k hw

def run (s : SharedTable κ ι) (es : List (SharedTurn κ ι)) : SharedTable κ ι := es.foldl step s

theorem run_keeps {I : SharedTable κ ι → Prop} (keep : ∀ s t, I s → s.Moved t → I t)
    {s : SharedTable κ ι} (hs : I s) (es : List (SharedTurn κ ι)) : I (s.run es) := by
  induction es generalizing s with
  | nil => exact hs
  | cons e es ih => exact ih (keep s _ hs (s.step_moved e))

variable {t : SlotTable κ}

theorem Orderly.miss {s : SharedTable κ ι} (h : s.Orderly t) {i : ι} {k : κ}
    (hk : s.table.slot k = 0) (hnew : t.New k) (halone : ∀ j, s.waiting j ≠ some k) :
    Orderly t { s with waiting := Function.update s.waiting i (some k) } := by
  have hcases : ∀ j k', Function.update s.waiting i (some k) j = some k' →
      j = i ∧ k' = k ∨ s.waiting j = some k' := by
    intro j k' hj
    by_cases e : j = i
    · subst j
      rw [Function.update_self] at hj
      exact .inl ⟨rfl, (Option.some.inj hj).symm⟩
    · rw [Function.update_of_ne e] at hj
      exact .inr hj
  refine ⟨h.pos, h.filled, ?_, ?_, h.known, h.empty, h.growth⟩
  · intro j k' hj
    cases hcases j k' hj with
    | inl e =>
      rw [e.2]
      exact ⟨hk, hnew⟩
    | inr hj => exact h.waiting j k' hj
  · intro j j' k' hj hj'
    cases hcases j k' hj with
    | inl e =>
      cases hcases j' k' hj' with
      | inl e' => exact e.1.trans e'.1.symm
      | inr hj' => exact absurd hj' (e.2 ▸ halone j')
    | inr hj =>
      cases hcases j' k' hj' with
      | inl e' => exact absurd hj (e'.2 ▸ halone j)
      | inr hj' => exact h.alone j j' k' hj hj'

theorem Orderly.fill {s : SharedTable κ ι} (h : s.Orderly t) {i : ι} {k : κ}
    (hw : s.waiting i = some k) :
    Orderly t ⟨s.table.fill k, Function.update s.waiting i none,
      (k, s.table.next) :: s.returned⟩ := by
  obtain ⟨hk, hnew⟩ := h.waiting i k hw
  have hfresh : ∀ j, (k, j) ∉ s.returned := by
    intro j hj
    obtain ⟨hne, e⟩ := h.filled k j hj
    exact hne (e.symm.trans hk)
  have hkeys : newKeys t ((k, s.table.next) :: s.returned) =
      insert k (newKeys t s.returned) := by
    rw [newKeys_cons, if_pos hnew]
  have hother : ∀ j k', Function.update s.waiting i none j = some k' →
      s.waiting j = some k' ∧ k' ≠ k := by
    intro j k' hj
    have hne : j ≠ i := by
      intro e
      rw [e, Function.update_self] at hj
      cases hj
    rw [Function.update_of_ne hne] at hj
    refine ⟨hj, ?_⟩
    intro e
    exact hne (h.alone j i k (e ▸ hj) hw)
  refine ⟨Nat.succ_pos _, ?_, ?_, ?_, ?_, ?_, ?_⟩
  · intro k' j hj
    cases List.mem_cons.mp hj with
    | inl e =>
      cases e
      exact ⟨Nat.ne_of_gt h.pos, Function.update_self _ _ _⟩
    | inr hj =>
      have hne : k' ≠ k := fun e => hfresh j (e ▸ hj)
      simp only [SlotTable.fill, Function.update_of_ne hne]
      exact h.filled k' j hj
  · intro j k' hj
    obtain ⟨hj, hne⟩ := hother j k' hj
    simp only [SlotTable.fill, Function.update_of_ne hne]
    exact h.waiting j k' hj
  · intro j j' k' hj hj'
    exact h.alone j j' k' (hother j k' hj).1 (hother j' k' hj').1
  · intro k' hk' hs
    rw [hkeys, Finset.mem_insert]
    by_cases e : k' = k
    · exact .inl e
    · simp only [SlotTable.fill, Function.update_of_ne e] at hs
      exact .inr (h.known k' hk' hs)
  · intro k' hs
    by_cases e : k' = k
    · rw [e]
      exact h.empty k hk
    · simp only [SlotTable.fill, Function.update_of_ne e] at hs
      exact h.empty k' hs
  · have hmem : k ∉ newKeys t s.returned := by
      simp [newKeys, hfresh]
    rw [hkeys, Finset.card_insert_of_notMem hmem]
    have hg := h.growth
    simp only [SlotTable.fill]
    omega

theorem Orderly.step {s : SharedTable κ ι} {e : SharedTurn κ ι} (h : s.Orderly t)
    (ht : t.Settled) (hok : s.Alone t e) : (s.step e).Orderly t := by
  cases e with
  | read i k =>
    cases hw : s.waiting i with
    | some k' =>
      simp only [SharedTable.step, hw]
      exact h
    | none =>
      simp only [SharedTable.step, hw]
      split_ifs with hk
      · obtain ⟨halone, h0⟩ := hok hw hk
        exact h.miss hk (ht.new (h.empty k hk) h0) halone
      · exact h.hit hk
  | fill i =>
    cases hw : s.waiting i with
    | none =>
      simp only [SharedTable.step, hw]
      exact h
    | some k =>
      simp only [SharedTable.step, hw]
      exact h.fill hw

omit [DecidableEq κ] in
theorem waiting_of_idle {s : SharedTable κ ι} {i j : ι} {k : κ} (o : Option κ)
    (hi : s.waiting i = none) (hj : s.waiting j = some k) :
    Function.update s.waiting i o j = some k := by
  have hne : j ≠ i := by
    intro e
    rw [e, hi] at hj
    cases hj
  rwa [Function.update_of_ne hne]

/-- Two threads on their way to the slot of one key: each is about to fill it, or has
returned a number of its own. -/
structure Twice (i j : ι) (k : κ) (s : SharedTable κ ι) : Prop where
  settled : s.table.Settled
  below : ∀ n, (k, n) ∈ s.returned → n < s.table.next
  both : s.waiting i = some k ∧ s.waiting j = some k ∨
    (s.waiting i = some k ∨ s.waiting j = some k) ∧ (∃ n, (k, n) ∈ s.returned) ∨
    ∃ m n, m ≠ n ∧ (k, m) ∈ s.returned ∧ (k, n) ∈ s.returned

/-- The thread that fills a slot is one of the two, or has another key, or comes third. -/
theorem Twice.filled {s : SharedTable κ ι} {i j i' : ι} {k k' : κ} (hij : i ≠ j)
    (h : s.Twice i j k) (hi' : s.waiting i' = some k') :
    Twice i j k ⟨s.table.fill k', Function.update s.waiting i' none,
      (k', s.table.next) :: s.returned⟩ := by
  have hbelow : ∀ n, (k, n) ∈ (k', s.table.next) :: s.returned → n < s.table.next + 1 := by
    intro n hn
    cases List.mem_cons.mp hn with
    | inl e =>
      cases e
      exact Nat.lt_succ_self _
    | inr hn => exact Nat.lt_succ_of_lt (h.below n hn)
  refine ⟨h.settled.fill k', hbelow, ?_⟩
  -- a waiting thread other than the one that moves keeps waiting
  have keep : ∀ x, s.waiting x = some k → x = i' ∧ k' = k ∨
      Function.update s.waiting i' none x = some k := by
    intro x hx
    by_cases e : x = i'
    · rw [e, hi'] at hx
      exact .inl ⟨e, Option.some.inj hx⟩
    · rw [Function.update_of_ne e]
      exact .inr hx
  rcases h.both with ⟨hi, hj⟩ | ⟨hw, n, hn⟩ | ⟨m, n, hne, hm, hn⟩
  · rcases keep i hi with ⟨ei, rfl⟩ | hi'
    · rcases keep j hj with ⟨ej, _⟩ | hj
      · exact absurd (ei.trans ej.symm) hij
      · exact .inr (.inl ⟨.inr hj, _, List.mem_cons_self⟩)
    · rcases keep j hj with ⟨_, rfl⟩ | hj
      · exact .inr (.inl ⟨.inl hi', _, List.mem_cons_self⟩)
      · exact .inl ⟨hi', hj⟩
  · have hw' : k' = k ∨ Function.update s.waiting i' none i = some k ∨
        Function.update s.waiting i' none j = some k := by
      rcases hw with hi | hj
      · exact (keep i hi).imp And.right .inl
      · exact (keep j hj).imp And.right .inr
    cases hw' with
    | inl e =>
      subst e
      right
      right
      exact ⟨n, s.table.next, Nat.ne_of_lt (h.below n hn), List.mem_cons_of_mem _ hn,
        List.mem_cons_self⟩
    | inr hw => exact .inr (.inl ⟨hw, n, List.mem_cons_of_mem _ hn⟩)
  · exact .inr (.inr ⟨m, n, hne, List.mem_cons_of_mem _ hm, List.mem_cons_of_mem _ hn⟩)

theorem Twice.moved {s s' : SharedTable κ ι} {i j : ι} {k : κ} (hij : i ≠ j)
    (h : s.Twice i j k) (hm : s.Moved s') : s'.Twice i j k := by
  cases hm with
  | idle => exact h
  | hit k' hk' =>
    refine ⟨h.settled, ?_, ?_⟩
    · intro n hn
      cases List.mem_cons.mp hn with
      | inl e =>
        cases e
        exact (h.settled.linked k hk').1
      | inr hn => exact h.below n hn
    · rcases h.both with hb | ⟨hw, n, hn⟩ | ⟨m, n, hne, hm, hn⟩
      · exact .inl hb
      · exact .inr (.inl ⟨hw, n, List.mem_cons_of_mem _ hn⟩)
      · exact .inr (.inr ⟨m, n, hne, List.mem_cons_of_mem _ hm, List.mem_cons_of_mem _ hn⟩)
  | miss i' k' hi' hk' =>
    refine ⟨h.settled, h.below, ?_⟩
    rcases h.both with ⟨hi, hj⟩ | ⟨hw, hn⟩ | hb
    · exact .inl ⟨waiting_of_idle _ hi' hi, waiting_of_idle _ hi' hj⟩
    · exact .inr (.inl ⟨hw.imp (waiting_of_idle _ hi') (waiting_of_idle _ hi'), hn⟩)
    · exact .inr (.inr hb)
  | filled i' k' hi' => exact h.filled hij hi'

omit [DecidableEq ι] in
theorem Twice.not_agree {s : SharedTable κ ι} {i j : ι} {k : κ} (h : s.Twice i j k)
    (hdone : ∀ i, s.waiting i = none) : ¬ s.Agree t := by
  intro ha
  rcases h.both with ⟨hi, _⟩ | ⟨hi | hj, _⟩ | ⟨m, n, hne, hm, hn⟩
  · rw [hdone] at hi
    cases hi
  · rw [hdone] at hi
    cases hi
  · rw [hdone] at hj
    cases hj
  · exact hne (ha.same k m n hm hn)

/-- `n` numbers more have been handed out than new keys have a slot. -/
def Spare (t : SlotTable κ) (n : Nat) (s : SharedTable κ ι) : Prop :=
  (∀ k i, (k, i) ∈ s.returned → s.table.slot k ≠ 0) ∧
  ∃ keys : Finset κ, t.next + keys.card + n ≤ s.table.next ∧
    ∀ k, t.New k → s.table.slot k ≠ 0 → k ∈ keys

/-- Filling a slot keeps the surplus, and adds to it if the key is not a new one. -/
theorem Spare.filled {s : SharedTable κ ι} {n : Nat} (hpos : 0 < t.next) (h : s.Spare t n)
    (i : ι) (k : κ) :
    Spare t (if t.New k then n else n + 1) ⟨s.table.fill k, Function.update s.waiting i none,
      (k, s.table.next) :: s.returned⟩ := by
  obtain ⟨hret, keys, hle, hkeys⟩ := h
  have hnext : 0 < s.table.next := by omega
  refine ⟨?_, if t.New k then insert k keys else keys, ?_, ?_⟩
  · intro k' j hj
    cases List.mem_cons.mp hj with
    | inl e =>
      cases e
      simp only [SlotTable.fill, Function.update_self]
      exact Nat.ne_of_gt hnext
    | inr hj => exact SlotTable.fill_slot hnext (hret k' j hj)
  · have hcard := Finset.card_insert_le k keys
    simp only [SlotTable.fill]
    split_ifs <;> omega
  · intro k' hnew hs
    by_cases e : k' = k
    · subst e
      rw [if_pos hnew]
      exact Finset.mem_insert_self k' keys
    · simp only [SlotTable.fill, Function.update_of_ne e] at hs
      have hmem := hkeys k' hnew hs
      split_ifs
      · exact Finset.mem_insert_of_mem hmem
      · exact hmem

/-- A thread is about to fill the slot of a key that is not new, or has. -/
def Wasted (t : SlotTable κ) (i : ι) (k : κ) (s : SharedTable κ ι) : Prop :=
  s.Spare t 1 ∨ s.waiting i = some k ∧ s.Spare t 0

theorem Spare.moved {s s' : SharedTable κ ι} {n : Nat} (hpos : 0 < t.next) (h : s.Spare t n)
    (hm : s.Moved s') : s'.Spare t n := by
  cases hm with
  | idle => exact h
  | hit k hk =>
    refine ⟨?_, h.2⟩
    intro k' i hi
    cases List.mem_cons.mp hi with
    | inl e =>
      cases e
      exact hk
    | inr hi => exact h.1 k' i hi
  | miss i k hi hk => exact h
  | filled i k hi =>
    obtain ⟨hret, keys, hle, hkeys⟩ := h.filled hpos i k
    refine ⟨hret, keys, ?_, hkeys⟩
    split_ifs at hle <;> omega

theorem Wasted.moved {s s' : SharedTable κ ι} {i : ι} {k : κ} (hpos : 0 < t.next)
    (hk : ¬ t.New k) (h : s.Wasted t i k) (hm : s.Moved s') : s'.Wasted t i k := by
  cases h with
  | inl h => exact .inl (h.moved hpos hm)
  | inr h =>
    obtain ⟨hi, h⟩ := h
    have h' := h.moved hpos hm
    cases hm with
    | idle => exact .inr ⟨hi, h⟩
    | hit k' hk' => exact .inr ⟨hi, h'⟩
    | miss i' k' hi' hk' => exact .inr ⟨waiting_of_idle _ hi' hi, h'⟩
    | filled i' k' hi' =>
      by_cases e : i = i'
      · subst e
        have ek : k = k' := Option.some.inj (hi.symm.trans hi')
        subst ek
        have hone := h.filled hpos i k
        rw [if_neg hk] at hone
        exact .inl hone
      · refine .inr ⟨?_, h'⟩
        show Function.update s.waiting i' none i = some k
        rwa [Function.update_of_ne e]

omit [DecidableEq ι] in
theorem Wasted.not_agree {s : SharedTable κ ι} {i : ι} {k : κ} (h : s.Wasted t i k)
    (hdone : ∀ i, s.waiting i = none) : ¬ s.Agree t := by
  intro ha
  cases h with
  | inl h =>
    obtain ⟨hret, keys, hle, hkeys⟩ := h
    have hsub : newKeys t s.returned ⊆ keys := by
      intro k' hk'
      simp only [newKeys, Finset.mem_filter, List.mem_toFinset, List.mem_map] at hk'
      obtain ⟨⟨⟨k1, j⟩, hj, rfl⟩, hnew⟩ := hk'
      exact hkeys k1 hnew (hret k1 j hj)
    have hcard := Finset.card_le_card hsub
    have hg := ha.growth
    omega
  | inr h =>
    rw [hdone] at h
    cases h.1

/-- A lookup that is not alone spoils the run it is part of. -/
theorem not_agree_of_not_alone {s : SharedTable κ ι} {e : SharedTurn κ ι}
    {es : List (SharedTurn κ ι)}
    (hpos : 0 < t.next) (h : s.Orderly t) (hs : s.table.Settled)
    (hok : ¬ s.Alone t e) (hdone : ∀ i, ((s.step e).run es).waiting i = none) :
    ¬ ((s.step e).run es).Agree t := by
  cases e with
  | fill i => exact absurd trivial hok
  | read i k =>
    simp only [Alone, Classical.not_imp, not_and_or, not_forall, not_not] at hok
    obtain ⟨hi, hk, hok⟩ := hok
    have hstep : s.step (.read i k) =
        { s with waiting := Function.update s.waiting i (some k) } := by
      simp only [step, hi, if_pos hk]
    rw [hstep] at hdone ⊢
    cases hok with
    | inl hj =>
      obtain ⟨j, hj⟩ := hj
      have hij : i ≠ j := by
        intro e
        rw [← e, hi] at hj
        cases hj
      refine Twice.not_agree (run_keeps (I := Twice i j k) (fun s s' => Twice.moved hij) ?_ es)
        hdone
      refine ⟨hs, ?_, .inl ⟨Function.update_self _ _ _, waiting_of_idle _ hi hj⟩⟩
      intro n hn
      obtain ⟨hne, e⟩ := h.filled k n hn
      exact absurd (e.symm.trans hk) hne
    | inr h0 =>
      have hold : ¬ t.New k := fun hnew => hnew 0 hpos h0
      refine Wasted.not_agree
        (run_keeps (I := Wasted t i k) (fun s s' => Wasted.moved hpos hold) ?_ es) hdone
      refine .inr ⟨Function.update_self _ _ _, ?_, newKeys t s.returned, ?_, h.known⟩
      · intro k' j hj
        obtain ⟨hne, e⟩ := h.filled k' j hj
        exact e ▸ hne
      · exact Nat.le_of_eq h.growth.symm

theorem step_settled {s : SharedTable κ ι} (h : s.table.Settled) (e : SharedTurn κ ι) :
    (s.step e).table.Settled := by
  have hm := s.step_moved e
  generalize s.step e = s' at hm
  cases hm with
  | idle => exact h
  | hit => exact h
  | miss => exact h
  | filled i k => exact h.fill k

/-- In a run that all threads have finished, exactly if every lookup that found its slot empty
was alone do the lookups agree. -/
theorem agree_iff {s : SharedTable κ ι} (ht : t.Settled) (hpos : 0 < t.next) (h : s.Orderly t)
    (hs : s.table.Settled) {es : List (SharedTurn κ ι)}
    (hdone : ∀ i, (s.run es).waiting i = none) :
    (s.run es).Agree t ↔ Always step (Alone t) s es := by
  induction es generalizing s with
  | nil => exact ⟨fun _ => trivial, fun _ => h.agree⟩
  | cons e es ih =>
    by_cases hok : s.Alone t e
    · rw [Always, and_iff_right hok]
      exact ih (h.step ht hok) (step_settled hs e) hdone
    · constructor
      · intro ha
        exact absurd ha (not_agree_of_not_alone hpos h hs hok hdone)
      · intro hall
        exact absurd hall.1 hok

end SharedTable

end FastParse.Framework
