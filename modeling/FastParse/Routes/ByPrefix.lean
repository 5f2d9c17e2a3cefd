import FastParse.Routes.RefCounts

namespace FastParse

open Framework

/-- A prefix without a number is a new one, not the one at index zero, and there is room. -/
def Bigtable.KeepsPlace (t : Bigtable) (la : Nat) : Prop :=
  lengthOf la ≤ 24 → t.rib (prefixWord la) = 0 →
    ¬ t.slots.Filed (prefixWord la) ∧ t.bigtableIndex < big

instance (t : Bigtable) (la : Nat) : Decidable (t.KeepsPlace la) := by
  unfold Bigtable.KeepsPlace
  infer_instance

namespace State

def slotOf (s : State) (k : Fin npeers × Nat) : Ptr :=
  s.tables.slots.read null (fun i => s.routing.adjRibIn (k.1, i)) k.2

def headOf (s : State) : Nat → Ptr := s.tables.slots.read null s.routing.head

/-- The arrays are blank where no index has been handed out. -/
structure Filing (s : State) : Prop where
  linked : s.tables.slots.Linked
  room : s.tables.bigtableIndex ≤ big
  blankSlots : ∀ pn i, s.tables.bigtableIndex ≤ i → s.routing.adjRibIn (pn, i) = null
  blankHeads : ∀ i, s.tables.bigtableIndex ≤ i → s.routing.head i = null

theorem start_filing (env : Env) : (start env).Filing := by
  refine ⟨?_, Nat.zero_le big, fun _ _ _ => rfl, fun _ _ => rfl⟩
  intro k hk
  exact absurd rfl hk

theorem Filing.congr {s s' : State} (h : s.Filing) (htables : s'.tables = s.tables)
    (hadj : s'.routing.adjRibIn = s.routing.adjRibIn) (hhead : s'.routing.head = s.routing.head) :
    s'.Filing ∧ s'.slotOf = s.slotOf ∧ s'.headOf = s.headOf := by
  refine ⟨⟨?_, ?_, ?_, ?_⟩, ?_, ?_⟩
  · rw [htables]
    exact h.linked
  · rw [htables]
    exact h.room
  · rw [htables, hadj]
    exact h.blankSlots
  · rw [htables, hhead]
    exact h.blankHeads
  · funext k
    rw [slotOf, htables, hadj, slotOf]
  · rw [headOf, htables, hhead, headOf]

theorem Filing.counted {s : State} (h : s.Filing) (n : Nat) :
    ({ s with msgCount := n } : State).Filing :=
  ⟨h.linked, h.room, h.blankSlots, h.blankHeads⟩

/-- A call of `update_adj_rib_in` in terms of the prefix it is for. -/
structure CalledAt (s : State) (pn : Fin npeers) (w : Nat) (route : Ptr) (a : Nat)
    (s' : State) : Prop where
  called : s.routing.Called pn a route s'.routing
  slot : s.slotOf (pn, w) = s.routing.adjRibIn (pn, a)
  slots : s'.slotOf = Function.update s.slotOf (pn, w) route
  heads : s'.headOf =
    if route ≠ null ∧ (s.headOf w = null ∨
        s.routing.tiebreak route ≠ s.routing.tiebreak (s.headOf w)) then
      Function.update s.headOf w route
    else s.headOf

section
variable {env : Env} {pn : Fin npeers} {route : Ptr} {step : State → Nat × Bool → Exec State}

theorem index_of_lt {a : Nat} (h : a < big) : a &&& lrIndexMask = a := by
  rw [lrIndexMask, show 0x7fffffff = 2 ^ 31 - 1 from rfl, Nat.and_two_pow_sub_one_eq_mod]
  apply Nat.mod_eq_of_lt
  exact h.trans (by decide)

theorem room_lookup {t : Bigtable} {la : Nat} (hk : t.KeepsPlace la) (hroom : t.bigtableIndex ≤ big)
    (h : lengthOf la ≤ 24) : (t.slots.lookup (prefixWord la)).2.next ≤ big := by
  by_cases hz : t.slots.slot (prefixWord la) = 0
  · rw [SlotTable.lookup_new hz]
    exact (hk h hz).2
  · rw [SlotTable.lookup_old hz]
    exact hroom

/-- A store at the index of a prefix, in the tables after the lookup. -/
theorem read_store {t t' : SlotTable Nat} {w : Nat} (ht : t' = (t.lookup w).2) (hl : t.Linked)
    (hk : t.slot w = 0 → ¬ t.Filed w) {f : Nat → Ptr} (hblank : ∀ i, t.next ≤ i → f i = null)
    (x : Ptr) :
    t'.read null (Function.update f (t.lookup w).1 x) =
        Function.update (t.read null f) w x ∧
      t'.read null f = t.read null f ∧ t.read null f w = f (t.lookup w).1 := by
  obtain ⟨hslot, hfiled⟩ := hl.filed_lookup w
  have hread := SlotTable.read_lookup null hk hblank
  rw [ht]
  refine ⟨?_, hread, ?_⟩
  · rw [← hslot, SlotTable.read_update null hfiled, hread]
  · rw [← hread, SlotTable.read_filed null hfiled, hslot]

theorem Filing.called {s s' : State} {w : Nat} (hf : s.Filing)
    (hk : s.tables.slots.slot w = 0 → ¬ s.tables.slots.Filed w)
    (ht : s'.tables.slots = (s.tables.slots.lookup w).2)
    (hd : s.routing.Called pn (s.tables.slots.lookup w).1 route s'.routing) :
    s.CalledAt pn w route (s.tables.slots.lookup w).1 s' := by
  have store {f : Nat → Ptr} := @read_store _ _ w ht hf.linked hk f
  generalize (s.tables.slots.lookup w).1 = a at hd store ⊢
  have hslot (qn : Fin npeers) (x : Ptr) :=
    @store (fun i => s.routing.adjRibIn (qn, i)) (hf.blankSlots qn) x
  have hhead := @store s.routing.head hf.blankHeads
  refine ⟨hd, (hslot pn null).2.2, ?_, ?_⟩
  · funext k
    obtain ⟨qn, v⟩ := k
    rw [slotOf, hd.adjRibIn]
    by_cases e : qn = pn
    · subst e
      have hcol : (fun i => Function.update s.routing.adjRibIn (qn, a) route (qn, i)) =
          Function.update (fun i => s.routing.adjRibIn (qn, i)) a route := by
        funext i
        by_cases ei : i = a
        · simp [ei]
        · simp [ei]
      simp only [hcol, (hslot qn route).1]
      by_cases ev : v = w
      · simp [ev]
      · simp [ev, slotOf]
    · have hcol : (fun i => Function.update s.routing.adjRibIn (pn, a) route (qn, i)) =
          fun i => s.routing.adjRibIn (qn, i) := by
        funext i
        simp [e]
      simp only [hcol, (hslot qn route).2.1]
      simp [e, slotOf]
  · have hold : s.headOf w = s.routing.head a := (hhead null).2.2
    rw [headOf, hd.head, hold]
    split_ifs
    · exact (hhead route).1
    · exact (hhead route).2.1

theorem called_blank {s s' : Routing} {a n : Nat} (hd : s.Called pn a route s') (ha : a < n)
    (hslots : ∀ qn i, n ≤ i → s.adjRibIn (qn, i) = null) (hheads : ∀ i, n ≤ i → s.head i = null) :
    (∀ qn i, n ≤ i → s'.adjRibIn (qn, i) = null) ∧ ∀ i, n ≤ i → s'.head i = null := by
  constructor
  · intro qn i hi
    have hne : (qn, i) ≠ (pn, a) := by
      intro e
      have hia := (Prod.mk.inj e).2
      omega
    rw [hd.adjRibIn, Function.update_of_ne hne]
    exact hslots qn i hi
  · intro i hi
    cases update_if_cases hd.head i with
    | inl hw =>
      have hia := hw.1
      omega
    | inr hw =>
      rw [hw.2]
      exact hheads i hi

/-- An entry with a short prefix is a call at the index of that prefix. -/
theorem entry_short (hstep : EntryCalls env pn route step ∧ EntryLookup step) {s s' : State}
    {entry : Nat × Bool} (hf : s.Filing) (hk : s.tables.KeepsPlace entry.1)
    (hshort : lengthOf entry.1 ≤ 24) (h : step s entry = .ok s') :
    s'.Filing ∧ ∃ a, lookupRib64 s.tables entry.1 = .ok (a, s'.tables) ∧ tooBig ≠ a ∧
      a &&& lrIndexMask = a ∧ s.CalledAt pn (prefixWord entry.1) route a s' := by
  obtain ⟨a, t, hl, hc⟩ := hstep.1 s entry s' h
  obtain ⟨_, hl'⟩ := hstep.2 s entry s' h
  obtain ⟨rfl, rfl⟩ := Prod.mk.inj (Except.ok.inj (hl'.symm.trans hl))
  rw [lookupRib64_short _ hshort] at hl'
  obtain ⟨rfl, ht⟩ := Prod.mk.inj (Except.ok.inj hl')
  have hslots : s'.tables.slots = (s.tables.slots.lookup (prefixWord entry.1)).2 := by
    rw [← ht]
    rfl
  -- the index is small enough to be told from the flag and from `TOO_BIG`
  have hroom : s'.tables.bigtableIndex ≤ big := by
    rw [show s'.tables.bigtableIndex = _ from congrArg SlotTable.next hslots]
    exact room_lookup hk hf.room hshort
  have hindex : (s.tables.slots.lookup (prefixWord entry.1)).1 < s'.tables.bigtableIndex := by
    rw [show s'.tables.bigtableIndex = _ from congrArg SlotTable.next hslots]
    exact (hf.linked.index (prefixWord entry.1)).1
  have hle : s.tables.bigtableIndex ≤ s'.tables.bigtableIndex := by
    rw [show s'.tables.bigtableIndex = _ from congrArg SlotTable.next hslots]
    exact SlotTable.next_le_lookup s.tables.slots (prefixWord entry.1)
  have hbig := hindex.trans_le hroom
  have hsmall : tooBig ≠ (s.tables.slots.lookup (prefixWord entry.1)).1 := by
    rw [tooBig]
    omega
  have hmask := index_of_lt hbig
  have hd := Routing.updateAdjRibIn_called (hc.resolve_left fun e => hsmall e.1).2
  rw [entry_index, hmask] at hd
  obtain ⟨hblankSlots, hblankHeads⟩ := called_blank hd hindex
    (fun qn i hi => hf.blankSlots qn i (hle.trans hi)) (fun i hi => hf.blankHeads i (hle.trans hi))
  refine ⟨⟨?_, hroom, hblankSlots, hblankHeads⟩, _, hl, hsmall, hmask,
    hf.called (fun hz => (hk hshort hz).1) hslots hd⟩
  rw [hslots]
  exact hf.linked.lookup _

/-- An entry with a long prefix changes nothing but the counters. -/
theorem entry_long (hstep : EntryCalls env pn route step ∧ EntryLookup step) {s s' : State}
    {entry : Nat × Bool} (hlong : 24 < lengthOf entry.1) (h : step s entry = .ok s') :
    s'.routing = s.routing ∧ s'.tables = s.tables := by
  obtain ⟨a, t, hl, hc⟩ := hstep.1 s entry s' h
  obtain ⟨a', hl'⟩ := hstep.2 s entry s' h
  rw [lookupRib64_long _ hlong] at hl hl'
  obtain ⟨rfl, rfl⟩ := Prod.mk.inj (Except.ok.inj hl)
  obtain ⟨_, htables⟩ := Prod.mk.inj (Except.ok.inj hl')
  exact ⟨(hc.resolve_right fun e => e.1 rfl).2, htables.symm⟩

end

/-- All entries of a message that are looked up meet the condition. -/
def PlacesKept (env : Env) (s : State) (msg : Message) : Prop :=
  match messageRoute env { s with msgCount := s.msgCount + 1 } msg with
  | .error _ => True
  | .ok (route, s1) =>
    StepsOk (nlriStep env msg.peer route) (fun s entry => s.tables.KeepsPlace entry.1) s1
      msg.announced ∧
    match msg.announced.foldlM (nlriStep env msg.peer route) s1 with
    | .error _ => True
    | .ok s2 =>
      StepsOk (withdrawStep env msg.peer) (fun s entry => s.tables.KeepsPlace entry.1) s2
        msg.withdrawals

instance (env : Env) (s : State) (msg : Message) : Decidable (PlacesKept env s msg) := by
  delta PlacesKept
  exact
    match messageRoute env { s with msgCount := s.msgCount + 1 } msg with
    | .error _ => instDecidableTrue
    | .ok (route, s1) =>
      @instDecidableAnd _ _ _
        (match msg.announced.foldlM (nlriStep env msg.peer route) s1 with
        | .error _ => instDecidableTrue
        | .ok _ => inferInstance)

end State

end FastParse
