import FastParse.Framework.Assign
import FastParse.Phase3.Prefixes
import FastParse.Routes.Interleaved

namespace FastParse

open Framework State

/-- What tells a route from others: its number, what it is compared by, its attributes. -/
abbrev Identity := Nat × Tiebreak × List UInt8

/-- Which route each peer has for each prefix, and the number of the next route. -/
structure Reference where
  map : Fin npeers × Nat → Option Identity
  unique : Nat

namespace Message

variable (msg : Message)

def announcedKeys : List (Fin npeers × Nat) :=
  (words (msg.announced.map Prod.fst)).map fun w => (msg.peer, w)

def withdrawnKeys : List (Fin npeers × Nat) :=
  (words (msg.withdrawals.map Prod.fst)).map fun w => (msg.peer, w)

/-- The route that the message announces its prefixes with. -/
def described (unique : Nat) : Option Identity :=
  if msg.HasRoute then
    match msg.tiebreak with
    | .ok tb => some (unique, tb, msg.attributeBytes)
    | .error _ => none
  else none

end Message

namespace Reference

def empty : Reference := ⟨fun _ => none, 0⟩

def nextUnique (t : Reference) (msg : Message) : Nat :=
  if msg.HasRoute then (t.unique + 1) % 2 ^ 64 else t.unique

/-- A message with its withdrawn routes before its NLRI. -/
def step (t : Reference) (msg : Message) : Reference where
  map := assign msg.announcedKeys (msg.described t.unique) (assign msg.withdrawnKeys none t.map)
  unique := t.nextUnique msg

/-- The order in which `parse_update` walks the two sections. -/
def walk (t : Reference) (msg : Message) : Reference where
  map := assign msg.withdrawnKeys none (assign msg.announcedKeys (msg.described t.unique) t.map)
  unique := t.nextUnique msg

theorem walk_eq_step {t : Reference} {msg : Message}
    (h : msg.HasRoute → ∀ k ∈ msg.withdrawnKeys, k ∉ msg.announcedKeys) :
    t.walk msg = t.step msg := by
  have hagree : ∀ k ∈ msg.withdrawnKeys, k ∈ msg.announcedKeys →
      none = msg.described t.unique := by
    intro k hk hk'
    by_cases hm : msg.HasRoute
    · exact absurd hk' (h hm k hk)
    · exact (if_neg hm).symm
  rw [walk, step, assign_comm hagree]

end Reference

namespace Routing

def identity (s : Routing) (p : Ptr) : Identity := ((s.slab.heap p).unique, (s.content p).2)

theorem release_unique (slab : Slab (Fin npeers)) (pn : Fin npeers) {p q : Ptr}
    (h : q = p → (slab.heap p).useCount ≠ 1) :
    ((slab.release pn p).heap q).unique = (slab.heap q).unique := by
  rw [Slab.release]
  by_cases e : q = p
  · subst e
    have hz : ¬ 0 = (slab.heap q).useCount - 1 := by
      intro hz
      apply h rfl
      have hz := congrArg (· + 1) hz
      simpa using hz.symm
    simp only [if_neg hz, Slab.setRoute, Function.update_self]
  · split_ifs
    · rw [Slab.dalloc_eq, Slab.dallocCacheLine_eq]
      simp [Slab.setLine, Slab.setRoute, e]
    · simp [Slab.setRoute, e]

section
variable {slab : Ptr} {n : Nat} {s s' : Routing} {route p q : Ptr} {pn : Fin npeers} {a : Nat}
  {cells : Fin npeers × Size → List Ptr} {i : Fin npeers × Nat}

theorem Called.content_snd (hd : s.Called pn a route s') (q : Ptr) :
    (s'.content q).2 = (s.content q).2 := by
  have hrecount (φ : UInt16 → UInt16) (f : Ptr → Content) (p q : Ptr) :
      (recount φ f p q).2 = (f q).2 := by
    rw [recount]
    split_ifs
    · rfl
    · by_cases e : q = p
      · subst e
        rw [Function.update_self]
      · rw [Function.update_of_ne e]
  rw [hd.content, hrecount, hrecount]

/-- A route in a slot is the one it was before the call. -/
theorem Called.identity (hd : s.Called pn a route s')
    (hs' : s'.SoundOn slab n route (s.swapCells pn a cells)) (hi : s'.adjRibIn i = q)
    (hq : q ≠ null) : s'.identity q = s.identity q := by
  have hswap : ((s.swapSlot pn a route).slab.heap q).unique = (s.slab.heap q).unique := by
    rw [swapSlot]
    split_ifs with hold
    · apply release_unique
      intro e hone
      -- a buffer released for the last time is on a line, and in no slot
      apply hs'.1.slot_not_free (i := i) (hi ▸ hq) (pn, s.slab.sizeClass (s.adjRibIn (pn, a)))
      rw [hi, e, swapCells, if_pos hold, Counted.releaseCells, if_pos hone, Counted.onLine,
        Function.update_self]
      exact List.mem_cons_self
    · rfl
  have hunique : (s'.slab.heap q).unique = (s.slab.heap q).unique := by
    rw [hd.slab, ← hswap]
    split_ifs
    · rw [Slab.retain, Slab.setRoute]
      by_cases e : q = route
      · subst e
        simp
      · simp [e]
    · rfl
  rw [Routing.identity, Routing.identity, hunique, hd.content_snd]

end

end Routing

/-- Every index leads to a word of its own, and that back to the index. -/
structure Indexed (t : Bigtable) : Prop where
  numbered : t.slots.Numbered
  word : ∀ i < t.bigtableIndex, 1 ≤ t.bigtable i ∧ t.bigtable i < 2 ^ 25

theorem Indexed.lookup {t t' : Bigtable} {la a : Nat} (h : Indexed t) (hk : t.KeepsPlace la)
    (hl : lookupRib64 t la = .ok (a, t')) : Indexed t' := by
  by_cases hshort : lengthOf la ≤ 24
  · rw [lookupRib64_short _ hshort] at hl
    cases hl
    refine ⟨h.numbered.lookup fun hz => (hk hshort hz).1, ?_⟩
    intro i hi
    change i < (t.slots.lookup (prefixWord la)).2.next at hi
    change 1 ≤ (t.slots.lookup (prefixWord la)).2.key i ∧
      (t.slots.lookup (prefixWord la)).2.key i < 2 ^ 25
    by_cases hz : t.slots.slot (prefixWord la) = 0
    · rw [SlotTable.lookup_new hz] at hi ⊢
      by_cases e : i = t.slots.next
      · subst e
        simp only [Function.update_self]
        exact ⟨Nat.le_add_right_of_le (Nat.two_pow_pos (lengthOf la)), prefixWord_lt la hshort⟩
      · simp only [Function.update_of_ne e]
        exact h.word i (Nat.lt_of_le_of_ne (Nat.lt_succ_iff.mp hi) e)
    · rw [SlotTable.lookup_old hz] at hi ⊢
      exact h.word i hi
  · rw [lookupRib64_long _ (Nat.lt_of_not_le hshort)] at hl
    cases hl
    exact h

namespace State

/-- Slot `i` of a peer holds `p`, and is the one for the prefix `la`. -/
def InSlot (s : State) (pn : Fin npeers) (i la : Nat) (p : Ptr) : Prop :=
  s.routing.adjRibIn (pn, i) = p ∧ p ≠ null ∧ lookupBigtable s.tables i = .ok la

/-- Every route in a slot has a prefix of length at most 24, no prefix has two slots, and the
pairs of prefix and route are those of the reference. -/
structure Mirrors (t : Reference) (s : State) : Prop where
  looked : ∀ pn i, s.routing.adjRibIn (pn, i) ≠ null →
    ∃ la, lookupBigtable s.tables i = .ok la ∧ lengthOf la ≤ 24
  once : ∀ pn i j la la' p q, s.InSlot pn i la p → s.InSlot pn j la' q → SamePrefix la la' → i = j
  same : ∀ pn la v, lengthOf la ≤ 24 →
    ((∃ i la' p, s.InSlot pn i la' p ∧ SamePrefix la' la ∧ s.routing.identity p = v) ↔
      t.map (pn, prefixWord la) = some v)

def pathOf (s : State) (p : Ptr) : Option Identity :=
  if p = null then none else some (s.routing.identity p)

def view (s : State) : Reference := ⟨fun k => s.pathOf (s.slotOf k), s.unique⟩

/-- In the midst of a message with route `r`, with at most `n` calls to come. -/
def Settled (env : Env) (r : Ptr) (n : Nat) (s : State) : Prop :=
  s.Filing ∧ Indexed s.tables ∧ ∃ cells, s.routing.SoundOn env.slab n r cells

variable {env : Env} {s s' s1 : State} {msg : Message} {n : Nat} {r : Ptr} {pn : Fin npeers}

theorem Settled.drop {m : Nat} (h : Settled env r n s) : Settled env null m s := by
  obtain ⟨hf, hi, cells, hs⟩ := h
  exact ⟨hf, hi, cells, hs.drop⟩

theorem Settled.room {m : Nat} (h : Settled env r n s) (hmn : m ≤ n) : Settled env r m s := by
  obtain ⟨hf, hi, cells, hs⟩ := h
  exact ⟨hf, hi, cells, hs.room hmn⟩

theorem slotOf_cases (s : State) (k : Fin npeers × Nat) :
    s.slotOf k = null ∨ s.tables.slots.Filed k.2 ∧
      s.slotOf k = s.routing.adjRibIn (k.1, s.tables.slots.slot k.2) := by
  rw [slotOf, SlotTable.read]
  split_ifs with hfiled
  · exact .inr ⟨hfiled, rfl⟩
  · exact .inl rfl

theorem Settled.inSlot (h : Settled env r n s) {i la : Nat} {p : Ptr}
    (hin : s.InSlot pn i la p) :
    lengthOf la ≤ 24 ∧ s.tables.slots.slot (prefixWord la) = i ∧
      s.slotOf (pn, prefixWord la) = p := by
  obtain ⟨hf, hi, _⟩ := h
  obtain ⟨hslot, hp, hla⟩ := hin
  have hlt : i < s.tables.bigtableIndex := by
    by_contra hge
    exact hp (hslot.symm.trans (hf.blankSlots pn i (Nat.not_lt.mp hge)))
  rw [lookupBigtable_ok (.inl hlt)] at hla
  cases hla
  obtain ⟨hlow, hhigh⟩ := hi.word i hlt
  obtain ⟨hlen, hword⟩ := decode_word hlow hhigh
  have hnumber : s.tables.slots.slot (s.tables.bigtable i) = i := hi.numbered i hlt
  rw [hword]
  refine ⟨hlen, hnumber, ?_⟩
  have hfiled : s.tables.slots.Filed (s.tables.bigtable i) := by
    rw [SlotTable.Filed, hnumber]
    exact ⟨hlt, rfl⟩
  rw [slotOf, SlotTable.read_filed null hfiled, hnumber]
  exact hslot

theorem Settled.mirrors (h : Settled env r n s) : Mirrors s.view s := by
  obtain ⟨hf, hi, _⟩ := id h
  refine ⟨?_, ?_, ?_⟩
  · intro pn i hne
    have hlt : i < s.tables.bigtableIndex := by
      by_contra hge
      exact hne (hf.blankSlots pn i (Nat.not_lt.mp hge))
    have hla := lookupBigtable_ok (.inl hlt)
    exact ⟨_, hla, (h.inSlot ⟨rfl, hne, hla⟩).1⟩
  · intro pn i j la la' p q hin hin' hsame
    obtain ⟨hlen, rfl, _⟩ := h.inSlot hin
    obtain ⟨hlen', rfl, _⟩ := h.inSlot hin'
    rw [(prefixWord_inj hlen hlen').mpr hsame]
  · intro pn la v hlen
    simp only [view, pathOf]
    constructor
    · rintro ⟨i, la', p, hin, hsame, rfl⟩
      obtain ⟨hlen', _, hslot⟩ := h.inSlot hin
      rw [(prefixWord_inj hlen' hlen).mpr hsame] at hslot
      rw [hslot, if_neg hin.2.1]
    · intro hv
      split_ifs at hv with hnull
      obtain ⟨hfiled, hslot⟩ := (s.slotOf_cases (pn, prefixWord la)).resolve_left hnull
      have hlt : s.tables.slots.slot (prefixWord la) < s.tables.bigtableIndex := hfiled.1
      obtain ⟨hlow, hhigh⟩ := hi.word _ hlt
      obtain ⟨hlen', hword⟩ := decode_word hlow hhigh
      have hkey : s.tables.bigtable (s.tables.slots.slot (prefixWord la)) = prefixWord la :=
        hfiled.2
      refine ⟨_, _, _, ⟨rfl, ?_, lookupBigtable_ok (.inl hlt)⟩, ?_, ?_⟩
      · rw [← hslot]
        exact hnull
      · rw [← prefixWord_inj hlen' hlen, hword, hkey]
      · rw [← hslot]
        exact Option.some.inj hv

section
variable {step : State → Nat × Bool → Exec State}

theorem settled_called {a w : Nat} {cells : Fin npeers × Size → List Ptr}
    (hs' : s'.routing.SoundOn env.slab n r (s.routing.swapCells pn a cells))
    (hd : s.CalledAt pn w r a s') :
    s'.pathOf r = s.pathOf r ∧
      s'.view.map = Function.update s.view.map (pn, w) (s.pathOf r) := by
  have hpath (k : Fin npeers × Nat) : s'.pathOf (s'.slotOf k) = s.pathOf (s'.slotOf k) := by
    rw [pathOf, pathOf]
    split_ifs with hnull
    · rfl
    · obtain ⟨_, hslot⟩ := (s'.slotOf_cases k).resolve_left hnull
      rw [hd.called.identity hs' hslot.symm hnull]
  have hslot : s'.slotOf (pn, w) = r := by
    rw [hd.slots, Function.update_self]
  constructor
  · rw [← hslot]
    exact hpath (pn, w)
  · funext k
    change s'.pathOf (s'.slotOf k) = _
    rw [hpath]
    by_cases e : k = (pn, w)
    · rw [e, hslot, Function.update_self]
    · rw [hd.slots, Function.update_of_ne e, Function.update_of_ne e]
      rfl

theorem settled_entry (hstep : EntryCalls env pn r step ∧ EntryLookup step)
    (h : Settled env r (n + 1) s) {entry : Nat × Bool} (hok : EntryKept pn r s entry)
    (hs : step s entry = .ok s') :
    Settled env r n s' ∧ s'.pathOf r = s.pathOf r ∧
      s'.view.map =
        assign ((words [entry.1]).map fun w => (pn, w)) (s.pathOf r) s.view.map := by
  obtain ⟨hf, hi, cells, hsound⟩ := h
  obtain ⟨_, hl⟩ := hstep.2 s entry s' hs
  have hi' := hi.lookup hok.2 hl
  obtain ⟨hf', hc⟩ := entry_kept hstep hsound hf hok hs
  cases hc with
  | inl hc =>
    obtain ⟨hshort, a, hcall, hsound'⟩ := hc
    obtain ⟨hpath, hmap⟩ := settled_called hsound' hcall
    refine ⟨⟨hf', hi', _, hsound'⟩, hpath, ?_⟩
    rw [words_cons_short hshort, hmap]
    exact (assign_singleton _ _ _).symm
  | inr hc =>
    obtain ⟨hlong, hsound', hrouting, hslots, _⟩ := hc
    have hpath : s'.pathOf = s.pathOf := by
      funext p
      rw [pathOf, pathOf, hrouting]
    refine ⟨⟨hf', hi', cells, hsound'⟩, by rw [hpath], ?_⟩
    rw [words_cons_long (Nat.lt_of_not_le hlong), view, view, hpath, hslots]
    exact (assign_nil _ _).symm

/-- The prefixes of a section, in whatever order, end up with the route. -/
theorem settled_entries (hstep : EntryCalls env pn r step ∧ EntryLookup step)
    {entries : List (Nat × Bool)} (h : Settled env r entries.length s)
    (hok : StepsOk step (EntryKept pn r) s entries) (hs : entries.foldlM step s = .ok s') :
    Settled env r 0 s' ∧
      s'.view.map =
        assign ((words (entries.map Prod.fst)).map fun w => (pn, w)) (s.pathOf r) s.view.map := by
  induction entries generalizing s with
  | nil =>
    cases hs
    exact ⟨h, (assign_nil _ _).symm⟩
  | cons entry entries ih =>
    rw [List.foldlM_cons, bind_eq_ok] at hs
    obtain ⟨u, hu, hs⟩ := hs
    obtain ⟨hentry, hrest⟩ := stepsOk_cons hok hu
    obtain ⟨hsettled, hpath, hmap⟩ := settled_entry hstep h hentry hu
    obtain ⟨hend, hview⟩ := ih hsettled hrest hs
    refine ⟨hend, ?_⟩
    have hwords : words ((entry :: entries).map Prod.fst) =
        words [entry.1] ++ words (entries.map Prod.fst) := by
      rw [← words_append]
      rfl
    rw [hview, hpath, hmap, hwords, List.map_append, assign_append]

end

theorem entries_unique {route : Ptr} {pass : State → Bigtable → State}
    {done : State → Nat × Bool → Bigtable → Routing → State}
    {step : State → Nat × Bool → Exec State} (hform : EntryForm env pn route pass done step)
    (hpass : ∀ s t, (pass s t).unique = s.unique)
    (hdone : ∀ s entry t r, (done s entry t r).unique = s.unique) {entries : List (Nat × Bool)}
    (hs : entries.foldlM step s = .ok s') : s'.unique = s.unique := by
  refine run_keeps (I := fun t => t.unique = s.unique) ?_ rfl hs
  intro t entry u ht hu
  exact (hform.frame State.unique hpass hdone hu).trans ht

/-- The buffer taken for a message is in no slot, and says what the message does. -/
theorem messageRoute_view (h : Settled env null 0 s) (hfit : msg.Fits s) (hm : msg.HasRoute)
    (hr : messageRoute env s msg = .ok (r, s1)) :
    Settled env r 65535 s1 ∧ s1.pathOf r = msg.described s.unique ∧
      s1.view.map = s.view.map ∧ s1.unique = (s.unique + 1) % 2 ^ 64 := by
  obtain ⟨hf, hi, cells, hsound⟩ := h
  obtain ⟨cells', hsound', htaken⟩ := messageRoute_taken hsound hfit hm hr
  have hne := htaken.mine.ne_null
  obtain ⟨tb, htb, hcontent⟩ := htaken.content
  obtain ⟨hunique, _, attributes, _, hheap⟩ := messageRoute_stored hm hr
  refine ⟨⟨htaken.filing hf, htaken.tables ▸ hi, cells', hsound'⟩, ?_, ?_, hunique⟩
  · have hdescribed : msg.described s.unique = some (s.unique, tb, msg.attributeBytes) := by
      rw [Message.described, if_pos hm, htb]
    rw [hdescribed, pathOf, if_neg hne, Routing.identity, hcontent, hheap, Function.update_self,
      Function.update_self]
    rfl
  · have hslots : s1.slotOf = s.slotOf := by
      funext k
      rw [slotOf, slotOf, htaken.tables, htaken.adjRibIn]
    funext k
    change s1.pathOf (s1.slotOf k) = s.pathOf (s.slotOf k)
    rw [hslots, pathOf, pathOf]
    split_ifs with hnull
    · rfl
    · have hother : s.slotOf k ≠ r := by
        -- its use count is still zero
        intro e
        obtain ⟨_, hslot⟩ := (s.slotOf_cases k).resolve_left hnull
        rw [← htaken.adjRibIn] at hslot
        have hpos := hsound'.1.useCount_pos (i := (k.1, s.tables.slots.slot k.2))
          (by rw [← hslot]; exact hnull)
        rw [← hslot, e, hheap, Function.update_self] at hpos
        exact Nat.lt_irrefl 0 hpos
      rw [Routing.identity, Routing.identity, hcontent, hheap, Function.update_of_ne hother,
        Function.update_of_ne hother]

theorem messageRoute_starts (h : Settled env null 0 s) (hfit : msg.Fits s)
    (hr : messageRoute env s msg = .ok (r, s1)) :
    Settled env r msg.announced.length s1 ∧ s1.pathOf r = msg.described s.unique ∧
      s1.view.map = s.view.map ∧ s1.unique = s.view.nextUnique msg := by
  rw [Reference.nextUnique]
  by_cases hm : msg.HasRoute
  · obtain ⟨hsettled, hpath, hmap, hunique⟩ := messageRoute_view h hfit hm hr
    rw [if_pos hm]
    exact ⟨hsettled.room (announced_length msg), hpath, hmap, hunique⟩
  · obtain ⟨rfl, rfl⟩ := messageRoute_none hm hr
    rw [if_neg hm, Message.described, if_neg hm]
    exact ⟨h.drop, rfl, rfl, rfl⟩

/-- A message walks the reference the way `parse_update` walks its sections. -/
theorem parseUpdate_view (h : Settled env null 0 s) (hok : RoutesKept env s msg)
    (hs : s.parseUpdate env msg = .ok s') :
    Settled env null 0 s' ∧ s'.view = s.view.walk msg := by
  cases parseUpdate_parsed hok hs with
  | inl hc =>
    obtain ⟨⟨hnlri, hwithdraw⟩, rfl⟩ := hc
    refine ⟨h, ?_⟩
    have hempty (p : Nat) : nlriWalk msg.mem p (p + (0 : UInt16).toNat) = [] := by
      apply List.eq_nil_of_length_eq_zero
      exact Nat.le_zero.mp ((nlriWalk_length _ _ _).trans (by simp))
    have hannounced : msg.announcedKeys = [] := by
      rw [Message.announcedKeys, Message.announced, ← hnlri, hempty]
      rfl
    have hwithdrawn : msg.withdrawnKeys = [] := by
      rw [Message.withdrawnKeys, Message.withdrawals, ← hwithdraw, hempty]
      rfl
    have hroute : ¬ msg.HasRoute := fun hm => hm.2 hnlri.symm
    rw [Reference.walk, Reference.nextUnique, if_neg hroute, hannounced, hwithdrawn, assign_nil,
      assign_nil]
  | inr hc =>
    obtain ⟨_, r, s1, s2, hparse⟩ := hc
    obtain ⟨hsettled, hpath, hmap, hunique⟩ := messageRoute_starts
      (s := { s with msgCount := s.msgCount + 1 }) ⟨h.1.counted _, h.2⟩ hparse.fits hparse.route
    obtain ⟨hsettled2, hmap2⟩ := settled_entries (nlriStep_entry msg.peer r) hsettled
      hparse.announcedOk hparse.announced
    obtain ⟨hsettled3, hmap3⟩ := settled_entries (withdrawStep_entry msg.peer) hsettled2.drop
      hparse.withdrawnOk hparse.withdrawn
    have hunique2 : s2.unique = s1.unique := entries_unique (nlriStep_form msg.peer r)
      (fun _ _ => rfl) (fun _ _ _ _ => rfl) hparse.announced
    have hunique3 : s'.unique = s2.unique := entries_unique (withdrawStep_form msg.peer)
      (fun _ _ => rfl) (fun _ _ _ _ => rfl) hparse.withdrawn
    refine ⟨hsettled3, ?_⟩
    have hview : s'.view = ⟨s'.view.map, s'.unique⟩ := rfl
    rw [hview, hmap3, hmap2, hpath, hmap, hunique3, hunique2, hunique]
    rfl

/-- The attributes of a message that has been processed are parsed to something. -/
theorem described_of_parseUpdate (h : Settled env null 0 s) (hok : RoutesKept env s msg)
    (hm : msg.HasRoute) (hs : s.parseUpdate env msg = .ok s') :
    ∃ v, msg.described s.unique = some v := by
  have hsome : ¬ (0 = msg.nlriLength ∧ 0 = msg.withdrawLength) := fun e => hm.2 e.1.symm
  obtain ⟨_, r, s1, s2, hparse⟩ := (parseUpdate_parsed hok hs).resolve_left fun e => hsome e.1
  obtain ⟨_, _, cells, hsound⟩ := h
  obtain ⟨_, _, htaken⟩ := messageRoute_taken (s := { s with msgCount := s.msgCount + 1 }) hsound
    hparse.fits hm hparse.route
  obtain ⟨tb, htb, _⟩ := htaken.content
  rw [Message.described, if_pos hm, htb]
  exact ⟨_, rfl⟩

theorem start_settled (env : Env) : Settled env null 0 (start env) := by
  obtain ⟨cells, hsound⟩ := Routing.sound_iff.mp (start_sound env)
  refine ⟨start_filing env, ⟨?_, ?_⟩, cells, hsound⟩
  · intro i hi
    exact absurd hi (Nat.not_lt_zero i)
  · intro i hi
    exact absurd hi (Nat.not_lt_zero i)

theorem start_view (env : Env) : (start env).view = Reference.empty := by
  have hmap : (start env).view.map = Reference.empty.map := by
    funext k
    change (start env).pathOf ((start env).slotOf k) = none
    rw [pathOf, if_pos]
    cases (start env).slotOf_cases k with
    | inl hnull => exact hnull
    | inr hslot => exact hslot.2
  change (⟨(start env).view.map, 0⟩ : Reference) = _
  rw [hmap]
  rfl

theorem run_view_walk {msgs : List Message}
    (hok : StepsOk (parseUpdate env) (RoutesKept env) (start env) msgs)
    (hr : msgs.foldlM (parseUpdate env) (start env) = .ok s) :
    Settled env null 0 s ∧ s.view = msgs.foldl Reference.walk Reference.empty := by
  have hnext (t : Reference) (s : State) (msg : Message) (u : State)
      (h : Settled env null 0 s ∧ s.view = t) (hkept : RoutesKept env s msg)
      (hu : parseUpdate env s msg = .ok u) : Settled env null 0 u ∧ u.view = t.walk msg := by
    rw [← h.2]
    exact parseUpdate_view h.1 hkept hu
  have hall := run_tracks_iff (P := fun _ => True) (fun _ _ h => h)
    (fun t s msg u h hkept hu => ⟨fun _ => trivial, fun _ => hnext t s msg u h hkept hu⟩)
    ⟨start_settled env, start_view env⟩ hok hr
  exact hall.mpr (fun _ _ => trivial) msgs [] s (List.append_nil msgs).symm hr

end State

/-- In every run whose counts and places are kept: after each message the slots mirror the
reference, exactly when no message announces with a route what it withdraws as well. -/
theorem adj_rib_in_mirrors_iff (env : Env) (msgs : List Message) (s : State)
    (hok : StepsOk (parseUpdate env) (RoutesKept env) (start env) msgs)
    (hr : msgs.foldlM (parseUpdate env) (start env) = .ok s) :
    (∀ pre post u, msgs = pre ++ post → pre.foldlM (parseUpdate env) (start env) = .ok u →
        Mirrors (pre.foldl Reference.step Reference.empty) u) ↔
      ∀ msg ∈ msgs, msg.HasRoute → ∀ k ∈ msg.withdrawnKeys, k ∉ msg.announcedKeys := by
  refine run_tracks_iff (I := fun t s => Settled env null 0 s ∧ s.view = t)
    (F := Mirrors) ?_ ?_ ⟨start_settled env, start_view env⟩ hok hr
  · rintro t s ⟨hs, rfl⟩
    exact hs.mirrors
  · rintro t s msg u ⟨hs, rfl⟩ hkept hu
    obtain ⟨hsettled, hview⟩ := parseUpdate_view hs hkept hu
    constructor
    · intro hmirrors hm k hwithdrawn hannounced
      obtain ⟨v, hv⟩ := described_of_parseUpdate hs hkept hm hu
      obtain ⟨w, hw, rfl⟩ := List.mem_map.mp hwithdrawn
      obtain ⟨la, hla, rfl⟩ := List.mem_map.mp hw
      have hshort : lengthOf la ≤ 24 := by simpa using (List.mem_filter.mp hla).2
      -- the reference has the route there, the slots have nothing
      have hstep : (s.view.step msg).map (msg.peer, prefixWord la) = some v := by
        change assign _ _ _ _ = _
        rw [assign_of_mem hannounced]
        exact hv
      have hwalk : u.view.map (msg.peer, prefixWord la) = none := by
        rw [hview]
        change assign _ _ _ _ = _
        rw [assign_of_mem hwithdrawn]
      have hslot := (hmirrors.same msg.peer la v hshort).mpr hstep
      rw [hsettled.mirrors.same msg.peer la v hshort, hwalk] at hslot
      cases hslot
    · intro hdisjoint
      exact ⟨hsettled, hview.trans (Reference.walk_eq_step hdisjoint)⟩

/-- Two prefixes, a replacement of one of them, its withdrawal, and a third one in its place. -/
def replacedInTurn : List Message :=
  replaceAndWithdraw ++ [updateMessage 0 [8, 11] (plainAttributes 0 9) [8, 12]]

theorem adj_rib_in_mirrors_replaced :
    ∃ s, replacedInTurn.foldlM (parseUpdate (plainEnv true)) (start (plainEnv true)) = .ok s ∧
      ∀ pre post u, replacedInTurn = pre ++ post →
        pre.foldlM (parseUpdate (plainEnv true)) (start (plainEnv true)) = .ok u →
          Mirrors (pre.foldl Reference.step Reference.empty) u := by
  have hr : (replacedInTurn.foldlM (parseUpdate (plainEnv true)) (start (plainEnv true))).map
      (fun _ => ()) = .ok () := by decide +kernel
  obtain ⟨s, hs, _⟩ := exists_of_map_eq_ok hr
  refine ⟨s, hs, ?_⟩
  exact (adj_rib_in_mirrors_iff (plainEnv true) replacedInTurn s (by decide +kernel) hs).mpr
    (by decide +kernel)

/-- The first prefix of all is announced a second time. -/
def announcedAgain : List Message :=
  [updateMessage 0 [] (plainAttributes 0 7) [8, 10],
    updateMessage 0 [] (plainAttributes 0 8) [8, 10]]

/-- The second message lists a prefix in both of its sections. -/
def inBothSections : List Message :=
  [updateMessage 0 [] (plainAttributes 0 7) [8, 10],
    updateMessage 0 [8, 11] (plainAttributes 0 8) [8, 11]]

/-- The first run leaves a prefix with two slots, the second one without the route it should
have. -/
theorem adj_rib_in_differs :
    (∃ s, announcedAgain.foldlM (parseUpdate (plainEnv true)) (start (plainEnv true)) = .ok s ∧
      ¬ Mirrors (announcedAgain.foldl Reference.step Reference.empty) s) ∧
    ∃ s, inBothSections.foldlM (parseUpdate (plainEnv true)) (start (plainEnv true)) = .ok s ∧
      ¬ Mirrors (inBothSections.foldl Reference.step Reference.empty) s := by
  constructor
  · have hr : (announcedAgain.foldlM (parseUpdate (plainEnv true)) (start (plainEnv true))).map
        (fun s => (s.routing.adjRibIn (0, 0), s.routing.adjRibIn (0, 1), s.tables.bigtableIndex,
          s.tables.bigtable 0, s.tables.bigtable 1)) =
        .ok (2 ^ 46, 2 ^ 46 + 256, 2, prefixWord (8 <<< 32 ||| 10 <<< 24),
          prefixWord (8 <<< 32 ||| 10 <<< 24)) := by decide +kernel
    obtain ⟨s, hs, e⟩ := exists_of_map_eq_ok hr
    simp only [Prod.mk.injEq] at e
    obtain ⟨hslot, hslot', hindex, hword, hword'⟩ := e
    refine ⟨s, hs, ?_⟩
    intro hmirrors
    have hfirst : s.InSlot 0 0 (decode (prefixWord (8 <<< 32 ||| 10 <<< 24))) (2 ^ 46) := by
      refine ⟨hslot, by decide, ?_⟩
      rw [lookupBigtable_ok (.inl (by rw [hindex]; decide)), hword]
    have hsecond : s.InSlot 0 1 (decode (prefixWord (8 <<< 32 ||| 10 <<< 24)))
        (2 ^ 46 + 256) := by
      refine ⟨hslot', by decide, ?_⟩
      rw [lookupBigtable_ok (.inl (by rw [hindex]; decide)), hword']
    exact absurd (hmirrors.once 0 0 1 _ _ _ _ hfirst hsecond ⟨rfl, rfl⟩) (by decide)
  · have hr : (inBothSections.foldlM (parseUpdate (plainEnv true)) (start (plainEnv true))).map
        (fun _ => ()) = .ok () := by decide +kernel
    obtain ⟨s, hs, _⟩ := exists_of_map_eq_ok hr
    refine ⟨s, hs, ?_⟩
    intro hmirrors
    obtain ⟨hsettled, hview⟩ := @run_view_walk (plainEnv true) s _ (by decide +kernel) hs
    have hstep : (inBothSections.foldl Reference.step Reference.empty).map
        (0, prefixWord (8 <<< 32 ||| 11 <<< 24)) =
          (updateMessage 0 [8, 11] (plainAttributes 0 8) [8, 11]).described 1 := by
      decide +kernel
    have hwalk : s.view.map (0, prefixWord (8 <<< 32 ||| 11 <<< 24)) = none := by
      rw [hview]
      decide +kernel
    have hsome : ∃ v, (updateMessage 0 [8, 11] (plainAttributes 0 8) [8, 11]).described 1 =
        some v := Option.isSome_iff_exists.mp (by decide +kernel)
    obtain ⟨v, hv⟩ := hsome
    have hslot := (hmirrors.same 0 (8 <<< 32 ||| 11 <<< 24) v (by decide)).mpr (hstep.trans hv)
    rw [hsettled.mirrors.same 0 (8 <<< 32 ||| 11 <<< 24) v (by decide), hwalk] at hslot
    cases hslot

end FastParse
