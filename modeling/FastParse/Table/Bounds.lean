import FastParse.Table.Indices

namespace FastParse

open Framework

/-- The call for `la` after the history `pre` returns `i` and leaves the tables `t`. -/
def CallReturns (pre : List Nat) (la i : Nat) (t : Bigtable) : Prop :=
  ∃ s, tableAfter pre = .ok s ∧ lookupRib64 s la = .ok (i, t)

theorem callReturns_short {pre : List Nat} {la : Nat} (h : lengthOf la ≤ 24) :
    CallReturns pre la ((slotsAfter pre).lookup (prefixWord la)).1
      (SlotTable.tables (slotsAfter (pre ++ [la]))) :=
  ⟨_, tableAfter_eq pre, lookup_short pre h⟩

theorem callReturns_long {pre : List Nat} {la : Nat} (h : 24 < lengthOf la) :
    CallReturns pre la tooBig (SlotTable.tables (slotsAfter (pre ++ [la]))) :=
  ⟨_, tableAfter_eq pre, lookup_long pre h⟩

theorem CallReturns.unique {pre : List Nat} {la i i' : Nat} {t t' : Bigtable}
    (h : CallReturns pre la i t) (h' : CallReturns pre la i' t') : i = i' ∧ t = t' := by
  obtain ⟨s, hs, hl⟩ := h
  obtain ⟨s', hs', hl'⟩ := h'
  have e : s = s' := Except.ok.inj (hs.symm.trans hs')
  subst s'
  have e := Except.ok.inj (hl.symm.trans hl')
  exact ⟨congrArg Prod.fst e, congrArg Prod.snd e⟩

/-- A short call's index is in use afterwards, and the reverse table keeps its prefix
through any further lookups. -/
theorem short_index (pre : List Nat) (la : Nat) (post : List Nat) (h : lengthOf la ≤ 24) :
    ((slotsAfter pre).lookup (prefixWord la)).1 < (slotsAfter (pre ++ [la])).next ∧
    (slotsAfter (pre ++ la :: post)).key ((slotsAfter pre).lookup (prefixWord la)).1 =
      prefixWord la := by
  have e : slotsAfter (pre ++ [la]) = ((slotsAfter pre).lookup (prefixWord la)).2 := by
    rw [slotsAfter_append, words_cons_short h]
    rfl
  obtain ⟨hlt, hkey⟩ := (slotsAfter_linked pre).index (prefixWord la)
  refine ⟨by rwa [e], ?_⟩
  rw [slotsAfter_append, words_cons_short h, SlotTable.after_cons,
    SlotTable.key_stable _ _ hlt, hkey]

theorem next_mono (las las' : List Nat) :
    (slotsAfter las).next ≤ (slotsAfter (las ++ las')).next := by
  rw [slotsAfter_append]
  exact SlotTable.next_le_after _ _

/-- Over any history from the initial tables no assertion fails, every index is below the
cursor, the reverse table keeps the encoding of every prefix asked for, and different
prefixes never share an index. -/
theorem indices_not_shared (las : List Nat) :
    ∃ T, tableAfter las = .ok T ∧
    (∀ pre la post, las = pre ++ la :: post →
      ∃ i t, CallReturns pre la i t ∧
        (i ≠ tooBig → i < t.bigtableIndex) ∧
        (lengthOf la ≤ 24 → encode (lengthOf la) (addressOf la) = .ok (T.bigtable i))) ∧
    (T.bigtableIndex ≤ big →
      ∀ pre la mid la' post i t t', las = pre ++ la :: (mid ++ la' :: post) →
        CallReturns pre la i t → CallReturns (pre ++ la :: mid) la' i t' →
        (24 < lengthOf la ∧ 24 < lengthOf la') ∨ SamePrefix la la') := by
  refine ⟨_, tableAfter_eq las, ?_, ?_⟩
  · rintro pre la post rfl
    by_cases h : lengthOf la ≤ 24
    · obtain ⟨hlt, hkey⟩ := short_index pre la post h
      refine ⟨_, _, callReturns_short h, fun _ => hlt, fun _ => ?_⟩
      rw [encode_eq la h]
      exact congrArg Except.ok hkey.symm
    · have h : 24 < lengthOf la := by omega
      exact ⟨_, _, callReturns_long h, fun hne => absurd rfl hne, fun hle => by omega⟩
  · rintro hcap pre la mid la' post i t t' rfl hi hi'
    have hcap : (slotsAfter (pre ++ la :: (mid ++ la' :: post))).next ≤ big := hcap
    -- a short call cannot return `TOO_BIG` while the cursor is at most `BIG`
    have below (pre : List Nat) (la : Nat) (post : List Nat) (h : lengthOf la ≤ 24)
        (hc : (slotsAfter (pre ++ la :: post)).next ≤ big) :
        ((slotsAfter pre).lookup (prefixWord la)).1 < tooBig := by
      have hlt := (short_index pre la post h).1
      have hm := next_mono (pre ++ [la]) post
      rw [List.append_assoc, List.singleton_append] at hm
      exact Nat.lt_succ_of_lt (hlt.trans_le (hm.trans hc))
    have split : pre ++ la :: (mid ++ la' :: post) = (pre ++ la :: mid) ++ la' :: post := by simp
    by_cases h : lengthOf la ≤ 24
    · have hlt := below pre la _ h hcap
      have hkey := (short_index pre la (mid ++ la' :: post) h).2
      obtain ⟨e, -⟩ := hi.unique (callReturns_short h)
      subst e
      by_cases h' : lengthOf la' ≤ 24
      · have hkey' := (short_index (pre ++ la :: mid) la' post h').2
        obtain ⟨e', -⟩ := hi'.unique (callReturns_short h')
        rw [← split, ← e', hkey] at hkey'
        exact .inr ((prefixWord_inj h h').mp hkey')
      · obtain ⟨e', -⟩ := hi'.unique (callReturns_long (by omega))
        omega
    · by_cases h' : lengthOf la' ≤ 24
      · have hlt := below (pre ++ la :: mid) la' post h' (by rwa [← split])
        obtain ⟨e, -⟩ := hi.unique (callReturns_long (by omega))
        obtain ⟨e', -⟩ := hi'.unique (callReturns_short h')
        omega
      · exact .inl ⟨by omega, by omega⟩

/-- Two /8 prefixes, looked up in turn, keep distinct indices. -/
theorem indices_not_shared_pair :
    ¬ ∃ i t t', CallReturns [] (8 <<< 32 ||| 10 <<< 24) i t ∧
      CallReturns [8 <<< 32 ||| 10 <<< 24] (8 <<< 32 ||| 11 <<< 24) i t' := by
  rintro ⟨i, t, t', h, h'⟩
  obtain ⟨T, hT, -, hd⟩ :=
    indices_not_shared [8 <<< 32 ||| 10 <<< 24, 8 <<< 32 ||| 11 <<< 24]
  have hcap : T.bigtableIndex ≤ big := by
    have e : (tableAfter [8 <<< 32 ||| 10 <<< 24, 8 <<< 32 ||| 11 <<< 24]).map
        Bigtable.bigtableIndex = .ok 2 := by decide
    rw [hT] at e
    have e : T.bigtableIndex = 2 := Except.ok.inj e
    rw [e]
    decide
  have hd := hd hcap [] _ [] _ [] i t t' rfl h h'
  revert hd
  decide

/-- The subscript of the store `bigtable[btindex] = index`, when the call makes one. -/
def bigtableStore (t : Bigtable) (la : Nat) : Option Nat :=
  if lengthOf la ≤ 24 ∧ t.rib (prefixWord la) = 0 then some t.bigtableIndex else none

theorem bigtableStore_spec (t : Bigtable) {la i : Nat} {t' : Bigtable}
    (h : lookupRib64 t la = .ok (i, t')) :
    match bigtableStore t la with
    | some j => i = j ∧ t'.bigtable = Function.update t.bigtable j (prefixWord la) ∧
        t'.bigtableIndex = j + 1
    | none => t' = t := by
  by_cases hl : lengthOf la ≤ 24
  · rw [lookupRib64_short t hl] at h
    have e := Except.ok.inj h
    by_cases hk : t.rib (prefixWord la) = 0
    · rw [SlotTable.lookup_new (show t.slots.slot (prefixWord la) = 0 from hk)] at e
      cases e
      simp [bigtableStore, hl, hk, Bigtable.slots, SlotTable.tables]
    · rw [SlotTable.lookup_old (show t.slots.slot (prefixWord la) ≠ 0 from hk)] at e
      cases e
      simp [bigtableStore, hk, Bigtable.slots, SlotTable.tables]
  · rw [lookupRib64_long t (by omega)] at h
    cases h
    simp [bigtableStore, hl]

/-- Every call of the history returns an index inside the arrays for a short prefix,
stores inside `bigtable`, and returns `TOO_BIG` exactly for the long prefixes. -/
def IndicesInside (las : List Nat) : Prop :=
  ∀ pre la post, las = pre ++ la :: post → ∃ s i t, tableAfter pre = .ok s ∧
    lookupRib64 s la = .ok (i, t) ∧ (lengthOf la ≤ 24 → i < big) ∧
    (∀ j, bigtableStore s la = some j → j < big) ∧ (i = tooBig ↔ 24 < lengthOf la)

/-- One index for the first short prefix and one for each distinct short prefix after it. -/
def indicesNeeded (las : List Nat) : Nat :=
  match words las with
  | [] => 0
  | _ :: ws => 1 + ws.toFinset.card

theorem next_eq_indicesNeeded (las : List Nat) : (slotsAfter las).next = indicesNeeded las := by
  unfold indicesNeeded
  cases hw : words las with
  | nil =>
    rw [slotsAfter, hw]
    rfl
  | cons w ws =>
    -- the first lookup stores index zero, so its slot still reads as empty
    have hz : ∀ k, (Bigtable.init.slots.lookup w).2.slot k = 0 := by
      intro k
      rw [SlotTable.lookup_new rfl]
      by_cases e : k = w <;> simp [e, Bigtable.slots, Bigtable.init]
    have hone : (Bigtable.init.slots.lookup w).2.next = 1 := rfl
    rw [slotsAfter, hw, SlotTable.after_cons, SlotTable.next_after (by rw [hone]; decide), hone]
    simp [hz]

/-- A history that needs more than `n` indices has a call that stores at `n`. -/
theorem exists_store {n : Nat} (las : List Nat) (h : n < indicesNeeded las) :
    ∃ pre la post, las = pre ++ la :: post ∧
      bigtableStore (SlotTable.tables (slotsAfter pre)) la = some n := by
  rw [← next_eq_indicesNeeded] at h
  induction las using List.reverseRecOn with
  | nil => exact absurd h (Nat.not_lt_zero n)
  | append_singleton pre la ih =>
    by_cases hlt : n < (slotsAfter pre).next
    · obtain ⟨pre', la', post, rfl, hs⟩ := ih hlt
      exact ⟨pre', la', post ++ [la], by simp, hs⟩
    · refine ⟨pre, la, [], rfl, ?_⟩
      by_cases hl : lengthOf la ≤ 24
      · have hs := bigtableStore_spec _ (lookup_short pre hl)
        cases hst : bigtableStore (SlotTable.tables (slotsAfter pre)) la with
        | some j =>
          have hj : j = (slotsAfter pre).next := by
            unfold bigtableStore at hst
            split_ifs at hst
            exact (Option.some.inj hst).symm
          rw [hst] at hs
          have hnext : (slotsAfter (pre ++ [la])).next = j + 1 := hs.2.2
          rw [hj]
          congr 1
          omega
        | none =>
          rw [hst] at hs
          have hnext := congrArg Bigtable.bigtableIndex hs
          simp only [SlotTable.tables] at hnext
          omega
      · rw [slotsAfter_append, words_cons_long (by omega)] at h
        exact absurd h hlt

theorem inside_of_needed {las : List Nat} (h : indicesNeeded las ≤ big) : IndicesInside las := by
  rintro pre la post rfl
  rw [← next_eq_indicesNeeded] at h
  have hm := next_mono (pre ++ [la]) post
  rw [List.append_assoc, List.singleton_append] at hm
  by_cases hl : lengthOf la ≤ 24
  · have hlt := (short_index pre la post hl).1
    have hs := bigtableStore_spec _ (lookup_short pre hl)
    refine ⟨_, _, _, tableAfter_eq pre, lookup_short pre hl, fun _ => by omega, ?_, ?_⟩
    · intro j hj
      rw [hj] at hs
      have hnext : (slotsAfter (pre ++ [la])).next = j + 1 := hs.2.2
      omega
    · simp only [tooBig]
      omega
  · refine ⟨_, _, _, tableAfter_eq pre, lookup_long pre (by omega), fun hle => absurd hle hl, ?_,
      ?_⟩
    · intro j hj
      simp [bigtableStore, hl] at hj
    · simp only [true_iff]
      omega

theorem not_inside_of_needed {las : List Nat} (h : big < indicesNeeded las) :
    ¬ IndicesInside las := by
  intro hin
  obtain ⟨pre, la, post, hlas, hst⟩ := exists_store las h
  obtain ⟨s, i, t, hs, -, -, hj, -⟩ := hin pre la post hlas
  have e : s = SlotTable.tables (slotsAfter pre) :=
    Except.ok.inj (hs.symm.trans (tableAfter_eq pre))
  subst s
  exact Nat.lt_irrefl _ (hj big hst)

theorem indicesInside_iff (las : List Nat) : IndicesInside las ↔ indicesNeeded las ≤ big := by
  constructor
  · intro h
    by_contra hn
    exact not_inside_of_needed (by omega) h
  · exact inside_of_needed

/-- The first `n` prefixes of length 24 in address order. -/
def manyPrefixes (n : Nat) : List Nat := (List.range n).map fun k => 24 <<< 32 ||| k <<< 8

theorem words_manyPrefixes {n : Nat} (hn : n ≤ 2 ^ 24) :
    words (manyPrefixes n) = (List.range n).map fun k => 2 ^ 24 + k := by
  have word (k : Nat) (hk : k < n) :
      lengthOf (24 <<< 32 ||| k <<< 8) = 24 ∧ prefixWord (24 <<< 32 ||| k <<< 8) = 2 ^ 24 + k := by
    have ha : k <<< 8 < 2 ^ 32 := by
      rw [Nat.shiftLeft_eq]
      omega
    obtain ⟨hl, haddr⟩ := prefix_halves (l := 24) ha
    refine ⟨hl, ?_⟩
    rw [prefixWord, hl, haddr, Nat.shiftRight_eq_div_pow, Nat.shiftLeft_eq]
    omega
  have keep : (manyPrefixes n).filter (fun la => lengthOf la ≤ 24) = manyPrefixes n := by
    apply List.filter_eq_self.mpr
    intro la hla
    obtain ⟨k, hk, rfl⟩ := List.mem_map.mp hla
    exact decide_eq_true (word k (List.mem_range.mp hk)).1.le
  rw [words, keep, manyPrefixes, List.map_map]
  apply List.map_congr_left
  intro k hk
  exact (word k (List.mem_range.mp hk)).2

theorem indicesNeeded_manyPrefixes {n : Nat} (hn : n ≤ 2 ^ 24) :
    indicesNeeded (manyPrefixes n) = n := by
  have hnd : (words (manyPrefixes n)).Nodup := by
    rw [words_manyPrefixes hn]
    apply List.Nodup.map _ List.nodup_range
    intro j k e
    exact Nat.add_left_cancel e
  have hlen : (words (manyPrefixes n)).length = n := by simp [words_manyPrefixes hn]
  unfold indicesNeeded
  cases hw : words (manyPrefixes n) with
  | nil => simpa [hw] using hlen
  | cons w ws =>
    rw [hw] at hnd hlen
    have hcard := List.toFinset_card_of_nodup (List.nodup_cons.mp hnd).2
    simp only [List.length_cons] at hlen
    simp only [hcard]
    omega

/-- One distinct /24 prefix more than the arrays have elements is stored past their end. -/
theorem not_indicesInside_many : ¬ IndicesInside (manyPrefixes (big + 1)) := by
  apply not_inside_of_needed
  rw [indicesNeeded_manyPrefixes (by decide)]
  exact Nat.lt_succ_self big

end FastParse
