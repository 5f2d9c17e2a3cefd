import FastParse.Table.Bigtable

namespace FastParse

open Framework

def tableAfter (las : List Nat) : Exec Bigtable :=
  las.foldlM (fun t la => do
    let (_, t) ← lookupRib64 t la
    return t) Bigtable.init

/-- What the call for `la` returns after the history `pre`. -/
def indexAfter (pre : List Nat) (la : Nat) : Exec Nat := do
  let t ← tableAfter pre
  let (i, _) ← lookupRib64 t la
  return i

/-- The keys of a history: only prefixes of length up to 24 reach the tables. -/
def words (las : List Nat) : List Nat := (las.filter fun la => lengthOf la ≤ 24).map prefixWord

def slotsAfter (las : List Nat) : SlotTable Nat := Bigtable.init.slots.after (words las)

theorem words_append (las las' : List Nat) : words (las ++ las') = words las ++ words las' := by
  simp [words]

theorem words_cons_short {la : Nat} (h : lengthOf la ≤ 24) (las : List Nat) :
    words (la :: las) = prefixWord la :: words las := by
  simp [words, h]

theorem words_cons_long {la : Nat} (h : 24 < lengthOf la) (las : List Nat) :
    words (la :: las) = words las := by
  simp [words, Nat.not_le.mpr h]

theorem slotsAfter_append (las las' : List Nat) :
    slotsAfter (las ++ las') = (slotsAfter las).after (words las') := by
  rw [slotsAfter, words_append, SlotTable.after_append, slotsAfter]

theorem foldlM_lookup (las : List Nat) (t : SlotTable Nat) :
    las.foldlM (fun t la => do
      let (_, t) ← lookupRib64 t la
      return t) (SlotTable.tables t) = .ok (SlotTable.tables (t.after (words las))) := by
  induction las generalizing t with
  | nil => rfl
  | cons la las ih =>
    rw [List.foldlM_cons]
    by_cases h : lengthOf la ≤ 24
    · rw [lookupRib64_short _ h, words_cons_short h]
      exact ih (t.lookup (prefixWord la)).2
    · have h : 24 < lengthOf la := by omega
      rw [lookupRib64_long _ h, words_cons_long h]
      exact ih t

/-- The assertions of `lookup_RIB` never fail, whatever the history. -/
theorem tableAfter_eq (las : List Nat) :
    tableAfter las = .ok (SlotTable.tables (slotsAfter las)) :=
  foldlM_lookup las Bigtable.init.slots

theorem lookup_short (pre : List Nat) {la : Nat} (h : lengthOf la ≤ 24) :
    lookupRib64 (SlotTable.tables (slotsAfter pre)) la =
      .ok (((slotsAfter pre).lookup (prefixWord la)).1,
        SlotTable.tables (slotsAfter (pre ++ [la]))) := by
  rw [lookupRib64_short _ h, slotsAfter_append, words_cons_short h]
  rfl

theorem lookup_long (pre : List Nat) {la : Nat} (h : 24 < lengthOf la) :
    lookupRib64 (SlotTable.tables (slotsAfter pre)) la =
      .ok (tooBig, SlotTable.tables (slotsAfter (pre ++ [la]))) := by
  rw [lookupRib64_long _ h, slotsAfter_append, words_cons_long h]
  rfl

theorem indexAfter_short (pre : List Nat) {la : Nat} (h : lengthOf la ≤ 24) :
    indexAfter pre la = .ok ((slotsAfter pre).lookup (prefixWord la)).1 := by
  rw [indexAfter, tableAfter_eq]
  change (do
    let (i, _) ← lookupRib64 (SlotTable.tables (slotsAfter pre)) la
    return i) = _
  rw [lookup_short pre h]
  rfl

theorem slotsAfter_linked (las : List Nat) : (slotsAfter las).Linked := by
  apply SlotTable.Linked.after
  intro k hk
  exact absurd rfl hk

/-- The cursor leaves zero with the first short prefix of the history. -/
theorem next_pos {las : List Nat} (h : words las ≠ []) : 0 < (slotsAfter las).next := by
  cases hw : words las with
  | nil => exact absurd hw h
  | cons w ws =>
    have hle := SlotTable.next_le_after (Bigtable.init.slots.lookup w).2 ws
    rw [slotsAfter, hw]
    exact Nat.lt_of_lt_of_le Nat.one_pos hle

/-- Any two calls for the same prefix, anywhere in the history, return the same index. -/
def KeepsIndex (las : List Nat) : Prop :=
  ∀ pre la mid la' post, las = pre ++ la :: (mid ++ la' :: post) → lengthOf la ≤ 24 →
    SamePrefix la la' → indexAfter pre la = indexAfter (pre ++ la :: mid) la'

/-- The first short prefix of the history, which gets index zero, is not asked for again. -/
def FirstPrefixOnce (las : List Nat) : Prop :=
  match las.filter fun la => lengthOf la ≤ 24 with
  | [] => True
  | la :: rest => ∀ la' ∈ rest, ¬ SamePrefix la la'

theorem not_keepsIndex_pair {pre : List Nat} {la : Nat} {mid : List Nat} {la' : Nat}
    (hpre : words pre = []) (h : lengthOf la ≤ 24) (hs : SamePrefix la la') :
    indexAfter pre la ≠ indexAfter (pre ++ la :: mid) la' := by
  have h' : lengthOf la' ≤ 24 := hs.1 ▸ h
  have hn : 0 < (slotsAfter (pre ++ la :: mid)).next := by
    apply next_pos
    rw [words_append, words_cons_short h]
    simp
  have hne := (SlotTable.slot_lookup hn (prefixWord la')).1
  have h0 : ((slotsAfter pre).lookup (prefixWord la)).1 = 0 := by
    rw [slotsAfter, hpre]
    rfl
  rw [indexAfter_short pre h, indexAfter_short _ h', h0]
  intro e
  exact hne (Except.ok.inj e).symm

theorem keepsIndex_iff (las : List Nat) : KeepsIndex las ↔ FirstPrefixOnce las := by
  constructor
  · intro hk
    unfold FirstPrefixOnce
    split
    · trivial
    · rename_i la rest hf
      intro la' hmem hs
      obtain ⟨pre, tl, rfl, hpre, hla, rfl⟩ := List.filter_eq_cons_iff.mp hf
      obtain ⟨mid, post, rfl⟩ := List.append_of_mem (List.mem_filter.mp hmem).1
      have hshort : lengthOf la ≤ 24 := by simpa using hla
      have hw : words pre = [] := by
        simp only [words, List.map_eq_nil_iff, List.filter_eq_nil_iff]
        exact hpre
      exact not_keepsIndex_pair hw hshort hs (hk pre la mid la' post rfl hshort hs)
  · rintro ho pre la mid la' post rfl h hs
    have h' : lengthOf la' ≤ 24 := hs.1 ▸ h
    by_cases hw : words pre = []
    · -- `la` is the first short prefix, and `la'` asks for it again
      have hf : pre.filter (fun la => lengthOf la ≤ 24) = [] := by simpa [words] using hw
      unfold FirstPrefixOnce at ho
      rw [List.filter_append, hf, List.nil_append, List.filter_cons_of_pos (by simpa using h)] at ho
      exact absurd hs (ho la' (by simp [h']))
    · have e := SlotTable.index_stable (next_pos hw) (prefixWord la) (words mid)
      rw [indexAfter_short pre h, indexAfter_short _ h', ← (prefixWord_inj h h').mpr hs,
        slotsAfter_append, words_cons_short h]
      exact congrArg Except.ok e.symm

/-- 10.0.0.0/8 asked for twice on fresh tables gets the indices 0 and 1. -/
theorem not_keepsIndex_first :
    ¬ KeepsIndex [8 <<< 32 ||| 10 <<< 24, 8 <<< 32 ||| 10 <<< 24] := by
  intro h
  have e := h [] (8 <<< 32 ||| 10 <<< 24) [] (8 <<< 32 ||| 10 <<< 24) [] rfl (by decide) (by decide)
  revert e
  decide

end FastParse
