import FastParse.Phase3.Blocks
import FastParse.Table.Indices

namespace FastParse

open Framework

/-- The entry with the address bits beyond its length cleared. -/
def NlriEntry.canonical (e : NlriEntry) : NlriEntry where
  length := e.length
  address := keepBits e.length.toNat e.address
  fits := (length_keepBits _ _).trans e.fits

/-- Cutting above a shift is cutting in front of it. -/
theorem cut_shifted (v j k : Nat) :
    v * 2 ^ k / 2 ^ (j + k) * 2 ^ (j + k) / 2 ^ k = v / 2 ^ j * 2 ^ j := by
  have hpos := Nat.two_pow_pos k
  rw [Nat.add_comm, Nat.pow_add, ← Nat.div_div_eq_div_mul, Nat.mul_div_cancel _ hpos,
    Nat.mul_comm (2 ^ k), ← Nat.mul_assoc, Nat.mul_div_cancel _ hpos]

/-- The table word of a prefix holds the address bits that are kept, and these are written
again. -/
theorem builtEntry_decode {e : NlriEntry} (h : e.length.toNat ≤ 24) :
    builtEntry (decode (prefixWord e.word)) = e.canonical := by
  have hc : chunkSize e.length.toNat ≤ 4 := chunkSize_le_four (h.trans (by decide))
  have hvalue := beValue_lt e.address
  rw [e.fits] at hvalue
  have hword := top_bytes_lt hc hvalue
  have hcut : (if e.length.toNat = 0 then 1
      else beValue e.address * 256 ^ (4 - chunkSize e.length.toNat) / 2 ^ (32 - e.length.toNat) *
        2 ^ (32 - e.length.toNat)) < 2 ^ 32 := by
    split_ifs
    · decide
    · exact (Nat.div_mul_le_self _ _).trans_lt hword
  obtain ⟨hlen, haddr⟩ := prefix_halves (l := e.length.toNat) hcut
  rw [← decode_prefixWord h hword, ← NlriEntry.word] at hlen haddr
  have hlength : UInt8.ofNat (lengthOf (decode (prefixWord e.word))) = e.length := by
    rw [hlen, UInt8.ofNat_toNat]
  apply NlriEntry.ext
  · exact hlength
  · change nlriBytes _ (chunkSize (UInt8.ofNat (lengthOf (decode (prefixWord e.word)))).toNat) =
      keepBits e.length.toNat e.address
    rw [hlength]
    apply beValue_inj
    · rw [length_nlriBytes, length_keepBits, e.fits]
    · rw [beValue_nlriBytes (addressOf_lt _) hc, haddr, beValue_keepBits, e.fits]
      split_ifs with hzero
      · -- the empty prefix has no address bytes, whatever the address is
        have hempty : e.address = [] := List.eq_nil_of_length_eq_zero (by rw [e.fits, hzero]; rfl)
        rw [hempty, hzero]
        rfl
      · have hk : 256 ^ (4 - chunkSize e.length.toNat) =
            2 ^ (8 * (4 - chunkSize e.length.toNat)) := by rw [Nat.pow_mul]
        have hj : 32 - e.length.toNat = 8 * chunkSize e.length.toNat - e.length.toNat +
            8 * (4 - chunkSize e.length.toNat) := by
          rw [chunkSize] at hc ⊢
          omega
        rw [hk, hj, cut_shifted]

def lookupEntry (r : List Nat × Bigtable) (entry : Nat × Bool) : Exec (List Nat × Bigtable) := do
  let (index, t) ← lookupRib64 r.2 entry.1
  return (r.1 ++ [index], t)

/-- Further calls of `lookup_RIB64`. -/
def lookups (las : List Nat) (t : Bigtable) : Exec Bigtable :=
  las.foldlM (fun t la => do
    let (_, t) ← lookupRib64 t la
    return t) t

theorem foldlM_lookupEntry {entries : List (Nat × Bool)}
    (hshort : ∀ entry ∈ entries, lengthOf entry.1 ≤ 24) {t : SlotTable Nat} (ht : t.Linked)
    (acc : List Nat) :
    ∃ indices, entries.foldlM lookupEntry (acc, SlotTable.tables t) =
        .ok (acc ++ indices,
          SlotTable.tables (t.after (entries.map fun entry => prefixWord entry.1))) ∧
      (∀ i ∈ indices, i < (t.after (entries.map fun entry => prefixWord entry.1)).next) ∧
      indices.map (t.after (entries.map fun entry => prefixWord entry.1)).key =
        entries.map fun entry => prefixWord entry.1 := by
  induction entries generalizing t acc with
  | nil =>
    refine ⟨[], ?_, ?_, rfl⟩
    · rw [List.append_nil]
      rfl
    · intro i hi
      cases hi
  | cons entry entries ih =>
    have hfirst := hshort entry List.mem_cons_self
    have hrest : ∀ e ∈ entries, lengthOf e.1 ≤ 24 :=
      fun e he => hshort e (List.mem_cons_of_mem entry he)
    obtain ⟨hindex, hkey⟩ := ht.index (prefixWord entry.1)
    obtain ⟨indices, hrun, hin, hwords⟩ :=
      ih hrest (ht.lookup (prefixWord entry.1)) (acc ++ [(t.lookup (prefixWord entry.1)).1])
    rw [List.map_cons, SlotTable.after_cons]
    refine ⟨(t.lookup (prefixWord entry.1)).1 :: indices, ?_, ?_, ?_⟩
    · rw [List.foldlM_cons, lookupEntry, lookupRib64_short _ hfirst]
      rw [List.append_assoc] at hrun
      exact hrun
    · intro i hi
      cases List.mem_cons.mp hi with
      | inl e =>
        rw [e]
        exact hindex.trans_le (SlotTable.next_le_after _ _)
      | inr hi => exact hin i hi
    · rw [List.map_cons, hwords, SlotTable.key_stable _ _ hindex, hkey]

theorem lengthOf_word {e : NlriEntry} (h : e.length.toNat ≤ 32) :
    lengthOf e.word = e.length.toNat := by
  have hvalue := beValue_lt e.address
  rw [e.fits] at hvalue
  exact (prefix_halves (top_bytes_lt (chunkSize_le_four h) hvalue)).1

theorem length_canonical (entries : List NlriEntry) :
    (encodeSection (entries.map NlriEntry.canonical)).length = (encodeSection entries).length := by
  induction entries with
  | nil => rfl
  | cons e entries ih =>
    rw [List.map_cons, encodeSection_cons, encodeSection_cons, List.length_append,
      List.length_append, ih, NlriEntry.length_encode, NlriEntry.length_encode]
    rfl

/-- What is written for indices that lead back to the words of some entries. -/
theorem nlriSection_canonical {t : Bigtable} {indices : List Nat} {entries : List NlriEntry}
    (hshort : ∀ e ∈ entries, e.length.toNat ≤ 24)
    (h : indices.map t.bigtable = entries.map fun e => prefixWord e.word) :
    nlriSection t indices = encodeSection (entries.map NlriEntry.canonical) := by
  have hbuilt := congrArg (List.map fun w => builtEntry (decode w)) h
  rw [List.map_map, List.map_map] at hbuilt
  rw [nlriSection_encode]
  apply congrArg encodeSection
  refine hbuilt.trans ?_
  apply List.map_congr_left
  intro e he
  exact builtEntry_decode (hshort e he)

/-- A block is read, and each of its prefixes looked up. -/
theorem nlriLoop_lookupEntry {entries : List NlriEntry}
    (hshort : ∀ e ∈ entries, e.length.toNat ≤ 24) {m : Mem} {p : Nat}
    (hm : slice m p (encodeSection entries).length = encodeSection entries)
    {t : SlotTable Nat} (ht : t.Linked) :
    ∃ indices,
      (∀ fuel, (encodeSection entries).length < fuel →
        nlriLoop m (p + (encodeSection entries).length) lookupEntry fuel p
            ([], SlotTable.tables t) =
          .ok (p + (encodeSection entries).length, indices,
            SlotTable.tables (t.after (entries.map fun e => prefixWord e.word)))) ∧
      (∀ i ∈ indices, i < (t.after (entries.map fun e => prefixWord e.word)).next) ∧
      indices.map (t.after (entries.map fun e => prefixWord e.word)).key =
        entries.map fun e => prefixWord e.word := by
  have hshort32 : ∀ e ∈ entries, e.length.toNat ≤ 32 :=
    fun e he => (hshort e he).trans (by decide)
  have hwords := walk_words hshort32 hm
  have hprefixes : ∀ entry ∈ nlriWalk m p (p + (encodeSection entries).length),
      lengthOf entry.1 ≤ 24 := by
    intro entry hentry
    have hmem := List.mem_map_of_mem (f := Prod.fst) hentry
    rw [hwords] at hmem
    obtain ⟨e, he, hword⟩ := List.mem_map.mp hmem
    rw [← hword, lengthOf_word (hshort32 e he)]
    exact hshort e he
  have hkeys : ((nlriWalk m p (p + (encodeSection entries).length)).map
      fun entry => prefixWord entry.1) = entries.map fun e => prefixWord e.word := by
    have e := congrArg (List.map prefixWord) hwords
    rwa [List.map_map, List.map_map] at e
  obtain ⟨indices, hrun, hin, hback⟩ := foldlM_lookupEntry hprefixes ht []
  rw [hkeys] at hrun hin hback
  refine ⟨indices, ?_, hin, hback⟩
  intro fuel hfuel
  rw [nlriLoop_tiled (sectionTiled_of_slice hm).1 (by omega), hrun]
  rfl

/-- And each is written again, from indices that are in use and lead back to it. -/
theorem buildNlris_canonical {entries : List NlriEntry}
    (hshort : ∀ e ∈ entries, e.length.toNat ≤ 24) {t : Bigtable} {indices : List Nat}
    (hin : ∀ i ∈ indices, i < t.bigtableIndex)
    (hback : indices.map t.bigtable = entries.map fun e => prefixWord e.word)
    (out : Mem) (q : Nat) :
    ∃ out', buildNlris t out q indices = .ok (out', q + (encodeSection entries).length) ∧
      slice out' q (encodeSection entries).length =
        encodeSection (entries.map NlriEntry.canonical) := by
  obtain ⟨⟨out', q'⟩, hbuilt⟩ := buildNlris_returns (fun i hi => .inl (hin i hi)) out q
  obtain ⟨hout, hq⟩ := buildNlris_ok hbuilt
  rw [nlriSection_canonical hshort hback] at hout hq
  rw [length_canonical] at hq
  refine ⟨out', by rw [hbuilt, hq], ?_⟩
  rw [hout, ← length_canonical, slice_overlay]

theorem prefixes_survive_index (entries : List NlriEntry)
    (hshort : ∀ e ∈ entries, e.length.toNat ≤ 24) (m : Mem) (p : Nat)
    (hm : slice m p (encodeSection entries).length = encodeSection entries)
    (pre : List Nat) (t : Bigtable) (ht : tableAfter pre = .ok t) :
    ∃ indices t1,
      (∀ fuel, (encodeSection entries).length < fuel →
        nlriLoop m (p + (encodeSection entries).length) lookupEntry fuel p ([], t) =
          .ok (p + (encodeSection entries).length, indices, t1)) ∧
      (∀ i ∈ indices, i < t1.bigtableIndex) ∧
      ∀ post t2, lookups post t1 = .ok t2 → ∀ out q,
        ∃ out', buildNlris t2 out q indices = .ok (out', q + (encodeSection entries).length) ∧
          slice out' q (encodeSection entries).length =
            encodeSection (entries.map NlriEntry.canonical) := by
  have htable : t = SlotTable.tables (slotsAfter pre) :=
    Except.ok.inj (ht.symm.trans (tableAfter_eq pre))
  obtain ⟨indices, hread, hin, hback⟩ := nlriLoop_lookupEntry hshort hm (slotsAfter_linked pre)
  generalize (slotsAfter pre).after (entries.map fun e => prefixWord e.word) = s1
    at hread hin hback
  rw [← htable] at hread
  refine ⟨indices, SlotTable.tables s1, hread, hin, ?_⟩
  intro post t2 hpost out q
  have ht2 : t2 = SlotTable.tables (s1.after (words post)) :=
    Except.ok.inj (hpost.symm.trans (foldlM_lookup post s1))
  apply buildNlris_canonical hshort
  · intro i hi
    rw [ht2]
    exact (hin i hi).trans_le (SlotTable.next_le_after s1 (words post))
  · rw [← hback, ht2]
    apply List.map_congr_left
    intro i hi
    exact SlotTable.key_stable s1 (words post) (hin i hi)

/-- 0.0.0.0/0, 10.1.255.0/17 with host bits set, and 192.0.2.0/24. -/
def threeEntries : List NlriEntry :=
  [⟨0, [], rfl⟩, ⟨17, [10, 1, 255], rfl⟩, ⟨24, [192, 0, 2], rfl⟩]

theorem prefixes_survive_index_three :
    ∃ indices t1,
      nlriLoop (fun i => (encodeSection threeEntries).getD i 0) 9 lookupEntry 10 0
        ([], SlotTable.tables (slotsAfter [8 <<< 32 ||| 10 <<< 24])) = .ok (9, indices, t1) ∧
      ∃ out', buildNlris t1 (fun _ => 0) 0 indices = .ok (out', 9) ∧
        slice out' 0 9 = [0, 17, 10, 1, 128, 24, 192, 0, 2] := by
  obtain ⟨indices, t1, hread, -, hwrite⟩ := prefixes_survive_index threeEntries (by decide)
    (fun i => (encodeSection threeEntries).getD i 0) 0 (by decide) [8 <<< 32 ||| 10 <<< 24] _
    (tableAfter_eq _)
  obtain ⟨out', hout, hslice⟩ := hwrite [] t1 rfl (fun _ => 0) 0
  exact ⟨indices, t1, hread 10 (by decide), out', hout, hslice⟩

end FastParse
