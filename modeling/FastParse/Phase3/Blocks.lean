import FastParse.Phase3.Prefixes
import FastParse.Update.Entries

namespace FastParse

open Framework

/-- `build_nlri` for each prefix in turn. -/
def buildBlock (las : List Nat) (out : Mem) (p : Nat) : Mem × Nat :=
  las.foldl (fun r la => buildNlri r.1 r.2 la) (out, p)

def builtEntry (la : Nat) : NlriEntry where
  length := UInt8.ofNat (lengthOf la)
  address := nlriBytes (bswap32 (UInt32.ofNat (addressOf la)))
    (chunkSize (UInt8.ofNat (lengthOf la)).toNat)
  fits := length_nlriBytes _ _

theorem nlriForm_encode (la : Nat) : nlriForm la = (builtEntry la).encode := rfl

theorem buildBlock_eq (las : List Nat) (out : Mem) (p : Nat) :
    buildBlock las out p =
      (overlay out p (encodeSection (las.map builtEntry)),
        p + (encodeSection (las.map builtEntry)).length) := by
  induction las generalizing out p with
  | nil => rfl
  | cons la las ih =>
    have hrest := ih (buildNlri out p la).1 (buildNlri out p la).2
    rw [buildBlock] at hrest ⊢
    rw [List.foldl_cons, hrest, buildNlri_eq, nlriForm_encode, List.map_cons,
      encodeSection_cons, overlay_append, List.length_append, ← Nat.add_assoc]

theorem slice_buildBlock (las : List Nat) (out : Mem) (p : Nat) :
    slice (buildBlock las out p).1 p (encodeSection (las.map builtEntry)).length =
      encodeSection (las.map builtEntry) := by
  rw [buildBlock_eq]
  exact slice_overlay out p _

theorem builtEntry_length {la : Nat} (h : lengthOf la ≤ 32) :
    (builtEntry la).length.toNat = lengthOf la := by
  change (UInt8.ofNat (lengthOf la)).toNat = lengthOf la
  rw [UInt8.toNat_ofNat']
  omega

theorem clear_low (a : Nat) {k j : Nat} (h : k ≤ j) : a / 2 ^ k * 2 ^ k / 2 ^ j = a / 2 ^ j := by
  obtain ⟨i, rfl⟩ := Nat.exists_eq_add_of_le h
  rw [Nat.pow_add, ← Nat.div_div_eq_div_mul, Nat.mul_div_cancel _ (Nat.two_pow_pos k),
    Nat.div_div_eq_div_mul]

theorem builtEntry_word {la : Nat} (h : lengthOf la ≤ 32) :
    (builtEntry la).word =
      lengthOf la <<< 32 ||| addressOf la / 256 ^ (4 - chunkSize (lengthOf la)) *
        256 ^ (4 - chunkSize (lengthOf la)) := by
  have hlen : (UInt8.ofNat (lengthOf la)).toNat = lengthOf la := builtEntry_length h
  simp only [builtEntry, NlriEntry.word, hlen]
  rw [beValue_nlriBytes (addressOf_lt la) (chunkSize_le_four h)]

/-- The entry is the same prefix: only address bits beyond its length are left out. -/
theorem builtEntry_samePrefix {la : Nat} (h : lengthOf la ≤ 32) :
    SamePrefix (builtEntry la).word la := by
  rw [builtEntry_word h]
  generalize hk : 4 - chunkSize (lengthOf la) = k
  have hkl : 8 * k ≤ 32 - lengthOf la := by
    rw [chunkSize] at hk
    omega
  have hlt : addressOf la / 256 ^ k * 256 ^ k < 2 ^ 32 :=
    (Nat.div_mul_le_self (addressOf la) (256 ^ k)).trans_lt (addressOf_lt la)
  obtain ⟨hlen, haddr⟩ := prefix_halves (l := lengthOf la) hlt
  have hpow : 256 ^ k = 2 ^ (8 * k) := by rw [Nat.pow_mul]
  refine ⟨hlen, ?_⟩
  rw [hlen, haddr, Nat.shiftRight_eq_div_pow, Nat.shiftRight_eq_div_pow, hpow, clear_low _ hkl]

theorem builtEntry_exact {la : Nat} (h : lengthOf la ≤ 32)
    (hlow : addressOf la % 256 ^ (4 - chunkSize (lengthOf la)) = 0) :
    (builtEntry la).word = la := by
  have hla : lengthOf la <<< 32 ||| addressOf la = la := by
    rw [← Nat.shiftLeft_add_eq_or_of_lt (addressOf_lt la), lengthOf, addressOf,
      show 0xffffffff = 2 ^ 32 - 1 from rfl, Nat.and_two_pow_sub_one_eq_mod,
      Nat.shiftRight_eq_div_pow, Nat.shiftLeft_eq, Nat.div_add_mod']
  rw [builtEntry_word h, Nat.div_mul_cancel (Nat.dvd_of_mod_eq_zero hlow), hla]

theorem nlriSection_encode (t : Bigtable) (indices : List Nat) :
    nlriSection t indices =
      encodeSection (indices.map fun i => builtEntry (decode (t.bigtable i))) := by
  rw [nlriSection, encodeSection, List.flatMap_def, List.map_map]
  rfl

theorem nlriIter_word {m : Mem} {p : Nat} (h : (entryAt m p).length.toNat ≤ 32) :
    (nlriIter m p).1 = (entryAt m p).word := by
  rw [nlriIter_eq m p h]
  rfl

/-- `nlri_iter` gets the words of the entries one by one. -/
theorem walk_words {m : Mem} {p : Nat} {entries : List NlriEntry}
    (hshort : ∀ e ∈ entries, e.length.toNat ≤ 32)
    (h : slice m p (encodeSection entries).length = encodeSection entries) :
    (nlriWalk m p (p + (encodeSection entries).length)).map Prod.fst =
      entries.map NlriEntry.word := by
  have hentries := (sectionTiled_of_slice h).2
  rw [nlriWalk_stations, List.map_map]
  conv => rhs; rw [← hentries, List.map_map]
  apply List.map_congr_left
  intro q hq
  apply nlriIter_word
  apply hshort
  rw [← hentries]
  exact List.mem_map_of_mem hq

def collect (las : List Nat) (entry : Nat × Bool) : Exec (List Nat) := .ok (las ++ [entry.1])

theorem foldlM_collect (entries : List (Nat × Bool)) (las : List Nat) :
    entries.foldlM collect las = .ok (las ++ entries.map Prod.fst) :=
  foldlM_record (fun _ _ => rfl) entries las

theorem nlri_block_round_trip (las : List Nat)
    (h : ∀ la ∈ las, lengthOf la ≤ 32 ∧
      addressOf la % 256 ^ (4 - chunkSize (lengthOf la)) = 0)
    (out : Mem) (p : Nat) :
    (∀ fuel, (buildBlock las out p).2 - p < fuel →
      nlriLoop (buildBlock las out p).1 (buildBlock las out p).2 collect fuel p [] =
        .ok ((buildBlock las out p).2, las)) ∧
    ∀ (limit : Int32) (fuel : Nat), limit.toInt = (buildBlock las out p).2 - p →
      (buildBlock las out p).2 - p < fuel →
      ∃ n, nlriCount (buildBlock las out p).1 p limit fuel = .ok n ∧ n.toInt = las.length := by
  have hslice := slice_buildBlock las out p
  have hend : (buildBlock las out p).2 = p + (encodeSection (las.map builtEntry)).length := by
    rw [buildBlock_eq]
  have hshort : ∀ e ∈ las.map builtEntry, e.length.toNat ≤ 32 := by
    intro e he
    obtain ⟨la, hla, rfl⟩ := List.mem_map.mp he
    rw [builtEntry_length (h la hla).1]
    exact (h la hla).1
  have hwords : (las.map builtEntry).map NlriEntry.word = las := by
    rw [List.map_map]
    conv => rhs; rw [← List.map_id las]
    apply List.map_congr_left
    intro la hla
    exact builtEntry_exact (h la hla).1 (h la hla).2
  obtain ⟨htiled, hentries⟩ := sectionTiled_of_slice hslice
  rw [hend]
  constructor
  · intro fuel hfuel
    rw [nlriLoop_tiled htiled hfuel, foldlM_collect, walk_words hshort hslice, hwords]
    rfl
  · intro limit fuel hlimit hfuel
    have hsize : limit.toInt = (encodeSection (las.map builtEntry)).length := by omega
    obtain ⟨n, hn, hcount⟩ := nlriCount_tiled htiled hsize (hfuel.trans_le' (by omega))
    refine ⟨n, hn, ?_⟩
    have hlen := congrArg List.length hentries
    rw [List.length_map, List.length_map] at hlen
    rw [hcount, hlen]

/-- 0.0.0.0/0, 10.0.0.0/8, 192.168.128.0/17 and 192.0.2.1/32. -/
def fourPrefixes : List Nat :=
  [0, 8 <<< 32 ||| 0x0a000000, 17 <<< 32 ||| 0xc0a88000, 32 <<< 32 ||| 0xc0000201]

theorem nlri_block_round_trip_four :
    nlriLoop (buildBlock fourPrefixes (fun _ => 0) 0).1 12 collect 13 0 [] =
      .ok (12, fourPrefixes) ∧
    ∃ n, nlriCount (buildBlock fourPrefixes (fun _ => 0) 0).1 0 12 13 = .ok n ∧ n.toInt = 4 := by
  obtain ⟨hloop, hcount⟩ := nlri_block_round_trip fourPrefixes (by decide) (fun _ => 0) 0
  exact ⟨hloop 13 (by decide), hcount 12 13 (by decide) (by decide)⟩

end FastParse
