import FastParse.Phase3.Prefixes

namespace FastParse

/-- A shift as C sees it: the width of the promoted left operand, and the count. -/
structure Shift where
  width : Nat
  count : Int
  deriving DecidableEq, Repr

/-- A count that is negative or as large as the operand is wide leaves the result undefined. -/
def Shift.Defined (s : Shift) : Prop := 0 ≤ s.count ∧ s.count < s.width

/-- `encode` widens the address to `uint64_t` before the shift. -/
def encodeShifts (l : Nat) : List Shift := [⟨64, 32 - (l : Int)⟩]

/-- `decode` shifts `ref` as the `uint32_t` it is, and the length as a `uint64_t`. -/
def decodeShifts (ref : Nat) : List Shift := [⟨32, 32 - (Nat.log2 ref : Int)⟩, ⟨64, 32⟩]

/-- A prefix goes into the tables as a word of 25 bits and comes back with the address bits it
covers, by shifts that are defined. -/
def PrefixReturns (l a : Nat) : Prop :=
  ∃ ref, encode l a = .ok ref ∧ ref ≠ 0 ∧ ref < 2 ^ 25 ∧
    decode ref = l <<< 32 ||| a >>> (32 - l) <<< (32 - l) ∧
    ∀ s ∈ encodeShifts l ++ decodeShifts ref, s.Defined

theorem encodeShifts_defined {l : Nat} (h : l ≤ 24) : ∀ s ∈ encodeShifts l, s.Defined := by
  simp only [encodeShifts, List.mem_singleton, forall_eq, Shift.Defined]
  omega

/-- Only the sentinel of the empty prefix is shifted too far. -/
theorem decodeShifts_defined_iff {ref : Nat} (h : Nat.log2 ref ≤ 24) :
    (∀ s ∈ decodeShifts ref, s.Defined) ↔ Nat.log2 ref ≠ 0 := by
  simp only [decodeShifts, List.mem_cons, List.not_mem_nil, or_false, forall_eq_or_imp, forall_eq,
    Shift.Defined]
  omega

theorem log2_prefixWord (la : Nat) (h : lengthOf la ≤ 24) :
    Nat.log2 (prefixWord la) = lengthOf la :=
  log2_sentinel (address_top_lt la h)

theorem encode_eq_prefixWord {l a : Nat} (hl : l ≤ 24) (ha : a < 2 ^ 32) :
    encode l a = .ok (prefixWord (l <<< 32 ||| a)) := by
  obtain ⟨hlen, haddr⟩ := prefix_halves (l := l) ha
  have he := encode_eq (l <<< 32 ||| a) (hlen.trans_le hl)
  rwa [hlen, haddr] at he

/-- The word of a prefix fits the table, and zero is left for empty slots. -/
theorem prefixWord_range {l a : Nat} (hl : l ≤ 24) (ha : a < 2 ^ 32) :
    prefixWord (l <<< 32 ||| a) ≠ 0 ∧ prefixWord (l <<< 32 ||| a) < 2 ^ 25 := by
  have hlen := (prefix_halves (l := l) ha).1
  refine ⟨?_, prefixWord_lt _ (hlen.trans_le hl)⟩
  rw [prefixWord]
  exact Nat.ne_of_gt (Nat.add_pos_left (Nat.two_pow_pos _) _)

theorem encode64_decode {ref : Nat} (h : 1 ≤ ref) (h' : ref < 2 ^ 25) :
    encode64 (decode ref) = .ok ref := by
  obtain ⟨hlen, hword⟩ := decode_word h h'
  rw [encode64, Nat.mod_eq_of_lt (by omega), encode_eq _ hlen, hword]

/-- The address that comes back is right as well exactly if there is one. -/
theorem decode_prefix_iff {l a : Nat} (hl : l ≤ 24) (ha : a < 2 ^ 32) :
    decode (prefixWord (l <<< 32 ||| a)) = l <<< 32 ||| a >>> (32 - l) <<< (32 - l) ↔ l ≠ 0 := by
  rw [decode_prefixWord hl ha, Nat.shiftLeft_eq _ (32 - l), Nat.shiftRight_eq_div_pow]
  by_cases hzero : l = 0
  · subst hzero
    have hnone : a / 2 ^ 32 = 0 := Nat.div_eq_of_lt ha
    rw [Nat.sub_zero, hnone]
    decide
  · simp [hzero]

theorem prefixReturns_iff_ne_zero {l a : Nat} (hl : l ≤ 24) (ha : a < 2 ^ 32) :
    PrefixReturns l a ↔ l ≠ 0 := by
  have hlen := (prefix_halves (l := l) ha).1
  obtain ⟨hne, hlt⟩ := prefixWord_range hl ha
  have hlog := log2_prefixWord (l <<< 32 ||| a) (hlen.trans_le hl)
  rw [hlen] at hlog
  have hshifts := decodeShifts_defined_iff (hlog.trans_le hl)
  rw [hlog] at hshifts
  constructor
  · intro h
    obtain ⟨ref, henc, _, _, hdec, _⟩ := h
    obtain rfl : prefixWord (l <<< 32 ||| a) = ref :=
      Except.ok.inj ((encode_eq_prefixWord hl ha).symm.trans henc)
    exact (decode_prefix_iff hl ha).mp hdec
  · intro hl0
    refine ⟨_, encode_eq_prefixWord hl ha, hne, hlt, (decode_prefix_iff hl ha).mpr hl0, ?_⟩
    intro s hs
    cases List.mem_append.mp hs with
    | inl hs => exact encodeShifts_defined hl s hs
    | inr hs => exact hshifts.mpr hl0 s hs

/-- Every prefix but the empty one comes back: there `decode` shifts a 32-bit word by 32. The
words themselves all come back. -/
theorem prefix_returns_iff (l a : Nat) (hl : l ≤ 24) (ha : a < 2 ^ 32) :
    (PrefixReturns l a ↔ l ≠ 0) ∧
      (∃ ref, encode l a = .ok ref ∧ ref ≠ 0 ∧ ref < 2 ^ 25) ∧
      ∀ ref, 1 ≤ ref → ref < 2 ^ 25 → encode64 (decode ref) = .ok ref := by
  obtain ⟨hne, hlt⟩ := prefixWord_range hl ha
  refine ⟨prefixReturns_iff_ne_zero hl ha, ⟨_, encode_eq_prefixWord hl ha, hne, hlt⟩, ?_⟩
  intro ref h h'
  exact encode64_decode h h'

/-- 10.1.2.3/8 -/
theorem prefix_returns_eight : PrefixReturns 8 0x0a010203 := by
  have h := prefix_returns_iff 8 0x0a010203 (by decide) (by decide)
  exact h.1.mpr (by decide)

/-- The sentinel of 0.0.0.0/0 is left in the address. -/
theorem empty_prefix_lost :
    encode 0 0 = .ok 1 ∧ decode 1 = 1 ∧ decodeShifts 1 = [⟨32, 32⟩, ⟨64, 32⟩] ∧
      ¬ PrefixReturns 0 0 := by
  have hfails := prefixReturns_iff_ne_zero (l := 0) (a := 0) (by decide) (by decide)
  exact ⟨rfl, by decide, by decide, fun h => hfails.mp h rfl⟩

end FastParse
