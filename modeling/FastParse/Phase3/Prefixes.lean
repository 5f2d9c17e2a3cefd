import FastParse.Framework.BigEndian
import FastParse.Phase3.Layout
import Mathlib.Tactic.IntervalCases

namespace FastParse

open Framework

/-- The sentinel stands where the address bits end. -/
theorem log2_sentinel {l x : Nat} (hx : x < 2 ^ l) : Nat.log2 (2 ^ l + x) = l := by
  have hpos := Nat.two_pow_pos l
  rw [Nat.log2_eq_iff (by omega), Nat.pow_succ]
  omega

/-- The top `l` bits of an address, moved back to the top. -/
theorem top_bits_lt {l x : Nat} (hl : l ≤ 32) (hx : x < 2 ^ l) : x * 2 ^ (32 - l) < 2 ^ 32 := by
  rw [two_pow_split hl]
  exact Nat.mul_lt_mul_of_pos_right hx (Nat.two_pow_pos _)

/-- A shift by less than the width needs no reduction of its count. -/
theorem shl32_eq {n : Nat} (x : Nat) (hn : n < 32) : shl32 x (n : Int) = x * 2 ^ n % 2 ^ 32 := by
  have hcount : ((n : Int) % 32).toNat = n := by omega
  rw [shl32, hcount, Nat.shiftLeft_eq]

/-- What `decode` makes of a sentinel in front of `l` address bits. For the empty prefix the
shift by 32 does nothing, and leaves the sentinel in the address. -/
theorem decode_eq {l x : Nat} (hl : l ≤ 24) (hx : x < 2 ^ l) :
    decode (2 ^ l + x) = l <<< 32 ||| if l = 0 then 1 else x * 2 ^ (32 - l) := by
  rw [decode, log2_sentinel hx]
  split_ifs with hzero
  · subst hzero
    have hx0 : x = 0 := by omega
    subst hx0
    rfl
  · have hcount : 32 - (l : Int) = (32 - l : Nat) := by omega
    have hfits := top_bits_lt (l := l) (by omega) hx
    -- the sentinel is shifted out
    rw [hcount, shl32_eq _ (by omega), Nat.add_mul, ← two_pow_split (by omega), Nat.add_mod_left,
      Nat.mod_eq_of_lt hfits]

/-- `decode` finds the prefix of a word that `encode` made. -/
theorem decode_word {w : Nat} (h : 1 ≤ w) (h' : w < 2 ^ 25) :
    lengthOf (decode w) ≤ 24 ∧ prefixWord (decode w) = w := by
  have hne : w ≠ 0 := by omega
  have hl : Nat.log2 w ≤ 24 := by
    have := (Nat.log2_lt hne).mpr h'
    omega
  have hlow : 2 ^ Nat.log2 w ≤ w := Nat.log2_self_le hne
  have hhigh : w < 2 ^ (Nat.log2 w + 1) := Nat.lt_log2_self
  generalize Nat.log2 w = l at hl hlow hhigh
  rw [Nat.pow_succ] at hhigh
  obtain ⟨x, rfl⟩ : ∃ x, w = 2 ^ l + x := ⟨w - 2 ^ l, by omega⟩
  have hx : x < 2 ^ l := by omega
  rw [decode_eq hl hx]
  split_ifs with hzero
  · -- the one address bit does not count
    subst hzero
    have hx0 : x = 0 := by omega
    subst hx0
    decide
  · have hpos := Nat.two_pow_pos (32 - l)
    obtain ⟨hlen, haddr⟩ := prefix_halves (l := l) (top_bits_lt (by omega) hx)
    rw [prefixWord, hlen, haddr, Nat.shiftRight_eq_div_pow, Nat.mul_div_cancel _ hpos]
    exact ⟨hl, rfl⟩

/-- A prefix that has been through the tables: the address bits beyond its length are gone. -/
theorem decode_prefixWord {l a : Nat} (hl : l ≤ 24) (ha : a < 2 ^ 32) :
    decode (prefixWord (l <<< 32 ||| a)) =
      l <<< 32 ||| if l = 0 then 1 else a / 2 ^ (32 - l) * 2 ^ (32 - l) := by
  obtain ⟨hlen, haddr⟩ := prefix_halves (l := l) ha
  have htop := address_top_lt (l <<< 32 ||| a) (hlen.trans_le hl)
  rw [hlen, haddr, Nat.shiftRight_eq_div_pow] at htop
  rw [prefixWord, hlen, haddr, Nat.shiftRight_eq_div_pow, decode_eq hl htop]

/-- The loop of `nlri_iter` over bytes that are known. -/
theorem nlriAcc_slice {m : Mem} {p : Nat} (acc : Nat) (bs : List UInt8)
    (h : slice m p bs.length = bs) :
    nlriAcc m bs.length p acc = bs.foldl (fun acc b => ((acc <<< 8) + b.toNat) % 2 ^ 32) acc := by
  induction bs generalizing p acc with
  | nil => rfl
  | cons b bs ih =>
    rw [List.length_cons, slice_succ] at h
    obtain ⟨h0, htail⟩ := List.cons.inj h
    rw [List.length_cons, nlriAcc, List.foldl_cons, ih _ htail, h0]

theorem chunkSize_le_four {l : Nat} (h : l ≤ 32) : chunkSize l ≤ 4 := by
  rw [chunkSize]
  omega

/-- Up to four bytes, moved to the top of a 32-bit word. -/
theorem top_bytes_lt {v c : Nat} (hc : c ≤ 4) (hv : v < 256 ^ c) :
    v * 256 ^ (4 - c) < 2 ^ 32 := by
  have hbytes (n : Nat) : 256 ^ n = 2 ^ (8 * n) := Nat.pow_mul 2 8 n |>.symm
  have hrest : 8 * (4 - c) = 32 - 8 * c := by omega
  rw [hbytes] at hv ⊢
  rw [hrest]
  exact top_bits_lt (by omega) hv

theorem nlriAcc_beValue (m : Mem) (p : Nat) {c : Nat} (hc : c ≤ 4) :
    nlriAcc m c p 0 = beValue (slice m p c) := by
  have hlt := beValue_lt (slice m p c)
  have hpow : 256 ^ c ≤ 256 ^ 4 := Nat.pow_le_pow_right (by decide) hc
  have hacc := nlriAcc_slice (m := m) (p := p) 0 (slice m p c) (by rw [length_slice])
  have hfold := foldl_beValue 32 (slice m p c) 0
  rw [length_slice] at hlt hacc
  rw [Nat.zero_mul, Nat.zero_add] at hfold
  rw [hacc]
  exact hfold.trans (Nat.mod_eq_of_lt (by omega))

/-- The bytes of an address in network byte order, from the low end of the swapped word. -/
theorem nlriBytes_four (v : UInt32) : nlriBytes (bswap32 v) 4 = bytes32 v := by
  simp only [nlriBytes, bytes32, List.cons.injEq, and_true]
  refine ⟨?_, ?_, ?_, ?_⟩
  all_goals
    apply UInt8.toBitVec_inj.mp
    ext i hi
    interval_cases i <;> simp [bswap32]

theorem nlriBytes_take (address : UInt32) {c : Nat} (hc : c ≤ 4) :
    nlriBytes address c = (nlriBytes address 4).take c := by
  interval_cases c <;> rfl

/-- The top `c` bytes of an address, first the highest. -/
theorem nlriBytes_eq (v : UInt32) {c : Nat} (hc : c ≤ 4) :
    nlriBytes (bswap32 v) c = (bytes32 v).take c := by
  rw [nlriBytes_take _ hc, nlriBytes_four]

theorem beValue_bytes32 (v : UInt32) : beValue (bytes32 v) = v.toNat := by
  have hv := v.toNat_lt
  simp only [bytes32, beValue_cons, beValue_nil, List.length_cons, List.length_nil,
    UInt32.toNat_toUInt8, UInt32.toNat_shiftRight]
  change v.toNat >>> 24 % 256 * 256 ^ 3 + (v.toNat >>> 16 % 256 * 256 ^ 2 +
    (v.toNat >>> 8 % 256 * 256 ^ 1 + (v.toNat % 256 * 256 ^ 0 + 0))) = v.toNat
  simp only [Nat.shiftRight_eq_div_pow]
  omega

/-- The bytes of an address are read as the address without its low bytes. -/
theorem beValue_nlriBytes {a c : Nat} (ha : a < 2 ^ 32) (hc : c ≤ 4) :
    beValue (nlriBytes (bswap32 (UInt32.ofNat a)) c) = a / 256 ^ (4 - c) := by
  have hv : (UInt32.ofNat a).toNat = a := by
    rw [UInt32.toNat_ofNat']
    exact Nat.mod_eq_of_lt ha
  rw [nlriBytes_eq _ hc, beValue_take, beValue_bytes32, hv]
  rfl

/-- Up to four bytes go to the top of the address. -/
theorem nlriIter_eq (m : Mem) (p : Nat) (h : (m p).toNat ≤ 32) :
    nlriIter m p =
      ((m p).toNat <<< 32 ||| beValue (slice m (p + 1) (chunkSize (m p).toNat)) *
        256 ^ (4 - chunkSize (m p).toNat), p + 1 + chunkSize (m p).toNat) := by
  have hc := chunkSize_le_four h
  rw [nlriIter, nlriAcc_beValue _ _ hc, Nat.or_comm]
  have hlt := beValue_lt (slice m (p + 1) (chunkSize (m p).toNat))
  rw [length_slice] at hlt
  generalize chunkSize (m p).toNat = c at hc hlt
  congr 2
  by_cases hzero : c = 0
  · subst hzero
    simp [shl32]
  · have hcount : 8 * (4 - (c : Int)) = (8 * (4 - c) : Nat) := by omega
    rw [hcount, shl32_eq _ (by omega), Nat.pow_mul]
    exact Nat.mod_eq_of_lt (top_bytes_lt hc hlt)

end FastParse
