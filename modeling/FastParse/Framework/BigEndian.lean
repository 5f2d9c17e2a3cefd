import Mathlib.Data.Nat.Digits.Defs

namespace FastParse.Framework

def beValue (bs : List UInt8) : Nat := Nat.ofDigits 256 (bs.map UInt8.toNat).reverse

@[simp] theorem beValue_nil : beValue [] = 0 := rfl

theorem beValue_cons (b : UInt8) (bs : List UInt8) :
    beValue (b :: bs) = b.toNat * 256 ^ bs.length + beValue bs := by
  rw [beValue, List.map_cons, Nat.ofDigits_reverse_cons, List.length_map, Nat.mul_comm,
    Nat.add_comm]
  rfl

theorem beValue_append (bs cs : List UInt8) :
    beValue (bs ++ cs) = beValue bs * 256 ^ cs.length + beValue cs := by
  rw [beValue, List.map_append, List.reverse_append, Nat.ofDigits_append, List.length_reverse,
    List.length_map, Nat.mul_comm, Nat.add_comm]
  rfl

theorem beValue_lt (bs : List UInt8) : beValue bs < 256 ^ bs.length := by
  have hdigits : ∀ d ∈ (bs.map UInt8.toNat).reverse, d < 256 := by
    intro d hd
    obtain ⟨b, -, rfl⟩ := List.mem_map.mp (List.mem_reverse.mp hd)
    exact b.toNat_lt
  simpa [beValue] using Nat.ofDigits_lt_base_pow_length (by decide) hdigits

/-- As many bytes with the same value are the same bytes. -/
theorem beValue_inj {bs cs : List UInt8} (hlen : bs.length = cs.length)
    (h : beValue bs = beValue cs) : bs = cs := by
  induction bs generalizing cs with
  | nil => exact (List.length_eq_zero_iff.mp hlen.symm).symm
  | cons b bs ih =>
    cases cs with
    | nil => simp at hlen
    | cons c cs =>
      have hlen' : bs.length = cs.length := by simpa using hlen
      have hb := beValue_lt bs
      have hc := beValue_lt cs
      rw [beValue_cons, beValue_cons, hlen'] at h
      rw [hlen'] at hb
      have hpos : 0 < 256 ^ cs.length := Nat.lt_of_le_of_lt (Nat.zero_le _) hc
      have hhigh : b.toNat = c.toNat := by
        have e := congrArg (· / 256 ^ cs.length) h
        simpa [Nat.mul_comm _ (256 ^ cs.length), Nat.mul_add_div hpos, Nat.div_eq_of_lt hb,
          Nat.div_eq_of_lt hc] using e
      rw [hhigh] at h
      rw [UInt8.toNat_inj.mp hhigh, ih hlen' (Nat.add_left_cancel h)]

/-- The first bytes are the value without its low digits. -/
theorem beValue_take (bs : List UInt8) (c : Nat) :
    beValue (bs.take c) = beValue bs / 256 ^ (bs.length - c) := by
  have hlow := beValue_lt (bs.drop c)
  have hsplit := beValue_append (bs.take c) (bs.drop c)
  rw [List.take_append_drop, List.length_drop] at hsplit
  rw [List.length_drop] at hlow
  rw [hsplit, Nat.add_comm, Nat.add_mul_div_right _ _ (Nat.lt_of_le_of_lt (Nat.zero_le _) hlow),
    Nat.div_eq_of_lt hlow, Nat.zero_add]

theorem foldl_beValue (w : Nat) (bs : List UInt8) (acc : Nat) :
    bs.foldl (fun acc b => ((acc <<< 8) + b.toNat) % 2 ^ w) (acc % 2 ^ w) =
      (acc * 256 ^ bs.length + beValue bs) % 2 ^ w := by
  induction bs generalizing acc with
  | nil => simp
  | cons b bs ih =>
    have hround : (((acc % 2 ^ w) <<< 8) + b.toNat) % 2 ^ w = (acc * 256 + b.toNat) % 2 ^ w := by
      rw [Nat.shiftLeft_eq, Nat.add_mod, Nat.mod_mul_mod, ← Nat.add_mod]
    rw [List.foldl_cons, hround, ih, beValue_cons, List.length_cons, Nat.pow_succ]
    congr 1
    ring

/-- The first `l` bits of some bytes; the others are cleared. -/
def keepBits : Nat → List UInt8 → List UInt8
  | _, [] => []
  | l, b :: bs => UInt8.ofNat (b.toNat / 2 ^ (8 - l) * 2 ^ (8 - l)) :: keepBits (l - 8) bs

@[simp] theorem length_keepBits (l : Nat) (bs : List UInt8) :
    (keepBits l bs).length = bs.length := by
  induction bs generalizing l with
  | nil => rfl
  | cons b bs ih => simp [keepBits, ih]

theorem beValue_keepBits (l : Nat) (bs : List UInt8) :
    beValue (keepBits l bs) =
      beValue bs / 2 ^ (8 * bs.length - l) * 2 ^ (8 * bs.length - l) := by
  induction bs generalizing l with
  | nil => simp [keepBits]
  | cons b bs ih =>
    have hb : b.toNat / 2 ^ (8 - l) * 2 ^ (8 - l) < 256 :=
      (Nat.div_mul_le_self _ _).trans_lt b.toNat_lt
    have hlow := beValue_lt bs
    have hpow : 256 ^ bs.length = 2 ^ (8 * bs.length) := by rw [Nat.pow_mul]
    rw [keepBits, beValue_cons, beValue_cons, ih, length_keepBits, UInt8.toNat_ofNat',
      Nat.mod_eq_of_lt hb, List.length_cons]
    rw [hpow] at hlow ⊢
    by_cases hl : 8 ≤ l
    · -- the first byte stays, and it lies above the bits that are cleared
      have h8 : 8 - l = 0 := by omega
      have hj : 8 * (bs.length + 1) - l = 8 * bs.length - (l - 8) := by omega
      obtain ⟨i, hi⟩ := Nat.exists_eq_add_of_le (Nat.sub_le (8 * bs.length) (l - 8))
      rw [h8, hj, Nat.pow_zero, Nat.div_one, Nat.mul_one]
      generalize 8 * bs.length - (l - 8) = j at hi
      have hmul : b.toNat * 2 ^ (8 * bs.length) = b.toNat * 2 ^ i * 2 ^ j := by
        rw [hi, Nat.pow_add]
        ring
      rw [hmul, Nat.add_comm _ (beValue bs), Nat.add_mul_div_right _ _ (Nat.two_pow_pos j),
        Nat.add_mul, Nat.add_comm]
    · -- the cut is in the first byte, and all others are cleared
      have hj : 8 * (bs.length + 1) - l = 8 * bs.length + (8 - l) := by omega
      have htail : l - 8 = 0 := by omega
      rw [hj, htail, Nat.sub_zero, Nat.div_eq_of_lt hlow, Nat.zero_mul, Nat.add_zero, Nat.pow_add,
        ← Nat.div_div_eq_div_mul, Nat.add_comm _ (beValue bs),
        Nat.add_mul_div_right _ _ (Nat.two_pow_pos _), Nat.div_eq_of_lt hlow, Nat.zero_add]
      ring

end FastParse.Framework
