import FastParse.Base

namespace FastParse

/-- Bytes of the variable address part. -/
def chunkSize (l : Nat) : Nat := (l + 7) / 8

/-- The accumulating loop of `nlri_iter`: `acc = (acc << 8) + *nlri++`, `count` times. -/
def nlriAcc (m : Mem) : Nat → Nat → Nat → Nat
  | 0, _, acc => acc
  | count + 1, p, acc => nlriAcc m count (p + 1) (((acc <<< 8) + (m p).toNat) % 2 ^ 32)

/-- The length in the upper and the address in the lower half of a 64-bit word, and
the cursor behind the entry. -/
def nlriIter (m : Mem) (p : Nat) : Nat × Nat :=
  let length := (m p).toNat
  let acc := nlriAcc m (chunkSize length) (p + 1) 0
  let acc := shl32 acc (8 * (4 - (chunkSize length : Int)))
  (acc ||| (length <<< 32), p + 1 + chunkSize length)

theorem nlriIter_cursor (m : Mem) (p : Nat) : p < (nlriIter m p).2 := by
  simp only [nlriIter]
  omega

/-- The entries met by `while (p < limit) prefix = nlri_iter(&p)`, each with the test
whether the cursor then stands exactly on the limit. -/
def nlriEntries (m : Mem) (limit : Nat) : Nat → Nat → List (Nat × Bool)
  | 0, _ => []
  | fuel + 1, p =>
    if p < limit then
      let e := nlriIter m p
      (e.1, e.2 == limit) :: nlriEntries m limit fuel e.2
    else []

/-- Every entry takes at least one byte, so the distance to the limit is fuel enough. -/
def nlriWalk (m : Mem) (p limit : Nat) : List (Nat × Bool) := nlriEntries m limit (limit - p) p

theorem nlriEntries_fuel (m : Mem) (limit f g p : Nat) (hf : limit - p ≤ f)
    (hg : limit - p ≤ g) : nlriEntries m limit f p = nlriEntries m limit g p := by
  induction f generalizing g p with
  | zero =>
    have hp : ¬ p < limit := by omega
    cases g <;> simp [nlriEntries, hp]
  | succ f ih =>
    by_cases hp : p < limit
    · have hq := nlriIter_cursor m p
      obtain ⟨g, rfl⟩ : ∃ k, g = k + 1 := ⟨g - 1, by omega⟩
      simp only [nlriEntries, if_pos hp]
      rw [ih g _ (by omega) (by omega)]
    · cases g <;> simp [nlriEntries, hp]

theorem nlriWalk_eq (m : Mem) (p limit : Nat) :
    nlriWalk m p limit =
      if p < limit then
        ((nlriIter m p).1, (nlriIter m p).2 == limit) :: nlriWalk m (nlriIter m p).2 limit
      else [] := by
  have hq := nlriIter_cursor m p
  rw [nlriWalk, nlriEntries_fuel m limit _ (limit - p + 1) p (by omega) (by omega), nlriEntries]
  split_ifs with hp
  · simp only [nlriWalk]
    rw [nlriEntries_fuel m limit (limit - p) (limit - (nlriIter m p).2) _ (by omega) (by omega)]
  · rfl

theorem nlriWalk_length (m : Mem) (p limit : Nat) : (nlriWalk m p limit).length ≤ limit - p := by
  induction h : limit - p using Nat.strongRecOn generalizing p with
  | ind n ih =>
    rw [nlriWalk_eq]
    split_ifs with hp
    · have hq := nlriIter_cursor m p
      have hrest := ih (limit - (nlriIter m p).2) (by omega) _ rfl
      rw [List.length_cons]
      omega
    · simp

end FastParse
