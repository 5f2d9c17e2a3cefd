import FastParse.Update.Split
import Mathlib.Order.Bounds.Basic

namespace FastParse

open Framework

section
variable (m : Mem) (base length n : Nat)

/-- The offsets at which a marker begins that lies below share `p` of the buffer; the byte at
the share itself belongs to it, and offset zero never counts. -/
def cuts (p : Nat) : Set Nat := {s | 0 < s ∧ s + 15 ≤ p * length / n ∧ MarkedAt m base s}

/-- Boundary `p`, as the scan finds it. -/
def boundary (p : Nat) : Nat := if p = 0 then 0 else (scanBack m base (p * length / n) 0).1

/-- Chunk `p` lies between two boundaries. -/
def chunk (p : Nat) : Buf :=
  ⟨base + boundary m base length n p,
    (boundary m base length n (p + 1) : Int) - boundary m base length n p⟩

end

section
variable {m : Mem} {base length n : Nat}

theorem boundary_succ {p e : Nat} (h : scanBack m base ((p + 1) * length / n) 0 = (e, 16)) :
    boundary m base length n (p + 1) = e := by
  rw [boundary, if_neg (Nat.succ_ne_zero p), h]

theorem isGreatest_cuts {p e : Nat} (h : scanBack m base (p * length / n) 0 = (e, 16)) :
    IsGreatest (cuts m base length n p) e := by
  obtain ⟨hpos, hmark, hle, hlast⟩ := scanBack_found (by decide) (by simp) h
  constructor
  · exact ⟨hpos, hle, hmark⟩
  · intro s hs
    exact hlast s hs.1 hs.2.2 hs.2.1

/-- Shares grow, so a cut below one of them is a cut below the next. -/
theorem cuts_mono (p : Nat) : cuts m base length n p ⊆ cuts m base length n (p + 1) := by
  intro s hs
  have hshare : p * length / n ≤ (p + 1) * length / n :=
    Nat.div_le_div_right (Nat.mul_le_mul_right length (Nat.le_succ p))
  exact ⟨hs.1, hs.2.1.trans hshare, hs.2.2⟩

theorem splitFrom_chunks {todo p : Nat} {bufs : List Buf}
    (h : splitFrom m base length n todo p (boundary m base length n p) = .ok bufs) :
    bufs = (List.range todo).map (fun k => chunk m base length n (p + k)) ∧
      ∀ k < todo, IsGreatest (cuts m base length n (p + k + 1))
        (boundary m base length n (p + k + 1)) := by
  induction todo generalizing p bufs with
  | zero =>
    cases h
    exact ⟨rfl, fun k hk => absurd hk (Nat.not_lt_zero k)⟩
  | succ todo ih =>
    obtain ⟨e, rest, hscan, hrest, rfl⟩ := splitFrom_round h
    have he := boundary_succ hscan
    rw [← he] at hrest
    obtain ⟨hchunks, hcuts⟩ := ih hrest
    constructor
    · rw [List.range_succ_eq_map, List.map_cons, List.map_map, hchunks, chunk, Nat.add_zero, he]
      congr 1
      apply List.map_congr_left
      intro k _
      simp only [Function.comp]
      congr 1
      omega
    · intro k hk
      cases k with
      | zero =>
        rw [Nat.add_zero, he]
        exact isGreatest_cuts hscan
      | succ k =>
        have hnext := hcuts k (by omega)
        rwa [show p + (k + 1) + 1 = p + 1 + k + 1 by omega]

end

/-- Whatever the buffer holds: if no assertion fails, the chunks lie one behind the other, and
each ends in front of the last marker that lies below its share. -/
theorem chunks_in_order (m : Mem) (n base length : Nat) (bufs : List Buf)
    (h : splitBuf m n base length = .ok bufs) :
    ∃ b : Nat → Nat, b 0 = 0 ∧
      bufs = (List.range n).map (fun p => ⟨base + b p, (b (p + 1) : Int) - b p⟩) ∧
      ∀ p < n, b p ≤ b (p + 1) ∧ IsGreatest (cuts m base length n (p + 1)) (b (p + 1)) := by
  obtain ⟨hchunks, hcuts⟩ := @splitFrom_chunks m base length n n 0 bufs h
  simp only [Nat.zero_add] at hchunks hcuts
  refine ⟨boundary m base length n, rfl, hchunks, ?_⟩
  intro p hp
  refine ⟨?_, hcuts p hp⟩
  cases p with
  | zero => exact Nat.zero_le _
  | succ p =>
    -- the last cut of one share is among the cuts of the next one
    exact (hcuts (p + 1) hp).2 (cuts_mono _ (hcuts p (by omega)).1)

theorem chunks_in_order_two :
    ∃ bufs, splitBuf (bytesMem (keepalives 4)) 2 0 76 = .ok bufs ∧
      ∃ b : Nat → Nat, b 0 = 0 ∧
        bufs = (List.range 2).map (fun p => ⟨0 + b p, (b (p + 1) : Int) - b p⟩) ∧
        ∀ p < 2, b p ≤ b (p + 1) ∧
          IsGreatest (cuts (bytesMem (keepalives 4)) 0 76 2 (p + 1)) (b (p + 1)) := by
  have hr : (splitBuf (bytesMem (keepalives 4)) 2 0 76).map (fun _ => ()) = .ok () := by decide
  obtain ⟨bufs, h, _⟩ := exists_of_map_eq_ok hr
  exact ⟨bufs, h, chunks_in_order (bytesMem (keepalives 4)) 2 0 76 bufs h⟩

end FastParse
