import FastParse.Framework.Bytes
import FastParse.Update.Buffer
import FastParse.Update.Messages

namespace FastParse

open Framework

/-- A BGP message: the marker, and a length field that says how long it is. -/
def WellFormed (msg : List UInt8) : Prop :=
  19 ≤ msg.length ∧ msg.take 16 = List.replicate 16 0xff ∧
    (getw16 (bytesMem msg) 16).toNat = msg.length

instance (msg : List UInt8) : Decidable (WellFormed msg) :=
  inferInstanceAs (Decidable (_ ∧ _))

def Buf.bytes (m : Mem) (buf : Buf) : List UInt8 := slice m buf.base buf.length.toNat

/-- The addresses `scanBack` reads. -/
def scanReads (m : Mem) (base : Nat) : Nat → Nat → List Nat
  | 0, _ => []
  | offset + 1, markCount =>
    let markCount := if 0xff ≠ m (base + (offset + 1)) then 0 else markCount + 1
    (base + (offset + 1)) :: if 16 = markCount then [] else scanReads m base offset markCount

/-- The addresses `split_buf` reads before it is done or an assertion fails. -/
def splitReads (m : Mem) (base length n : Nat) : Nat → Nat → List Nat
  | 0, _ => []
  | todo + 1, p =>
    scanReads m base ((p + 1) * length / n) 0 ++
      if 16 = (scanBack m base ((p + 1) * length / n) 0).2 then
        splitReads m base length n todo (p + 1)
      else []

/-- Every chunk is made of whole messages, and the chunks are the buffer. -/
def SplitsWhole (m : Mem) (base length : Nat) (bufs : List Buf) : Prop :=
  (∀ buf ∈ bufs, ∃ msgs : List (List UInt8), (∀ msg ∈ msgs, WellFormed msg) ∧
    buf.bytes m = msgs.flatten) ∧
  (bufs.map (Buf.bytes m)).flatten = slice m base length

/-- `split_buf` completes, stays inside the buffer and splits it whole. -/
def SplitLosesNothing (m : Mem) (n base length : Nat) : Prop :=
  ∃ bufs, splitBuf m n base length = .ok bufs ∧
    (∀ a ∈ splitReads m base length n n 0, a < base + length) ∧ SplitsWhole m base length bufs

/-- Sixteen bytes `0xff` from `base[e]` on. -/
def MarkedAt (m : Mem) (base e : Nat) : Prop := ∀ i < 16, m (base + e + i) = 0xff

theorem scanBack_mark {m : Mem} {base offset : Nat} (h : m (base + (offset + 1)) = 0xff)
    (markCount : Nat) :
    scanBack m base (offset + 1) markCount =
      if 16 = markCount + 1 then (offset + 1, markCount + 1)
      else scanBack m base offset (markCount + 1) := by
  simp [scanBack, h]

theorem scanBack_other {m : Mem} {base offset : Nat} (h : m (base + (offset + 1)) ≠ 0xff)
    (markCount : Nat) : scanBack m base (offset + 1) markCount = scanBack m base offset 0 := by
  simp [scanBack, h.symm]

/-- The scan stops at the last offset from which sixteen bytes `0xff` fit below its start;
`markCount` of them have been seen already. -/
theorem scanBack_found {m : Mem} {base offset markCount e : Nat} (hc : markCount < 16)
    (hseen : ∀ i < markCount, m (base + offset + 1 + i) = 0xff)
    (h : scanBack m base offset markCount = (e, 16)) :
    1 ≤ e ∧ MarkedAt m base e ∧ e + 15 ≤ offset + markCount ∧
      ∀ e', 1 ≤ e' → MarkedAt m base e' → e' + 15 ≤ offset + markCount → e' ≤ e := by
  induction offset generalizing markCount with
  | zero =>
    rw [scanBack] at h
    have e16 := (Prod.mk.inj h).2
    omega
  | succ offset ih =>
    by_cases hff : m (base + (offset + 1)) = 0xff
    · rw [scanBack_mark hff] at h
      have hseen' : ∀ i < markCount + 1, m (base + offset + 1 + i) = 0xff := by
        intro i hi
        cases i with
        | zero => exact hff
        | succ i =>
          have e := hseen i (by omega)
          rwa [show base + offset + 1 + (i + 1) = base + (offset + 1) + 1 + i by omega]
      split_ifs at h with hdone
      · obtain ⟨rfl, _⟩ := Prod.mk.inj h
        refine ⟨by omega, ?_, by omega, ?_⟩
        · intro i hi
          exact hseen' i (by omega)
        · intro e' _ _ hle
          omega
      · obtain ⟨h1, hm, hle, hmax⟩ := ih (by omega) hseen' h
        refine ⟨h1, hm, by omega, ?_⟩
        intro e' h1' hm' hle'
        exact hmax e' h1' hm' (by omega)
    · rw [scanBack_other hff] at h
      obtain ⟨h1, hm, hle, hmax⟩ := ih (by decide) (by simp) h
      refine ⟨h1, hm, by omega, ?_⟩
      intro e' h1' hm' hle'
      apply hmax e' h1' hm'
      -- a marker that reached this byte would contain it
      by_contra hgt
      have e := hm' (offset + 1 - e') (by omega)
      rw [show base + e' + (offset + 1 - e') = base + (offset + 1) by omega] at e
      exact hff e

theorem scanBack_beyond {m : Mem} {base offset start e : Nat}
    (hstart : start = 0 ∨ 1 ≤ start ∧ MarkedAt m base start ∧ start + 15 ≤ offset)
    (h : scanBack m base offset 0 = (e, 16)) :
    start ≤ e ∧ 1 ≤ e ∧ MarkedAt m base e ∧ e + 15 ≤ offset := by
  obtain ⟨h1, hm, hle, hmax⟩ := scanBack_found (by decide) (by simp) h
  refine ⟨?_, h1, hm, hle⟩
  rcases hstart with rfl | ⟨h1', hm', hs⟩
  · exact Nat.zero_le e
  · exact hmax start h1' hm' hs

theorem splitFrom_round {m : Mem} {base length n todo p start : Nat} {bufs : List Buf}
    (h : splitFrom m base length n (todo + 1) p start = .ok bufs) :
    ∃ e rest, scanBack m base ((p + 1) * length / n) 0 = (e, 16) ∧
      splitFrom m base length n todo (p + 1) e = .ok rest ∧
      bufs = ⟨base + start, (e : Int) - start⟩ :: rest := by
  rw [splitFrom] at h
  generalize scanBack m base ((p + 1) * length / n) 0 = found at h
  obtain ⟨e, markCount⟩ := found
  simp only at h
  rw [assert_bind_ok, bind_eq_ok] at h
  obtain ⟨rfl, rest, hrest, h⟩ := h
  cases h
  exact ⟨e, rest, rfl, hrest, rfl⟩

theorem bytes_chunk (m : Mem) (base : Nat) {start e : Nat} (h : start ≤ e) :
    Buf.bytes m ⟨base + start, (e : Int) - start⟩ = slice m (base + start) (e - start) := by
  have hlen : ((e : Int) - start).toNat = e - start := by omega
  rw [Buf.bytes, hlen]

theorem slice_join (m : Mem) (base : Nat) {start e e' : Nat} (h : start ≤ e) (h' : e ≤ e') :
    slice m (base + start) (e - start) ++ slice m (base + e) (e' - e) =
      slice m (base + start) (e' - start) := by
  have hlen : e' - start = (e - start) + (e' - e) := by omega
  rw [hlen, slice_add]
  congr 2
  omega

/-- The chunks from number `p` on lie one behind the other, and what they hold ends at a
marker that begins in the buffer and does not go beyond the byte behind it. -/
theorem splitFrom_short {m : Mem} {base length n todo p start : Nat} {bufs : List Buf}
    (hn : p + (todo + 1) = n)
    (hstart : start = 0 ∨ 1 ≤ start ∧ MarkedAt m base start ∧ start + 15 ≤ (p + 1) * length / n)
    (h : splitFrom m base length n (todo + 1) p start = .ok bufs) :
    ∃ e, start ≤ e ∧ e + 15 ≤ length ∧
      (bufs.map (Buf.bytes m)).flatten = slice m (base + start) (e - start) := by
  induction todo generalizing p start bufs with
  | zero =>
    obtain ⟨e, rest, hscan, hrest, rfl⟩ := splitFrom_round h
    obtain ⟨hse, _, _, hle⟩ := scanBack_beyond hstart hscan
    have hend : (p + 1) * length / n = length := by
      rw [← hn]
      exact Nat.mul_div_cancel_left length (Nat.succ_pos p)
    cases hrest
    refine ⟨e, hse, by omega, ?_⟩
    rw [List.map_singleton, bytes_chunk m base hse]
    simp
  | succ todo ih =>
    obtain ⟨e, rest, hscan, hrest, rfl⟩ := splitFrom_round h
    obtain ⟨hse, h1, hm, hle⟩ := scanBack_beyond hstart hscan
    have hmono : (p + 1) * length / n ≤ (p + 1 + 1) * length / n :=
      Nat.div_le_div_right (Nat.mul_le_mul_right length (Nat.le_succ _))
    obtain ⟨e', hee, hlen, hflat⟩ := ih (by omega) (.inr ⟨h1, hm, by omega⟩) hrest
    refine ⟨e', hse.trans hee, hlen, ?_⟩
    rw [List.map_cons, List.flatten_cons, hflat, bytes_chunk m base hse, slice_join m base hse hee]

/-- The scan for the last boundary starts at the byte behind the buffer. -/
theorem splitReads_end {m : Mem} {base length n todo p start : Nat} {bufs : List Buf}
    (hn : p + (todo + 1) = n) (hlen : 0 < length)
    (h : splitFrom m base length n (todo + 1) p start = .ok bufs) :
    base + length ∈ splitReads m base length n (todo + 1) p := by
  induction todo generalizing p start bufs with
  | zero =>
    have hend : (p + 1) * length / n = length := by
      rw [← hn]
      exact Nat.mul_div_cancel_left length (Nat.succ_pos p)
    rw [splitReads, hend, List.mem_append]
    left
    obtain ⟨k, rfl⟩ : ∃ k, length = k + 1 := ⟨length - 1, by omega⟩
    rw [scanReads]
    exact List.mem_cons_self
  | succ todo ih =>
    obtain ⟨e, rest, hscan, hrest, _⟩ := splitFrom_round h
    rw [splitReads, List.mem_append, hscan, if_pos rfl]
    exact .inr (ih (by omega) hrest)

/-- Whatever the buffer holds and into however many chunks it is split: `split_buf` reads the
byte behind it or fails, and the chunks it makes are never the whole buffer. -/
theorem split_never_whole (m : Mem) (n base length : Nat) (hn : 0 < n) :
    ¬ SplitLosesNothing m n base length ∧
      ∀ bufs, splitBuf m n base length = .ok bufs →
        base + length ∈ splitReads m base length n n 0 ∧
          (bufs.map (Buf.bytes m)).flatten ≠ slice m base length := by
  obtain ⟨todo, rfl⟩ : ∃ todo, n = todo + 1 := ⟨n - 1, by omega⟩
  have hfails : ∀ bufs, splitBuf m (todo + 1) base length = .ok bufs →
      base + length ∈ splitReads m base length (todo + 1) (todo + 1) 0 ∧
        (bufs.map (Buf.bytes m)).flatten ≠ slice m base length := by
    intro bufs h
    obtain ⟨e, _, hlen, hflat⟩ := splitFrom_short (by omega) (.inl rfl) h
    refine ⟨splitReads_end (by omega) (by omega) h, ?_⟩
    intro hall
    have hl := congrArg List.length (hflat.symm.trans hall)
    rw [length_slice, length_slice] at hl
    omega
  refine ⟨?_, hfails⟩
  intro hsplit
  obtain ⟨bufs, h, hreads, _⟩ := hsplit
  exact Nat.lt_irrefl _ (hreads _ (hfails bufs h).1)

theorem split_never_whole_one :
    ¬ SplitLosesNothing (bytesMem (List.replicate 40 0xff)) 1 0 40 :=
  (split_never_whole (bytesMem (List.replicate 40 0xff)) 1 0 40 (by decide)).1

/-- The shortest message: no body. -/
def keepalive : List UInt8 := List.replicate 16 0xff ++ [0, 19, 4]

def keepalives (count : Nat) : List UInt8 := (List.replicate count keepalive).flatten

/-- Of four messages the first peer gets one and the second one two. -/
theorem last_message_lost :
    WellFormed keepalive ∧
    (splitBuf (bytesMem (keepalives 4)) 2 0 76).map
        (fun bufs => bufs.map (Buf.bytes (bytesMem (keepalives 4)))) =
      .ok [keepalives 1, keepalives 2] ∧
    ¬ SplitLosesNothing (bytesMem (keepalives 4)) 2 0 76 := by
  have hr : (splitBuf (bytesMem (keepalives 4)) 2 0 76).map
      (fun bufs => bufs.map (Buf.bytes (bytesMem (keepalives 4)))) =
      .ok [keepalives 1, keepalives 2] := by decide
  refine ⟨by decide, hr, ?_⟩
  intro hsplit
  obtain ⟨bufs, h, _, _, hall⟩ := hsplit
  rw [h] at hr
  have hbufs : bufs.map (Buf.bytes (bytesMem (keepalives 4))) = [keepalives 1, keepalives 2] :=
    Except.ok.inj hr
  rw [hbufs] at hall
  exact absurd hall (by decide)

end FastParse
