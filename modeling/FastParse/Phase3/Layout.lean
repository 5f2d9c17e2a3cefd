import FastParse.Framework.Bytes
import FastParse.Phase3.Emit

namespace FastParse

open Framework

theorem or_low {a b : Nat} (h : b < 256) : a * 256 ||| b = a * 256 + b := by
  have e := Nat.shiftLeft_add_eq_or_of_lt (i := 8) (show b < 2 ^ 8 from h) a
  rw [Nat.shiftLeft_eq] at e
  exact e.symm

theorem getw16_toNat (m : Mem) (p : Nat) :
    (getw16 m p).toNat = (m p).toNat * 256 + (m (p + 1)).toNat := by
  have h0 := (m p).toNat_lt
  have h1 := (m (p + 1)).toNat_lt
  simp only [getw16, bswap16, UInt16.toNat_or, UInt16.toNat_shiftLeft, UInt16.toNat_shiftRight,
    UInt8.toNat_toUInt16]
  generalize (m p).toNat = lo at h0
  generalize (m (p + 1)).toNat = hi at h1
  change ((lo ||| hi <<< 8 % 65536) <<< 8 % 65536 ||| (lo ||| hi <<< 8 % 65536) >>> 8) = _
  have hword : lo ||| hi <<< 8 % 65536 = hi * 256 + lo := by
    rw [Nat.shiftLeft_eq, Nat.mod_eq_of_lt (by omega), Nat.or_comm, or_low h0]
  rw [hword, Nat.shiftLeft_eq, Nat.shiftRight_eq_div_pow]
  have hhigh : (hi * 256 + lo) * 2 ^ 8 % 65536 = lo * 256 := by omega
  have hlow : (hi * 256 + lo) / 2 ^ 8 = hi := by omega
  rw [hhigh, hlow, or_low h1]

theorem putBytes_eq (out : Mem) (q : Nat) (bs : List UInt8) :
    putBytes out q bs = (overlay out q bs, q + bs.length) := by
  induction bs generalizing out q with
  | nil => rfl
  | cons b bs ih =>
    rw [putBytes, ih, overlay_cons, List.length_cons]
    congr 1
    omega

theorem memcpy_eq (out : Mem) (q : Nat) (src : Mem) (p n : Nat) :
    memcpy out q src p n = overlay out q (slice src p n) := by
  funext i
  by_cases h : q ≤ i ∧ i < q + n
  · have hread := slice_overlay out q (slice src p n)
    rw [length_slice] at hread
    have e := slice_inj hread (i - q) (by omega)
    rw [memcpy, if_pos h, ← e]
    congr 1
    omega
  · rw [memcpy, if_neg h, overlay_outside]
    rw [length_slice]
    omega

def bytes16 (w : UInt16) : List UInt8 := [(w >>> 8).toUInt8, w.toUInt8]

@[simp] theorem length_bytes16 (w : UInt16) : (bytes16 w).length = 2 := rfl

theorem putw16_eq (out : Mem) (p : Nat) (w : UInt16) :
    putw16 out p w = overlay out p (bytes16 w) := by
  rw [putw16, putBytes_eq]
  rfl

theorem putw16_outside {out : Mem} {p i : Nat} {w : UInt16} (h : i < p ∨ p + 2 ≤ i) :
    putw16 out p w i = out i := by
  rw [putw16_eq]
  exact overlay_outside out (bytes16 w) h

theorem getw16_of_slice {m : Mem} {p : Nat} {w : UInt16} (h : slice m p 2 = bytes16 w) :
    getw16 m p = w := by
  have hw := w.toNat_lt
  have e : [m p, m (p + 1)] = [(w >>> 8).toUInt8, w.toUInt8] := h
  have h0 : m p = (w >>> 8).toUInt8 := (List.cons.inj e).1
  have h1 : m (p + 1) = w.toUInt8 := (List.cons.inj (List.cons.inj e).2).1
  apply UInt16.toNat_inj.mp
  rw [getw16_toNat, h0, h1, UInt16.toNat_toUInt8, UInt16.toNat_toUInt8, UInt16.toNat_shiftRight]
  change w.toNat >>> 8 % 256 * 256 + w.toNat % 256 = w.toNat
  rw [Nat.shiftRight_eq_div_pow]
  omega

theorem getw16_putw16 (out : Mem) (p : Nat) (w : UInt16) : getw16 (putw16 out p w) p = w := by
  apply getw16_of_slice
  rw [putw16_eq]
  exact slice_overlay out p (bytes16 w)

theorem getw16_congr {m m' : Mem} {p p' : Nat} (h0 : m p = m' p') (h1 : m (p + 1) = m' (p' + 1)) :
    getw16 m p = getw16 m' p' := by
  rw [getw16, getw16, h0, h1]

/-- The bytes `build_nlri` writes for a prefix. -/
def nlriForm (la : Nat) : List UInt8 :=
  let length := UInt8.ofNat (lengthOf la)
  length :: nlriBytes (bswap32 (UInt32.ofNat (addressOf la))) (chunkSize length.toNat)

def nlriSection (t : Bigtable) (indices : List Nat) : List UInt8 :=
  (indices.map fun i => nlriForm (decode (t.bigtable i))).flatten

theorem nlriSection_pos {t : Bigtable} {indices : List Nat} (h : indices ≠ []) :
    0 < (nlriSection t indices).length := by
  cases indices with
  | nil => exact absurd rfl h
  | cons i rest => exact Nat.succ_pos _

theorem length_nlriBytes (address : UInt32) (chunk : Nat) :
    (nlriBytes address chunk).length = chunk := by
  induction chunk generalizing address with
  | zero => rfl
  | succ chunk ih => rw [nlriBytes, List.length_cons, ih]

theorem buildNlri_eq (out : Mem) (p la : Nat) :
    buildNlri out p la = (overlay out p (nlriForm la), p + (nlriForm la).length) := by
  rw [buildNlri, putBytes_eq]
  rfl

theorem lookupBigtable_ok {t : Bigtable} {index : Nat}
    (h : index < t.bigtableIndex ∨ tooBig = index) :
    lookupBigtable t index = .ok (decode (t.bigtable index)) := by
  rw [lookupBigtable, assert, if_pos h]
  rfl

theorem buildNlris_ok {t : Bigtable} {out out' : Mem} {txp txp' : Nat} {indices : List Nat}
    (h : buildNlris t out txp indices = .ok (out', txp')) :
    out' = overlay out txp (nlriSection t indices) ∧
      txp' = txp + (nlriSection t indices).length := by
  induction indices generalizing out txp with
  | nil =>
    cases h
    exact ⟨rfl, rfl⟩
  | cons i indices ih =>
    rw [buildNlris, bind_eq_ok] at h
    obtain ⟨la, hla, h⟩ := h
    rw [lookupBigtable, assert_bind_ok] at hla
    obtain ⟨_, hla⟩ := hla
    cases hla
    simp only [buildNlri_eq] at h
    obtain ⟨e1, e2⟩ := ih h
    have hsec : nlriSection t (i :: indices) =
        nlriForm (decode (t.bigtable i)) ++ nlriSection t indices := rfl
    rw [hsec, overlay_append, List.length_append]
    exact ⟨e1, by omega⟩

theorem buildNlris_returns {t : Bigtable} {indices : List Nat}
    (h : ∀ a ∈ indices, a < t.bigtableIndex ∨ tooBig = a) (out : Mem) (txp : Nat) :
    ∃ r, buildNlris t out txp indices = .ok r := by
  induction indices generalizing out txp with
  | nil => exact ⟨_, rfl⟩
  | cons i indices ih =>
    rw [buildNlris, lookupBigtable_ok (h i List.mem_cons_self)]
    exact ih (fun a ha => h a (List.mem_cons_of_mem i ha)) _ _

theorem writeFile_buffer {disk : Nat → Bool} {pix : Nat} {pg : Peergroup} {length : UInt16}
    {tx tx' : Tx} (h : writeFile disk pix pg length tx = .ok tx') :
    tx'.buffer = tx.buffer ∧ tx'.overLengthDetected = tx.overLengthDetected := by
  rw [writeFile] at h
  split_ifs at h
  · rw [assert_bind_ok] at h
    obtain ⟨_, h⟩ := h
    cases h
    exact ⟨rfl, rfl⟩
  · cases h
    exact ⟨rfl, rfl⟩

end FastParse
