import FastParse.Framework.BigEndian
import FastParse.Framework.Loop
import FastParse.Framework.Records
import FastParse.Nlri

namespace FastParse

open Framework

/-- A prefix on the wire: its length in bits, and as many address bytes as that takes. -/
@[ext] structure NlriEntry where
  length : UInt8
  address : List UInt8
  fits : address.length = chunkSize length.toNat
  deriving DecidableEq

namespace NlriEntry

def encode (e : NlriEntry) : List UInt8 := e.length :: e.address

theorem length_encode (e : NlriEntry) : e.encode.length = 1 + chunkSize e.length.toNat := by
  rw [encode, List.length_cons, e.fits, Nat.add_comm]

theorem encode_pos (e : NlriEntry) : 0 < e.encode.length := Nat.succ_pos _

theorem encode_prefixFree : PrefixFree encode := by
  rintro ⟨length, address, fits⟩ ⟨length', address', fits'⟩ x y h
  simp only [encode, List.cons_append, List.cons.injEq] at h
  obtain ⟨rfl, h⟩ := h
  obtain ⟨rfl, rfl⟩ := List.append_inj h (fits.trans fits'.symm)
  exact ⟨rfl, rfl⟩

def word (e : NlriEntry) : Nat :=
  e.length.toNat <<< 32 ||| beValue e.address * 256 ^ (4 - chunkSize e.length.toNat)

end NlriEntry

def encodeSection (entries : List NlriEntry) : List UInt8 := entries.flatMap NlriEntry.encode

theorem encodeSection_cons (e : NlriEntry) (entries : List NlriEntry) :
    encodeSection (e :: entries) = e.encode ++ encodeSection entries := rfl

def entryAt (m : Mem) (p : Nat) : NlriEntry where
  length := m p
  address := slice m (p + 1) (chunkSize (m p).toNat)
  fits := length_slice _ _ _

theorem slice_entryAt (m : Mem) (p : Nat) :
    slice m p (entryAt m p).encode.length = (entryAt m p).encode := by
  rw [NlriEntry.length_encode, Nat.add_comm, slice_succ]
  rfl

theorem nlriIter_next (m : Mem) (p : Nat) :
    (nlriIter m p).2 = after NlriEntry.encode (entryAt m) p := by
  rw [after, NlriEntry.length_encode, nlriIter, ← Nat.add_assoc]
  rfl

/-- Where the entries in front of `limit` begin, from `p` on. -/
def entryStations (m : Mem) (limit p : Nat) : List Nat :=
  stations NlriEntry.encode (entryAt m) 0 limit p

theorem entryStations_eq (m : Mem) (limit p : Nat) :
    entryStations m limit p =
      if p < limit then p :: entryStations m limit (nlriIter m p).2 else [] := by
  rw [nlriIter_next]
  exact stations_eq NlriEntry.encode_pos p

/-- The entries from `p` on end exactly at `limit`. -/
def SectionTiled (m : Mem) (limit p : Nat) : Prop := Lands NlriEntry.encode (entryAt m) limit p

theorem SectionTiled.slice_eq {m : Mem} {limit p : Nat} (h : SectionTiled m limit p) :
    slice m p (limit - p) = encodeSection ((entryStations m limit p).map (entryAt m)) :=
  Lands.slice_eq NlriEntry.encode_pos (slice_entryAt m) h

theorem sectionTiled_of_slice {m : Mem} {p : Nat} {entries : List NlriEntry}
    (h : slice m p (encodeSection entries).length = encodeSection entries) :
    SectionTiled m (p + (encodeSection entries).length) p ∧
      (entryStations m (p + (encodeSection entries).length) p).map (entryAt m) = entries :=
  lands_of_slice NlriEntry.encode_pos (slice_entryAt m) NlriEntry.encode_prefixFree h

/-- What the body of the loop is given of the entry at `q`: the prefix, and whether it ends the
section. -/
def entryCall (m : Mem) (limit q : Nat) : Nat × Bool :=
  ((nlriIter m q).1, (nlriIter m q).2 == limit)

theorem nlriWalk_stations (m : Mem) (limit p : Nat) :
    nlriWalk m p limit = (entryStations m limit p).map (entryCall m limit) := by
  induction h : limit - p using Nat.strongRecOn generalizing p with
  | ind n ih =>
    rw [nlriWalk_eq, entryStations_eq]
    split_ifs with hp
    · have hq := nlriIter_cursor m p
      rw [List.map_cons, ih (limit - (nlriIter m p).2) (by omega) _ rfl]
      rfl
    · rfl

/-- In a section that is tiled the last entry is the one that ends it. -/
theorem SectionTiled.walkEnd {m : Mem} {limit p : Nat} (h : SectionTiled m limit p)
    (hp : p < limit) : ((nlriWalk m p limit).map Prod.snd).getLast? = some true := by
  induction h with
  | done => exact absurd hp (Nat.lt_irrefl _)
  | @step p hlt h ih =>
    rw [← nlriIter_next] at h ih
    rw [nlriWalk_eq, if_pos hlt, List.map_cons, List.getLast?_cons]
    by_cases hmore : (nlriIter m p).2 < limit
    · rw [ih hmore]
      rfl
    · have hend : (nlriIter m p).2 = limit := by
        have hle := h.le
        omega
      rw [nlriWalk_eq, if_neg hmore, hend]
      simp

section
variable {σ : Type} (m : Mem) (limit : Nat) (body : σ → Nat × Bool → Exec σ)

def nlriRound : Nat × σ → Exec ((Nat × σ) ⊕ (Nat × σ))
  | (p, s) =>
    if p < limit then do
      let e := nlriIter m p
      let s ← body s (e.1, e.2 == limit)
      return .inl (e.2, s)
    else return .inr (p, s)

def nlriLoop (fuel p : Nat) (s : σ) : Exec (Nat × σ) :=
  loop .loop (nlriRound m limit body) fuel (p, s)

end

section
variable {σ : Type} {m : Mem} {limit : Nat} {body : σ → Nat × Bool → Exec σ}

theorem nlriRound_next {p : Nat} (hp : p < limit) (s : σ) :
    nlriRound m limit body (p, s) =
      body s (entryCall m limit p) >>= fun t => .ok (.inl ((nlriIter m p).2, t)) := by
  rw [nlriRound, if_pos hp]
  rfl

theorem nlriRound_stop {p : Nat} (hp : ¬ p < limit) (s : σ) :
    nlriRound m limit body (p, s) = .ok (.inr (p, s)) := by
  rw [nlriRound, if_neg hp]
  rfl

/-- The loop goes through the entries and ends; its cursor is then on the limit exactly if the
last entry was. -/
theorem nlriLoop_eq (p : Nat) :
    ∃ q, (SectionTiled m limit p ↔ q = limit) ∧ ∀ fuel, limit - p < fuel → ∀ s,
      nlriLoop m limit body fuel p s =
        (nlriWalk m p limit).foldlM body s >>= fun t => .ok (q, t) := by
  induction h : limit - p using Nat.strongRecOn generalizing p with
  | ind n ih =>
    by_cases hp : p < limit
    · have hq := nlriIter_cursor m p
      obtain ⟨q, htiled, hloop⟩ := ih (limit - (nlriIter m p).2) (by omega) _ rfl
      refine ⟨q, ?_, ?_⟩
      · rw [← htiled, nlriIter_next]
        constructor
        · intro hland
          exact hland.next hp
        · intro hland
          exact .step hp hland
      · intro fuel hfuel s
        obtain ⟨fuel, rfl⟩ : ∃ k, fuel = k + 1 := ⟨fuel - 1, by omega⟩
        rw [nlriLoop, loop_bind (nlriRound_next hp s), nlriWalk_eq, if_pos hp, List.foldlM_cons,
          entryCall]
        cases body s ((nlriIter m p).1, (nlriIter m p).2 == limit) with
        | error halt => rfl
        | ok t => exact hloop fuel (by omega) t
    · refine ⟨p, ?_, ?_⟩
      · constructor
        · intro hland
          have hle := hland.le
          omega
        · intro e
          rw [e]
          exact .done
      · intro fuel hfuel s
        obtain ⟨fuel, rfl⟩ : ∃ k, fuel = k + 1 := ⟨fuel - 1, by omega⟩
        rw [nlriLoop, loop_done (nlriRound_stop hp s), nlriWalk_eq, if_neg hp]
        rfl

theorem nlriLoop_tiled {p fuel : Nat} (h : SectionTiled m limit p) (hfuel : limit - p < fuel)
    (s : σ) : nlriLoop m limit body fuel p s =
      (nlriWalk m p limit).foldlM body s >>= fun t => .ok (limit, t) := by
  obtain ⟨q, htiled, hloop⟩ := @nlriLoop_eq σ m limit body p
  rw [hloop fuel hfuel, htiled.mp h]

end

section
variable (m : Mem) (p : Nat) (limit : Int32)

def countRound : Int32 × Int32 → Exec ((Int32 × Int32) ⊕ Int32)
  | (off, pfxc) =>
    if off < limit then do
      let length := m (p + off.toInt.toNat)
      let off := off + 1
      return .inl (off + Int32.ofNat (chunkSize length.toNat), pfxc + 1)
    else return .inr pfxc

def nlriCount (fuel : Nat) : Exec Int32 := loop .loop (countRound m p limit) fuel (0, 0)

end

theorem int32_add {a b : Int32} (h : -2 ^ 31 ≤ a.toInt + b.toInt)
    (h' : a.toInt + b.toInt < 2 ^ 31) : (a + b).toInt = a.toInt + b.toInt := by
  rw [Int32.toInt_add]
  exact Int.bmod_eq_of_le (by omega) (by omega)

/-- One round of `nlri_count` at an entry that ends in front of its limit or there. The offset is
the distance walked, and at least as large as the count, as every entry has its length byte; so
neither wraps. -/
theorem countRound_next {m : Mem} {p size q : Nat} {limit off pfxc : Int32}
    (hlimit : limit.toInt = size) (hpq : p ≤ q) (hoff : off.toInt = q - p)
    (hpos : 0 ≤ pfxc.toInt) (hle : pfxc.toInt ≤ off.toInt) (hend : (nlriIter m q).2 ≤ p + size) :
    ∃ off', countRound m p limit (off, pfxc) = .ok (.inl (off', pfxc + 1)) ∧
      off'.toInt = (nlriIter m q).2 - p ∧ (pfxc + 1).toInt = pfxc.toInt + 1 := by
  have hmax := limit.toInt_lt
  have hnext : (nlriIter m q).2 = q + 1 + chunkSize (m q).toNat := rfl
  have hmore : off < limit := by
    rw [Int32.lt_iff_toInt_lt]
    omega
  have hread : p + off.toInt.toNat = q := by omega
  have hone : (1 : Int32).toInt = 1 := rfl
  have hoff1 : (off + 1).toInt = off.toInt + 1 := int32_add (by omega) (by omega)
  have hchunk : (Int32.ofNat (chunkSize (m q).toNat)).toInt = chunkSize (m q).toNat :=
    Int32.toInt_ofNat_of_lt (by omega)
  refine ⟨off + 1 + Int32.ofNat (chunkSize (m q).toNat), ?_, ?_, int32_add (by omega) (by omega)⟩
  · rw [countRound, if_pos hmore]
    simp only [hread]
    rfl
  · rw [int32_add (by omega) (by omega)]
    omega

/-- Both walks agree on where an entry begins, and `nlri_count` counts the entries. -/
theorem count_tiled {m : Mem} {p size q fuel : Nat} {limit off pfxc : Int32}
    (h : SectionTiled m (p + size) q) (hlimit : limit.toInt = size) (hpq : p ≤ q)
    (hoff : off.toInt = q - p) (hpos : 0 ≤ pfxc.toInt) (hle : pfxc.toInt ≤ off.toInt)
    (hfuel : p + size - q < fuel) :
    ∃ n, loop .loop (countRound m p limit) fuel (off, pfxc) = .ok n ∧
      n.toInt = pfxc.toInt + (entryStations m (p + size) q).length := by
  obtain ⟨fuel, rfl⟩ : ∃ k, fuel = k + 1 := ⟨fuel - 1, by omega⟩
  induction h generalizing off pfxc fuel with
  | done =>
    have hstop : ¬ off < limit := by
      rw [Int32.lt_iff_toInt_lt]
      omega
    refine ⟨pfxc, ?_, ?_⟩
    · apply loop_done
      rw [countRound, if_neg hstop]
      rfl
    · simp [entryStations_eq]
  | @step q hq h ih =>
    have hend := h.le
    have hcursor := nlriIter_cursor m q
    rw [← nlriIter_next] at h ih hend
    obtain ⟨off', hround, hoff', hpfxc⟩ := countRound_next hlimit hpq hoff hpos hle hend
    obtain ⟨fuel, rfl⟩ : ∃ k, fuel = k + 1 := ⟨fuel - 1, by omega⟩
    obtain ⟨n, hn, hcount⟩ :=
      @ih off' (pfxc + 1) (by omega) hoff' (by omega) (by omega) fuel (by omega)
    refine ⟨n, ?_, ?_⟩
    · rw [loop_next hround, hn]
    · rw [entryStations_eq, if_pos hq, List.length_cons, hcount]
      omega

theorem nlriCount_tiled {m : Mem} {p size fuel : Nat} {limit : Int32}
    (h : SectionTiled m (p + size) p) (hlimit : limit.toInt = size) (hfuel : size < fuel) :
    ∃ n, nlriCount m p limit fuel = .ok n ∧ n.toInt = (entryStations m (p + size) p).length := by
  obtain ⟨n, hn, hcount⟩ := @count_tiled m p size p fuel limit 0 0 h hlimit (Nat.le_refl p)
    (by simp) (by simp) (by simp) (by omega)
  refine ⟨n, hn, ?_⟩
  rw [hcount]
  simp

end FastParse
