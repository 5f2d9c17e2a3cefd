import FastParse.Framework.Loop
import FastParse.Update.Accepted
import Mathlib.Algebra.GroupWithZero.Nat

namespace FastParse

open Framework

/-- A segment of a path: a type, a count, and that many ASNs of four bytes. -/
structure Segment where
  segType : UInt8
  segLength : UInt8
  asns : List UInt8
  fits : asns.length = 4 * segLength.toNat
  deriving DecidableEq

namespace Segment

def encode (s : Segment) : List UInt8 := s.segType :: s.segLength :: s.asns

theorem length_encode (s : Segment) : s.encode.length = 2 + 4 * s.segLength.toNat := by
  rw [encode, List.length_cons, List.length_cons, s.fits]
  omega

theorem encode_pos (s : Segment) : 0 < s.encode.length := Nat.succ_pos _

theorem encode_prefixFree : PrefixFree encode := by
  intro a b x y h
  obtain ⟨segType, segLength, asns, fits⟩ := a
  obtain ⟨segType', segLength', asns', fits'⟩ := b
  simp only [encode, List.cons_append, List.cons.injEq] at h
  obtain ⟨rfl, rfl, h⟩ := h
  obtain ⟨rfl, rfl⟩ := List.append_inj h (fits.trans fits'.symm)
  exact ⟨rfl, rfl⟩

/-- AS_SET or AS_SEQUENCE. -/
def Known (s : Segment) : Prop := s.segType = 1 ∨ s.segType = 2

instance (s : Segment) : Decidable s.Known := inferInstanceAs (Decidable (_ ∨ _))

def pathLength (s : Segment) : Nat :=
  if s.segType = 1 then 1 else if s.segType = 2 then s.segLength.toNat else 0

/-- A segment takes more bytes than twice the ASes it counts as. -/
theorem two_pathLength_le (s : Segment) : 2 * s.pathLength ≤ s.encode.length := by
  rw [length_encode, pathLength]
  split_ifs
  · omega
  · omega
  · omega

end Segment

def encodePath (path : List Segment) : List UInt8 := path.flatMap Segment.encode

def pathLength (path : List Segment) : Nat := (path.map Segment.pathLength).sum

theorem two_pathLength_le (path : List Segment) :
    2 * pathLength path ≤ (encodePath path).length := by
  induction path with
  | nil => exact Nat.le_refl 0
  | cons s path ih =>
    have hs := s.two_pathLength_le
    rw [pathLength, encodePath] at ih ⊢
    rw [List.map_cons, List.sum_cons, List.flatMap_cons, List.length_append]
    omega

def segmentAt (m : Mem) (p : Nat) : Segment where
  segType := m p
  segLength := m (p + 1)
  asns := slice m (p + 2) (4 * (m (p + 1)).toNat)
  fits := length_slice _ _ _

theorem slice_segmentAt (m : Mem) (p : Nat) :
    slice m p (segmentAt m p).encode.length = (segmentAt m p).encode := by
  rw [Segment.length_encode, Nat.add_comm, slice_succ, slice_succ]
  rfl

/-- Behind the segment at `p`. -/
def segmentEnd (m : Mem) (p : Nat) : Nat := after Segment.encode (segmentAt m) p

theorem segmentEnd_eq (m : Mem) (p : Nat) : segmentEnd m p = p + (2 + 4 * (m (p + 1)).toNat) := by
  rw [segmentEnd, after, Segment.length_encode]
  rfl

/-- Where the segments in front of `limit` begin, from `p` on. -/
def pathStations (m : Mem) (limit p : Nat) : List Nat :=
  stations Segment.encode (segmentAt m) 0 limit p

theorem pathStations_eq (m : Mem) (limit p : Nat) :
    pathStations m limit p =
      if p < limit then p :: pathStations m limit (segmentEnd m p) else [] :=
  stations_eq Segment.encode_pos p

/-- The segments from `p` on end exactly at `limit`. -/
def PathTiled (m : Mem) (limit p : Nat) : Prop := Lands Segment.encode (segmentAt m) limit p

theorem PathTiled.slice_eq {m : Mem} {limit p : Nat} (h : PathTiled m limit p) :
    slice m p (limit - p) = encodePath ((pathStations m limit p).map (segmentAt m)) :=
  Lands.slice_eq Segment.encode_pos (slice_segmentAt m) h

theorem pathTiled_of_slice {m : Mem} {p : Nat} {path : List Segment}
    (h : slice m p (encodePath path).length = encodePath path) :
    PathTiled m (p + (encodePath path).length) p ∧
      (pathStations m (p + (encodePath path).length) p).map (segmentAt m) = path :=
  lands_of_slice Segment.encode_pos (slice_segmentAt m) Segment.encode_prefixFree h

section
variable (m : Mem) (p : Nat) (length : UInt16)

def pathRound : UInt16 × UInt16 → Exec ((UInt16 × UInt16) ⊕ (UInt16 × UInt16))
  | (offset, pathCount) =>
    if offset < length then do
      let pathCount ← segmentCount m (p + offset.toNat) pathCount
      return .inl (offset + (2 + 4 * (m (p + offset.toNat + 1)).toUInt16), pathCount)
    else return .inr (offset, pathCount)

theorem asPathLoop_loop (fuel : Nat) (offset pathCount : UInt16) :
    asPathLoop m p length fuel offset pathCount =
      loop .loop (pathRound m p length) fuel (offset, pathCount) := by
  induction fuel generalizing offset pathCount with
  | zero => rfl
  | succ fuel ih =>
    rw [asPathLoop_eq, loop, pathRound]
    split_ifs
    · cases segmentCount m (p + offset.toNat) pathCount with
      | error halt => rfl
      | ok count => exact ih _ count
    · rfl

/-- The rounds that `as_path_count` gets to. -/
def PathReaches (offset pathCount : UInt16) : Prop :=
  Reaches (pathRound m p length) (0, 0) (offset, pathCount)

def segmentStep (offset : UInt16) : Nat := 2 + 4 * (m (p + offset.toNat + 1)).toNat

/-- The walk returns or fails its assertion after some number of rounds. -/
def PathWalkEnds : Prop := ∃ fuel, asPathLoop m p length fuel 0 0 ≠ .error .loop

/-- The 16-bit offset does not wrap in any round of the walk. -/
def OffsetNeverWraps : Prop :=
  ∀ offset pathCount, PathReaches m p length offset pathCount → offset < length →
    m (p + offset.toNat) < 3 → offset.toNat + segmentStep m p offset < 2 ^ 16

def CountNeverWraps : Prop :=
  ∀ offset pathCount, PathReaches m p length offset pathCount → offset < length →
    m (p + offset.toNat) < 3 →
      pathCount.toNat + (segmentAt m (p + offset.toNat)).pathLength < 2 ^ 16

def PathReads (a : Nat) : Prop :=
  ∃ offset pathCount, PathReaches m p length offset pathCount ∧ offset < length ∧
    (a = p + offset.toNat ∨ a = p + offset.toNat + 1)

/-- Where the walk that never wraps begins the segments it adds up: up to the first one of an
unknown type. -/
def knownStations : List Nat :=
  (pathStations m (p + length.toNat) p).takeWhile fun q => decide (m q < 3)

def FitsOffset : Prop := ∀ q ∈ knownStations m p length, segmentEnd m q < p + 2 ^ 16

instance : Decidable (FitsOffset m p length) :=
  inferInstanceAs (Decidable (∀ q ∈ knownStations m p length, _))

end

section
variable {m : Mem} {p : Nat} {length offset pathCount offset' pathCount' : UInt16}

theorem segmentStep_toNat (h : offset.toNat + segmentStep m p offset < 2 ^ 16) :
    (offset + (2 + 4 * (m (p + offset.toNat + 1)).toUInt16)).toNat =
      offset.toNat + segmentStep m p offset := by
  have htwo : (2 : UInt16).toNat = 2 := rfl
  have hfour : (4 : UInt16).toNat = 4 := rfl
  have hbyte := (m (p + offset.toNat + 1)).toNat_lt
  rw [segmentStep] at h ⊢
  rw [UInt16.toNat_add, UInt16.toNat_add, UInt16.toNat_mul, htwo, hfour, UInt8.toNat_toUInt16]
  omega

theorem segmentCount_ok :
    segmentCount m (p + offset.toNat) pathCount = .ok pathCount' ↔
      m (p + offset.toNat) < 3 ∧
        pathCount' = pathCount +
          UInt16.ofNat (segmentAt m (p + offset.toNat)).pathLength := by
  have hbyte := (m (p + offset.toNat + 1)).toNat_lt
  simp only [segmentCount, Segment.pathLength, segmentAt]
  by_cases hset : m (p + offset.toNat) = 1
  · simp [hset, pure, Except.pure, eq_comm]
  · by_cases hseq : m (p + offset.toNat) = 2
    · simp [hseq, pure, Except.pure, eq_comm]
    · simp only [hset, hseq, if_false, assert_bind_ok]
      simp [pure, Except.pure, eq_comm]

theorem pathRound_next {s : UInt16 × UInt16} :
    pathRound m p length (offset, pathCount) = .ok (.inl s) ↔
      offset < length ∧ m (p + offset.toNat) < 3 ∧
        s = (offset + (2 + 4 * (m (p + offset.toNat + 1)).toUInt16),
          pathCount + UInt16.ofNat (segmentAt m (p + offset.toNat)).pathLength) := by
  rw [pathRound]
  by_cases hlt : offset < length
  · simp only [hlt, if_true, true_and, bind_eq_ok, segmentCount_ok]
    constructor
    · rintro ⟨count, ⟨htype, rfl⟩, h⟩
      cases h
      exact ⟨htype, rfl⟩
    · rintro ⟨htype, rfl⟩
      exact ⟨_, ⟨htype, rfl⟩, rfl⟩
  · simp [hlt, pure, Except.pure]

theorem pathRound_taken (hlt : offset < length) (htype : m (p + offset.toNat) < 3)
    (pathCount : UInt16) :
    pathRound m p length (offset, pathCount) =
      .ok (.inl (offset + (2 + 4 * (m (p + offset.toNat + 1)).toUInt16),
        pathCount + UInt16.ofNat (segmentAt m (p + offset.toNat)).pathLength)) :=
  pathRound_next.mpr ⟨hlt, htype, rfl⟩

theorem pathRound_done {s : UInt16 × UInt16} :
    pathRound m p length (offset, pathCount) = .ok (.inr s) ↔
      ¬ offset < length ∧ s = (offset, pathCount) := by
  rw [pathRound]
  by_cases hlt : offset < length
  · simp only [hlt, if_true, not_true, false_and, iff_false, bind_eq_ok]
    rintro ⟨count, _, h⟩
    cases h
  · simp [hlt, pure, Except.pure, eq_comm]

theorem pathRound_ne_loop (s : UInt16 × UInt16) : pathRound m p length s ≠ .error .loop := by
  obtain ⟨offset, pathCount⟩ := s
  rw [pathRound]
  split_ifs
  · rw [segmentCount]
    split_ifs
    · intro h
      cases h
    · intro h
      cases h
    · rw [assert]
      split_ifs
      · intro h
        cases h
      · intro h
        cases h
  · intro h
    cases h

/-- What the walk still adds up from an offset on. -/
theorem known_from (hlt : offset < length) (htype : m (p + offset.toNat) < 3) :
    (pathStations m (p + length.toNat) (p + offset.toNat)).takeWhile
        (fun q => decide (m q < 3)) =
      (p + offset.toNat) :: (pathStations m (p + length.toNat)
        (segmentEnd m (p + offset.toNat))).takeWhile (fun q => decide (m q < 3)) := by
  have hlt : offset.toNat < length.toNat := UInt16.lt_iff_toNat_lt.mp hlt
  rw [pathStations_eq, if_pos (by omega), List.takeWhile_cons_of_pos]
  exact decide_eq_true htype

theorem segmentEnd_step (m : Mem) (p : Nat) (offset : UInt16) :
    segmentEnd m (p + offset.toNat) = p + (offset.toNat + segmentStep m p offset) := by
  rw [segmentEnd_eq, segmentStep]
  omega

/-- A round of the walk that has not wrapped and will not. -/
def FitsFrom (m : Mem) (p : Nat) (length : UInt16) (s : UInt16 × UInt16) : Prop :=
  (∀ q ∈ (pathStations m (p + length.toNat) (p + s.1.toNat)).takeWhile
      (fun q => decide (m q < 3)), segmentEnd m q < p + 2 ^ 16) ∧
    2 * s.2.toNat ≤ s.1.toNat

theorem FitsFrom.bounds (h : FitsFrom m p length (offset, pathCount)) (hlt : offset < length)
    (htype : m (p + offset.toNat) < 3) :
    offset.toNat + segmentStep m p offset < 2 ^ 16 ∧
      pathCount.toNat + (segmentAt m (p + offset.toNat)).pathLength < 2 ^ 16 := by
  have hend := h.1 (p + offset.toNat) (by
    rw [known_from hlt htype]
    exact List.mem_cons_self)
  have hcount : 2 * pathCount.toNat ≤ offset.toNat := h.2
  have hlong := (segmentAt m (p + offset.toNat)).two_pathLength_le
  rw [Segment.length_encode] at hlong
  change _ ≤ segmentStep m p offset at hlong
  rw [segmentEnd_step] at hend
  omega

theorem FitsFrom.next {s t : UInt16 × UInt16} (h : FitsFrom m p length s)
    (hnext : pathRound m p length s = .ok (.inl t)) :
    FitsFrom m p length t ∧ p + t.1.toNat = segmentEnd m (p + s.1.toNat) ∧
      t.2.toNat = s.2.toNat + (segmentAt m (p + s.1.toNat)).pathLength := by
  obtain ⟨offset, pathCount⟩ := s
  obtain ⟨hlt, htype, rfl⟩ := pathRound_next.mp hnext
  obtain ⟨hoffset, hcount⟩ := h.bounds hlt htype
  have e1 := segmentStep_toNat hoffset
  have e2 : (pathCount + UInt16.ofNat (segmentAt m (p + offset.toNat)).pathLength).toNat =
      pathCount.toNat + (segmentAt m (p + offset.toNat)).pathLength := by
    rw [UInt16.toNat_add, UInt16.toNat_ofNat']
    omega
  have hlong := (segmentAt m (p + offset.toNat)).two_pathLength_le
  rw [Segment.length_encode] at hlong
  change _ ≤ segmentStep m p offset at hlong
  refine ⟨⟨?_, ?_⟩, ?_, e2⟩
  · intro q hq
    apply h.1 q
    rw [known_from hlt htype]
    simp only [e1, ← segmentEnd_step] at hq
    exact List.mem_cons_of_mem _ hq
  · have hcount : 2 * pathCount.toNat ≤ offset.toNat := h.2
    simp only [e1, e2]
    omega
  · simp only [e1, segmentEnd_step]

theorem FitsOffset.start (h : FitsOffset m p length) : FitsFrom m p length (0, 0) :=
  ⟨h, Nat.le_refl 0⟩

theorem FitsOffset.reached (h : FitsOffset m p length) {s : UInt16 × UInt16}
    (hs : Reaches (pathRound m p length) (0, 0) s) : FitsFrom m p length s :=
  hs.keeps (fun _ _ hI hnext => (hI.next hnext).1) h.start

/-- If no round wraps, the rounds follow the walk that never does. -/
theorem OffsetNeverWraps.known (h : OffsetNeverWraps m p length)
    (hs : PathReaches m p length offset pathCount) :
    ∀ q ∈ (pathStations m (p + length.toNat) (p + offset.toNat)).takeWhile
      (fun q => decide (m q < 3)), segmentEnd m q < p + 2 ^ 16 := by
  induction hn : length.toNat - offset.toNat using Nat.strongRecOn
      generalizing offset pathCount with
  | ind n ih =>
    intro q hq
    by_cases hlt : offset < length
    · by_cases htype : m (p + offset.toNat) < 3
      · have hoffset := h offset pathCount hs hlt htype
        have e := segmentStep_toNat hoffset
        rw [known_from hlt htype, List.mem_cons] at hq
        cases hq with
        | inl e' =>
          rw [e', segmentEnd_step]
          omega
        | inr hq =>
          have hnext := hs.tail (pathRound_taken hlt htype pathCount)
          have hlt : offset.toNat < length.toNat := UInt16.lt_iff_toNat_lt.mp hlt
          have hpos : 0 < segmentStep m p offset := by
            rw [segmentStep]
            omega
          rw [segmentEnd_step, ← e] at hq
          exact ih _ (by omega) hnext rfl q hq
      · rw [pathStations_eq] at hq
        split_ifs at hq
        · rw [List.takeWhile_cons_of_neg (by simpa using htype)] at hq
          exact absurd hq List.not_mem_nil
        · exact absurd hq List.not_mem_nil
    · have hstop : ¬ p + offset.toNat < p + length.toNat := by
        rw [UInt16.lt_iff_toNat_lt] at hlt
        omega
      rw [pathStations_eq, if_neg hstop] at hq
      exact absurd hq List.not_mem_nil

theorem fitsOffset_iff : FitsOffset m p length ↔ OffsetNeverWraps m p length := by
  constructor
  · intro h offset pathCount hs hlt htype
    exact ((h.reached hs).bounds hlt htype).1
  · intro h
    exact h.known .refl

theorem FitsOffset.count (h : FitsOffset m p length) : CountNeverWraps m p length := by
  intro offset pathCount hs hlt htype
  exact ((h.reached hs).bounds hlt htype).2

/-- A walk that does not wrap moves on in every round. -/
theorem FitsOffset.ends (h : FitsOffset m p length) {fuel : Nat} (hfuel : length.toNat < fuel) :
    asPathLoop m p length fuel 0 0 ≠ .error .loop := by
  rw [asPathLoop_loop]
  apply loop_ends (μ := fun s : UInt16 × UInt16 => length.toNat - s.1.toNat)
  · intro s hs
    refine ⟨pathRound_ne_loop s, ?_⟩
    intro t hnext
    obtain ⟨_, hend, _⟩ := (h.reached hs).next hnext
    obtain ⟨hlt, _, _⟩ := pathRound_next.mp hnext
    have hlt := UInt16.lt_iff_toNat_lt.mp hlt
    rw [segmentEnd_eq] at hend
    omega
  · exact hfuel

end

end FastParse
