import FastParse.Update.Segments

namespace FastParse

open Framework

section
variable {m : Mem} {p fuel : Nat} {length offset pathCount : UInt16}

theorem pathLoop_unknown (hlt : offset < length) (htype : ¬ m (p + offset.toNat) < 3)
    (out : UInt16 × UInt16) :
    loop .loop (pathRound m p length) fuel (offset, pathCount) ≠ .ok out := by
  cases fuel with
  | zero =>
    intro h
    cases h
  | succ fuel =>
    cases hround : pathRound m p length (offset, pathCount) with
    | error halt =>
      rw [loop_error hround]
      intro h
      cases h
    | ok next =>
      cases next with
      | inl s => exact absurd (pathRound_next.mp hround).2.1 htype
      | inr s => exact absurd hlt (pathRound_done.mp hround).1

/-- The walk comes to its end if and only if segments of known types or of type 0 end there. -/
theorem asPathLoop_iff (hfits : FitsFrom m p length (offset, pathCount))
    (hfuel : length.toNat - offset.toNat < fuel) (count : UInt16) :
    asPathLoop m p length fuel offset pathCount = .ok (length, count) ↔
      PathTiled m (p + length.toNat) (p + offset.toNat) ∧
        (∀ q ∈ pathStations m (p + length.toNat) (p + offset.toNat), m q < 3) ∧
        count.toNat = pathCount.toNat + pathLength
          ((pathStations m (p + length.toNat) (p + offset.toNat)).map (segmentAt m)) := by
  rw [asPathLoop_loop]
  induction fuel generalizing offset pathCount with
  | zero => exact absurd hfuel (Nat.not_lt_zero _)
  | succ fuel ih =>
    by_cases hlt : offset < length
    · have hlt' : p + offset.toNat < p + length.toNat :=
        Nat.add_lt_add_left (UInt16.lt_iff_toNat_lt.mp hlt) p
      rw [pathStations_eq, if_pos hlt']
      by_cases htype : m (p + offset.toNat) < 3
      · have hnext := pathRound_taken hlt htype pathCount
        obtain ⟨hfits1, hend, hcount⟩ := hfits.next hnext
        simp only at hend hcount
        have hmore : p + offset.toNat < segmentEnd m (p + offset.toNat) := by
          rw [segmentEnd_eq]
          omega
        rw [loop_next hnext, ih hfits1 (by omega), hend, hcount]
        simp only [List.mem_cons, forall_eq_or_imp, htype, true_and, List.map_cons, pathLength,
          List.sum_cons, Nat.add_assoc]
        constructor
        · rintro ⟨htiled, hrest⟩
          exact ⟨.step hlt' htiled, hrest⟩
        · rintro ⟨htiled, hrest⟩
          exact ⟨htiled.next hlt', hrest⟩
      · constructor
        · intro h
          exact absurd h (pathLoop_unknown hlt htype _)
        · rintro ⟨_, htypes, _⟩
          exact absurd (htypes _ List.mem_cons_self) htype
    · have hle : length.toNat ≤ offset.toNat := by
        rw [UInt16.lt_iff_toNat_lt] at hlt
        omega
      rw [loop_done (pathRound_done.mpr ⟨hlt, rfl⟩), pathStations_eq, if_neg (by omega)]
      constructor
      · intro h
        cases h
        exact ⟨.done, fun q hq => absurd hq List.not_mem_nil, rfl⟩
      · rintro ⟨htiled, _, hcount⟩
        have hend : length = offset := by
          apply UInt16.toNat_inj.mp
          have hle := htiled.le
          omega
        rw [hend, UInt16.toNat_inj.mp hcount]

/-- What is accepted: segments of known types or of type 0 that count as fewer than 256. -/
theorem asPathCount_iff (hfits : FitsOffset m p length) {n : UInt8} :
    asPathCount m p length = .ok n ↔
      PathTiled m (p + length.toNat) p ∧
        (∀ q ∈ pathStations m (p + length.toNat) p, m q < 3) ∧
        pathLength ((pathStations m (p + length.toNat) p).map (segmentAt m)) = n.toNat := by
  have hrounds : length.toNat - (0 : UInt16).toNat < 2 ^ 16 + 1 := by
    have hlt := length.toNat_lt
    omega
  have hn := n.toNat_lt
  rw [asPathCount]
  constructor
  · intro h
    obtain ⟨⟨offset, count⟩, hloop, hcheck⟩ := bind_eq_ok.mp h
    obtain ⟨hend, hcheck⟩ := assert_bind_ok.mp hcheck
    obtain ⟨hsmall, hret⟩ := assert_bind_ok.mp hcheck
    rw [hend] at hloop
    obtain ⟨htiled, htypes, hcount⟩ := (asPathLoop_iff hfits.start hrounds _).mp hloop
    cases hret
    have hsmall : count.toNat < 256 := UInt16.lt_iff_toNat_lt.mp hsmall
    refine ⟨htiled, htypes, ?_⟩
    rw [UInt16.toNat_toUInt8, Nat.mod_eq_of_lt hsmall, hcount]
    exact (Nat.zero_add _).symm
  · rintro ⟨htiled, htypes, hcount⟩
    have hloop := (asPathLoop_iff hfits.start hrounds n.toUInt16).mpr
      ⟨htiled, htypes, by rw [UInt8.toNat_toUInt16, ← hcount]; exact (Nat.zero_add _).symm⟩
    have hsmall : n.toUInt16 < 256 := by
      rw [UInt16.lt_iff_toNat_lt, UInt8.toNat_toUInt16]
      exact hn
    rw [hloop, bind_eq_ok]
    refine ⟨_, rfl, assert_bind_ok.mpr ⟨rfl, assert_bind_ok.mpr ⟨hsmall, ?_⟩⟩⟩
    simp [pure, Except.pure]

/-- A path of known segments that is too long for eight bits fails the last assertion. -/
theorem asPathCount_long (hfits : FitsOffset m p length)
    (htiled : PathTiled m (p + length.toNat) p)
    (htypes : ∀ q ∈ pathStations m (p + length.toNat) p, m q < 3)
    (hlong : 256 ≤ pathLength ((pathStations m (p + length.toNat) p).map (segmentAt m))) :
    asPathCount m p length = .error .assertion := by
  have hlt := length.toNat_lt
  have hrounds : length.toNat - (0 : UInt16).toNat < 2 ^ 16 + 1 := by omega
  have hsize := two_pathLength_le ((pathStations m (p + length.toNat) p).map (segmentAt m))
  rw [← htiled.slice_eq, length_slice] at hsize
  generalize hn : pathLength ((pathStations m (p + length.toNat) p).map (segmentAt m)) = n
    at hlong hsize
  have hcount : (UInt16.ofNat n).toNat = n := by
    rw [UInt16.toNat_ofNat']
    omega
  have hloop := (asPathLoop_iff hfits.start hrounds (UInt16.ofNat n)).mpr
    ⟨htiled, htypes, by rw [hcount, ← hn]; exact (Nat.zero_add _).symm⟩
  have hover : ¬ UInt16.ofNat n < 256 := by
    rw [UInt16.lt_iff_toNat_lt, hcount]
    exact Nat.not_lt.mpr hlong
  rw [asPathCount, hloop]
  simp [assert, hover, bind, Except.bind]

theorem fitsOffset_short (h : length.toNat ≤ 64514) : FitsOffset m p length := by
  intro q hq
  have hlt : q + 0 < p + length.toNat :=
    lt_of_mem_stations Segment.encode_pos ((List.takeWhile_subset _) hq)
  have hbyte := (m (q + 1)).toNat_lt
  rw [segmentEnd_eq]
  omega

theorem PathTiled.fitsOffset (h : PathTiled m (p + length.toNat) p) : FitsOffset m p length := by
  intro q hq
  have hle : segmentEnd m q ≤ p + length.toNat :=
    h.after_le Segment.encode_pos ((List.takeWhile_subset _) hq)
  have hlt := length.toNat_lt
  omega

/-- A header never straddles the end of a path of even length. -/
theorem pathReads_inside (hlen : length.toNat % 2 = 0) {a : Nat} (ha : PathReads m p length a) :
    p ≤ a ∧ a < p + length.toNat := by
  obtain ⟨offset, pathCount, hs, hlt, ha⟩ := ha
  have heven : offset.toNat % 2 = 0 := by
    refine @Reaches.keeps _ _ _ _ (fun s : UInt16 × UInt16 => s.1.toNat % 2 = 0) ?_ _ _ hs rfl
    intro s t hI hnext
    obtain ⟨_, _, rfl⟩ := pathRound_next.mp hnext
    exact even_add_segment _ hI
  have hlt := UInt16.lt_iff_toNat_lt.mp hlt
  omega

end

/-- Well-formed paths: the length in ASes is returned if it fits eight bits, the assertion on it
fails if not, and no counter wraps on the way. -/
theorem path_length_returned (m : Mem) (p : Nat) (path : List Segment)
    (hknown : ∀ s ∈ path, s.Known) (hsize : (encodePath path).length ≤ 65535)
    (hm : slice m p (encodePath path).length = encodePath path) :
    asPathCount m p (UInt16.ofNat (encodePath path).length) =
      (if pathLength path < 256 then .ok (UInt8.ofNat (pathLength path))
        else .error .assertion) ∧
    OffsetNeverWraps m p (UInt16.ofNat (encodePath path).length) ∧
    CountNeverWraps m p (UInt16.ofNat (encodePath path).length) := by
  obtain ⟨htiled, hpath⟩ := pathTiled_of_slice hm
  have hlen : (UInt16.ofNat (encodePath path).length).toNat = (encodePath path).length := by
    rw [UInt16.toNat_ofNat']
    omega
  rw [← hlen] at htiled hpath
  have hfits := htiled.fitsOffset
  have htypes : ∀ q ∈ pathStations m (p + (UInt16.ofNat (encodePath path).length).toNat) p,
      m q < 3 := by
    intro q hq
    have hmem : segmentAt m q ∈ path := by
      rw [← hpath]
      exact List.mem_map_of_mem hq
    cases hknown _ hmem with
    | inl h => exact (show m q = 1 from h) ▸ (by decide)
    | inr h => exact (show m q = 2 from h) ▸ (by decide)
  refine ⟨?_, fitsOffset_iff.mp hfits, hfits.count⟩
  split_ifs with hshort
  · rw [asPathCount_iff hfits, hpath, UInt8.toNat_ofNat', Nat.mod_eq_of_lt hshort]
    exact ⟨htiled, htypes, rfl⟩
  · apply asPathCount_long hfits htiled htypes
    rw [hpath]
    exact Nat.not_lt.mp hshort

/-- A set of two and a sequence of three ASes. -/
def shortPath : List Segment :=
  [⟨1, 2, [0, 0, 0, 7, 0, 0, 0, 8], rfl⟩,
    ⟨2, 3, [0, 0, 0, 1, 0, 0, 0, 2, 0, 0, 0, 3], rfl⟩]

theorem path_length_returned_four :
    asPathCount (bytesMem (encodePath shortPath)) 0 24 = .ok 4 ∧
      OffsetNeverWraps (bytesMem (encodePath shortPath)) 0 24 ∧
      CountNeverWraps (bytesMem (encodePath shortPath)) 0 24 :=
  path_length_returned (bytesMem (encodePath shortPath)) 0 shortPath (by decide) (by decide)
    (slice_bytesMem _)

/-- What `as_path_count` has accepted is made of sets and sequences, if it has met no segment
of type 0; it has never read a byte beyond the path. -/
def PathWellFormed (m : Mem) (p : Nat) (length : UInt16) : Prop :=
  (∃ path : List Segment, (∀ s ∈ path, s.Known) ∧ slice m p length.toNat = encodePath path) ∧
    ∀ a, PathReads m p length a → p ≤ a ∧ a < p + length.toNat

theorem accepted_path_iff (m : Mem) (p : Nat) (length : UInt16) (hlen : length ≤ 4096) (n : UInt8)
    (h : asPathCount m p length = .ok n) :
    PathWellFormed m p length ↔ ∀ q ∈ pathStations m (p + length.toNat) p, m q ≠ 0 := by
  have hlen : length.toNat ≤ 4096 := UInt16.le_iff_toNat_le.mp hlen
  obtain ⟨htiled, htypes, _⟩ := (asPathCount_iff (fitsOffset_short (by omega))).mp h
  constructor
  · rintro ⟨⟨path, hknown, hslice⟩, _⟩ q hq
    have hsize := congrArg List.length hslice
    rw [length_slice] at hsize
    rw [hsize] at hslice hq
    have hmem : segmentAt m q ∈ path := by
      rw [← (pathTiled_of_slice hslice).2]
      exact List.mem_map_of_mem hq
    cases hknown _ hmem with
    | inl h => exact (show m q = 1 from h) ▸ (by decide)
    | inr h => exact (show m q = 2 from h) ▸ (by decide)
  · intro hnonzero
    have hslice := htiled.slice_eq
    rw [Nat.add_sub_cancel_left] at hslice
    refine ⟨⟨_, ?_, hslice⟩, fun a => pathReads_inside (asPathCount_even h)⟩
    intro s hs
    obtain ⟨q, hq, rfl⟩ := List.mem_map.mp hs
    have hlow := UInt8.lt_iff_toNat_lt.mp (htypes q hq)
    have hzero : (m q).toNat ≠ 0 := fun e => hnonzero q hq (UInt8.toNat_inj.mp e)
    change (m q).toNat < 3 at hlow
    change m q = 1 ∨ m q = 2
    rw [← UInt8.toNat_inj, ← UInt8.toNat_inj]
    change (m q).toNat = 1 ∨ (m q).toNat = 2
    omega

theorem accepted_path_four : PathWellFormed (bytesMem (encodePath shortPath)) 0 24 :=
  (accepted_path_iff (bytesMem (encodePath shortPath)) 0 24 (by decide) 4 (by decide)).mpr
    (by decide)

/-- `assert(seg_type < 3)` lets type 0 pass, which counts as nothing. -/
theorem untyped_path_accepted :
    asPathCount (bytesMem [0, 0]) 0 2 = .ok 0 ∧ ¬ PathWellFormed (bytesMem [0, 0]) 0 2 := by
  refine ⟨by decide, ?_⟩
  rintro ⟨⟨path, hknown, hslice⟩, _⟩
  cases path with
  | nil => exact absurd hslice (by decide)
  | cons s path =>
    have htype : (0 : UInt8) = s.segType := (List.cons.inj hslice).1
    cases hknown s List.mem_cons_self with
    | inl h => exact absurd (htype.trans h) (by decide)
    | inr h => exact absurd (htype.trans h) (by decide)

/-- The rounds that `as_path_count` is given in the model are enough to tell. -/
theorem asPathCount_loop_iff (m : Mem) (p : Nat) (length : UInt16) :
    asPathCount m p length = .error .loop ↔ ¬ PathWalkEnds m p length := by
  have hcount : asPathCount m p length = .error .loop ↔
      asPathLoop m p length (2 ^ 16 + 1) 0 0 = .error .loop := by
    rw [asPathCount]
    cases asPathLoop m p length (2 ^ 16 + 1) 0 0 with
    | error halt => simp [bind, Except.bind]
    | ok out =>
      simp only [bind, Except.bind, assert, reduceCtorEq, iff_false]
      split_ifs <;> simp [pure, Except.pure]
  rw [hcount, PathWalkEnds, not_exists]
  constructor
  · intro h fuel
    rw [asPathLoop_loop] at h ⊢
    rw [not_not]
    refine @dry_forever _ _ _ (Fin UInt16.size) _ _ _
      (fun s : UInt16 × UInt16 => s.1.toFin) pathRound_ne_loop ?_ _ _ ?_ h fuel
    · rintro ⟨offset, pathCount⟩ ⟨offset', pathCount'⟩ t hsame hnext
      obtain rfl : offset = offset' := UInt16.toFin_inj.mp hsame
      obtain ⟨hlt, htype, rfl⟩ := pathRound_next.mp hnext
      exact ⟨_, pathRound_taken hlt htype pathCount', rfl⟩
    · rw [Fintype.card_fin]
      exact Nat.lt_succ_self _
  · intro h
    exact not_not.mp (h _)

/-- Every byte string and every 16-bit length. -/
theorem path_walk_ends_iff (m : Mem) (p : Nat) (length : UInt16) :
    PathWalkEnds m p length ∧ OffsetNeverWraps m p length ↔ FitsOffset m p length := by
  rw [← fitsOffset_iff]
  constructor
  · intro h
    exact h.2
  · intro h
    exact ⟨⟨_, h.ends (Nat.lt_succ_self _)⟩, h⟩

/-- Sequences of no AS at all. -/
def emptySequences : Mem := fun i => if i % 2 = 0 then 2 else 0

/-- With an odd length the offset never gets there. -/
theorem path_walk_endless :
    (∀ fuel, asPathLoop emptySequences 0 65535 fuel 0 0 = .error .loop) ∧
      ¬ OffsetNeverWraps emptySequences 0 65535 := by
  have hdry : ∀ fuel, asPathLoop emptySequences 0 65535 fuel 0 0 = .error .loop := by
    intro fuel
    rw [asPathLoop_loop]
    refine loop_dry (I := fun s : UInt16 × UInt16 => s.1.toNat % 2 = 0) ?_ rfl fuel
    rintro ⟨offset, pathCount⟩ heven
    have heven : offset.toNat % 2 = 0 := heven
    have hlt : offset < 65535 := by
      have hbound := offset.toNat_lt
      rw [UInt16.lt_iff_toNat_lt]
      change offset.toNat < 65535
      omega
    have htype : emptySequences (0 + offset.toNat) < 3 := by
      rw [Nat.zero_add, emptySequences, if_pos heven]
      decide
    exact ⟨_, pathRound_taken hlt htype pathCount, even_add_segment _ heven⟩
  refine ⟨hdry, ?_⟩
  intro hnever
  exact (fitsOffset_iff.mpr hnever).ends (Nat.lt_succ_self _) (hdry _)

end FastParse
