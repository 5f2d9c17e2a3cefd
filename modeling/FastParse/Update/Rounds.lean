import FastParse.Phase3.Halting
import FastParse.Update.Framing
import FastParse.Update.PathWalk
import FastParse.Update.Sections

namespace FastParse

open Framework Attr

section
variable {e : Halt}

theorem asPathLoop_avoids (he : e ≠ .assertion) (hloop : e ≠ .loop) (m : Mem) (p : Nat)
    (length : UInt16) (fuel : Nat) (offset pathCount : UInt16) :
    Avoids e (asPathLoop m p length fuel offset pathCount) := by
  induction fuel generalizing offset pathCount with
  | zero => exact fun h => hloop (Except.error.inj h).symm
  | succ fuel ih =>
    rw [asPathLoop]
    refine Avoids.ite ?_ (avoids_pure _)
    exact Avoids.ite (ih _ _) (Avoids.ite (ih _ _) ((avoids_assert he _).bind fun _ => ih _ _))

theorem parseAttribute_avoids (he : e ≠ .assertion) (m : Mem) {typeCode : UInt8} (p : Nat)
    {length : UInt16} (tb : Tiebreak)
    (hpath : typeCode = asPath → Avoids e (asPathCount m p length)) :
    Avoids e (parseAttribute m typeCode p length tb) := by
  rw [parseAttribute]
  by_cases h : typeCode = asPath
  · exact Avoids.ite (avoids_pure _) (Avoids.ite (avoids_pure _)
      (by rw [if_pos h]; exact (hpath h).bind fun _ => avoids_pure _))
  · rw [if_neg h]
    repeat'
      first
        | exact avoids_pure _
        | exact (avoids_assert he _).bind fun _ => avoids_pure _
        | apply Avoids.ite

theorem parseAttributes_avoids (he : e ≠ .assertion) (hloop : e ≠ .loop) (m : Mem) (p : Nat)
    (length : UInt16) (tb : Tiebreak) : Avoids e (parseAttributes m p length tb) := by
  have one (typeCode : UInt8) (p : Nat) (length : UInt16) (tb : Tiebreak) :
      Avoids e (parseAttribute m typeCode p length tb) :=
    parseAttribute_avoids he m p tb fun _ => (asPathLoop_avoids he hloop _ _ _ _ _ _).bind fun _ =>
      (avoids_assert he _).bind fun _ => (avoids_assert he _).bind fun _ => avoids_pure _
  have rounds (limit fuel p : Nat) (tb : Tiebreak) : Avoids e (parseLoop m limit fuel p tb) := by
    induction fuel generalizing p tb with
    | zero => exact fun h => hloop (Except.error.inj h).symm
    | succ fuel ih =>
      rw [parseLoop]
      exact (one _ _ _ _).bind fun _ => Avoids.ite (ih _ _) (avoids_pure _)
  exact (rounds _ _ _ _).bind fun _ => (avoids_assert he _).bind fun _ => avoids_pure _

end

/-- One round of the loop of `parse_attributes`. -/
def parseRound (m : Mem) (limit : Nat) :
    Nat × Tiebreak → Exec ((Nat × Tiebreak) ⊕ (Nat × Tiebreak))
  | (p, tb) => do
    let tb ← parseAt m tb p
    return if attributeEnd m p < limit then .inl (attributeEnd m p, tb)
      else .inr (attributeEnd m p, tb)

theorem parseLoop_loop (m : Mem) (limit fuel p : Nat) (tb : Tiebreak) :
    parseLoop m limit fuel p tb = loop .loop (parseRound m limit) fuel (p, tb) := by
  induction fuel generalizing p tb with
  | zero => rfl
  | succ fuel ih =>
    rw [parseLoop_eq, loop, parseRound]
    cases parseAt m tb p with
    | error halt => rfl
    | ok tb' =>
      simp only [bind, Except.bind, pure, Except.pure]
      split_ifs
      · exact ih _ _
      · rfl

theorem parseRound_next {m : Mem} {limit p : Nat} {tb : Tiebreak} {s : Nat × Tiebreak}
    (h : parseRound m limit (p, tb) = .ok (.inl s)) :
    s.1 = attributeEnd m p ∧ attributeEnd m p < limit := by
  rw [parseRound, bind_eq_ok] at h
  obtain ⟨tb', _, h⟩ := h
  split_ifs at h with hmore
  · cases h
    exact ⟨rfl, hmore⟩
  · cases h

/-- Only a path keeps `parse_attribute` from coming to an end. -/
theorem parseAttribute_loop_iff {m : Mem} {typeCode : UInt8} {p : Nat} {length : UInt16}
    {tb : Tiebreak} :
    parseAttribute m typeCode p length tb = .error .loop ↔
      typeCode = asPath ∧ ¬ PathWalkEnds m p length := by
  by_cases hpath : typeCode = asPath
  · subst hpath
    have hbig : ¬ (asPath > 64 ∧ attrSet ≠ asPath) := by decide
    have horigin : asPath ≠ origin := by decide
    rw [parseAttribute, if_neg hbig, if_neg horigin, if_pos rfl, bind_eq_error,
      asPathCount_loop_iff]
    simp [pure, Except.pure]
  · have havoids : Avoids .loop (parseAttribute m typeCode p length tb) :=
      parseAttribute_avoids (by decide) m p tb fun h => absurd h hpath
    simp only [hpath, false_and, iff_false]
    exact havoids

/-- No path that `parse_attributes` gets to keeps `as_path_count` going for ever. -/
def PathsEnd (m : Mem) (p : Nat) (length : UInt16) (tb : Tiebreak) : Prop :=
  ∀ q tb', Reaches (parseRound m (p + length.toNat)) (p, tb) (q, tb') →
    (attrHeader m q).1 = asPath → PathWalkEnds m (attrHeader m q).2.2 (attrHeader m q).2.1

theorem parseAttributes_loop_iff {m : Mem} {p : Nat} {length : UInt16} {tb : Tiebreak} :
    parseAttributes m p length tb = .error .loop ↔ ¬ PathsEnd m p length tb := by
  have hloop : parseAttributes m p length tb = .error .loop ↔
      loop .loop (parseRound m (p + length.toNat)) (length.toNat + 1) (p, tb) =
        .error .loop := by
    rw [parseAttributes, bind_eq_error, parseLoop_loop]
    constructor
    · intro h
      refine h.resolve_right ?_
      rintro ⟨out, _, h⟩
      exact (avoids_assert (by decide) _).bind (fun _ => avoids_pure _) h
    · exact fun h => .inl h
  rw [hloop]
  constructor
  · intro h hends
    refine loop_ends (μ := fun s : Nat × Tiebreak => p + length.toNat - s.1) ?_ ?_ h
    · rintro ⟨q, tb'⟩ hq
      constructor
      · intro he
        rw [parseRound, bind_eq_error] at he
        cases he with
        | inl he =>
          obtain ⟨hpath, hnot⟩ := parseAttribute_loop_iff.mp he
          exact hnot (hends q tb' hq hpath)
        | inr he =>
          obtain ⟨_, _, he⟩ := he
          cases he
      · intro t ht
        obtain ⟨e, hmore⟩ := parseRound_next ht
        have hlt := lt_attributeEnd m q
        simp only
        omega
    · simp only
      omega
  · intro h
    rw [PathsEnd] at h
    push Not at h
    obtain ⟨q, tb', hq, hpath, hnot⟩ := h
    apply dry_of_reaches hq
    intro fuel
    cases fuel with
    | zero => rfl
    | succ fuel =>
      have hparse : parseAt m tb' q = .error .loop := parseAttribute_loop_iff.mpr ⟨hpath, hnot⟩
      apply loop_error
      rw [parseRound, hparse]
      rfl

namespace Message

/-- The same for the attributes of a message, if `parse_update` comes to parse them. -/
def PathsEnd (env : Env) (s : State) (msg : Message) : Prop :=
  4097 > msg.length → msg.pathattributesLength ≠ 0 → msg.nlriLength ≠ 0 →
    (∃ out, s.routing.slab.alloc env.slab msg.peer (msg.length.toNat + sizeofRoute) = .ok out) →
      FastParse.PathsEnd msg.mem msg.pathAttributes msg.pathattributesLength
        (phase1 (peers msg.peer) ⟨0, 0, 0, 0, 0, 0, 0, 0⟩)

end Message

theorem messageRound_cases {σ : Type} (env : Env) (parse : σ → Message → Exec σ) (m : Mem)
    (pn : Fin npeers) (limit ptr : Nat) (msgCount : UInt32) (s : σ) :
    messageRound env parse m pn limit (ptr, msgCount, s) = .ok (.inr (msgCount, s)) ∨
    messageRound env parse m pn limit (ptr, msgCount, s) = .error .assertion ∨
    (ptr < limit ∧ (env.msgMax = 0 ∨ msgCount.toUInt64 < env.msgMax)) ∧ markerAt m ptr = true ∧
      getw8 m (ptr + 18) = 2 := by
  by_cases htest : ptr < limit ∧ (env.msgMax = 0 ∨ msgCount.toUInt64 < env.msgMax)
  · right
    by_cases hmarker : markerAt m ptr = true
    · by_cases htype : 2 = getw8 m (ptr + 18)
      · exact .inr ⟨htest, hmarker, htype.symm⟩
      · left
        rw [messageRound, if_pos htest, assert, if_pos hmarker]
        change (assert (2 = getw8 m (ptr + 18)) >>= fun _ => _) = _
        rw [assert, if_neg htype]
        rfl
    · left
      rw [messageRound, if_pos htest, assert, if_neg hmarker]
      rfl
  · exact .inl (messageRound_stop parse m pn s htest)

/-- The message at `ptr`, if the loop takes it up, is longer than nothing, and no path in it keeps
`parse_update` going. -/
def RoundEnds (env : Env) (m : Mem) (pn : Fin npeers) (limit ptr : Nat) (msgCount : UInt32)
    (s : State) : Prop :=
  ptr < limit → markerAt m ptr = true → getw8 m (ptr + 18) = 2 →
    getw16 m (ptr + 16) ≠ 0 ∧
      (getw16 m (ptr + 16) > 23 → env.spare ≤ msgCount →
        (messageAt m pn ptr).PathsEnd env s)

end FastParse
