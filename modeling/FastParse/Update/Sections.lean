import FastParse.Slab.Pools
import FastParse.Update.Buffer
import FastParse.Update.Messages

namespace FastParse

open Framework

/-- The header checks of `buf_parse_peer` for the message at `ptr`. -/
structure HeaderAccepted (m : Mem) (ptr : Nat) : Prop where
  marker : markerAt m ptr = true
  type : 2 = getw8 m (ptr + 18)
  length : getw16 m (ptr + 16) > 23

/-- What `buf_parse_peer` hands to `parse_update` for the message at `ptr`. -/
def messageAt (m : Mem) (pn : Fin npeers) (ptr : Nat) : Message :=
  ⟨pn, m, ptr + 19, getw16 m (ptr + 16) - 19⟩

namespace Message

variable (msg : Message)

/-- The lengths of the sections make up the length of the body, as integers. -/
def SectionsAddUp : Prop :=
  msg.withdrawLength.toNat + msg.pathattributesLength.toNat + msg.nlriLength.toNat + 4 =
    msg.length.toNat

/-- The copy ends inside the buffer that `alloc` returns, if one is asked for. -/
def CopyInside (env : Env) (s : State) : Prop :=
  msg.pathattributesLength ≠ 0 ∧ msg.nlriLength ≠ 0 →
    ∀ route slab,
      s.routing.slab.alloc env.slab msg.peer (msg.length.toNat + sizeofRoute) =
        .ok (route, slab) →
      route + sizeofRoute + msg.pathattributesLength.toNat ≤
        route + (Size.of (msg.length.toNat + sizeofRoute)).bytes

/-- Stopped by the only assertion in front of the first use of the lengths, or sound. -/
def SectionsSafe (env : Env) (s : State) : Prop :=
  assert (4097 > msg.length) ≠ .ok () ∨ msg.SectionsAddUp ∧ msg.CopyInside env s

theorem nlriLength_toNat {msg : Message}
    (h : msg.withdrawLength.toNat + msg.pathattributesLength.toNat + 4 ≤ msg.length.toNat) :
    msg.nlriLength.toNat = msg.length.toNat -
      (msg.withdrawLength.toNat + msg.pathattributesLength.toNat + 4) := by
  have hfour : (4 : UInt16).toNat = 4 := rfl
  have hwithdraw : (msg.length - msg.withdrawLength).toNat =
      msg.length.toNat - msg.withdrawLength.toNat := by
    apply UInt16.toNat_sub_of_le
    rw [UInt16.le_iff_toNat_le]
    omega
  have hpath : (msg.length - msg.withdrawLength - msg.pathattributesLength).toNat =
      msg.length.toNat - msg.withdrawLength.toNat - msg.pathattributesLength.toNat := by
    rw [UInt16.toNat_sub_of_le, hwithdraw]
    rw [UInt16.le_iff_toNat_le, hwithdraw]
    omega
  rw [nlriLength, UInt16.toNat_sub_of_le, hpath, hfour]
  · omega
  · rw [UInt16.le_iff_toNat_le, hpath, hfour]
    omega

theorem sectionsAddUp_iff :
    msg.SectionsAddUp ↔
      msg.withdrawLength.toNat + msg.pathattributesLength.toNat + 4 ≤ msg.length.toNat := by
  constructor
  · intro h
    rw [SectionsAddUp] at h
    omega
  · intro h
    rw [SectionsAddUp, nlriLength_toNat h]
    omega

/-- The buffer is picked by the length of the body, which the attributes are a part of. -/
theorem copyInside_of_le {msg : Message} {env : Env} {s : State} (hlen : 4097 > msg.length)
    (h : msg.withdrawLength.toNat + msg.pathattributesLength.toNat + 4 ≤ msg.length.toNat) :
    msg.CopyInside env s := by
  intro _ route slab _
  have hlen : msg.length.toNat < 4097 := UInt16.lt_iff_toNat_lt.mp hlen
  have hroute : sizeofRoute = 40 := rfl
  have hsmall : Size.small.bytes = 256 := rfl
  have hlarge : Size.large.bytes = 4224 := rfl
  rw [Nat.add_assoc, Size.of]
  apply Nat.add_le_add_left
  split_ifs
  · omega
  · omega

end Message

/-- For every message that passes the header checks, and in every state. -/
theorem sections_safe_iff (env : Env) (s : State) (m : Mem) (pn : Fin npeers) (ptr : Nat) :
    (messageAt m pn ptr).SectionsSafe env s ↔
      4097 ≤ (messageAt m pn ptr).length.toNat ∨
        (messageAt m pn ptr).withdrawLength.toNat +
          (messageAt m pn ptr).pathattributesLength.toNat + 4 ≤
            (messageAt m pn ptr).length.toNat := by
  generalize messageAt m pn ptr = msg
  rw [Message.SectionsSafe, Message.sectionsAddUp_iff]
  by_cases hlen : 4097 > msg.length
  · have hlt : msg.length.toNat < 4097 := UInt16.lt_iff_toNat_lt.mp hlen
    have hpass : assert (4097 > msg.length) = .ok () := if_pos hlen
    constructor
    · intro h
      exact .inr (h.resolve_left fun hstop => hstop hpass).1
    · intro h
      have hle := h.resolve_left (Nat.not_le.mpr hlt)
      exact .inr ⟨hle, Message.copyInside_of_le hlen hle⟩
  · have hle : 4097 ≤ msg.length.toNat := by
      rw [gt_iff_lt, UInt16.lt_iff_toNat_lt] at hlen
      exact Nat.not_lt.mp hlen
    have hstop : assert (4097 > msg.length) ≠ .ok () := by
      rw [assert, if_neg hlen]
      intro h
      cases h
    exact ⟨fun _ => .inl hle, fun _ => .inl hstop⟩

/-- A body of nine bytes with an attribute length of 4096. -/
def overlongAttributes : List UInt8 :=
  List.replicate 16 0xff ++ [0, 28, 2] ++ [0, 0, 0x10, 0, 0x40, 1, 1, 0, 8]

theorem sections_overrun :
    HeaderAccepted (bytesMem overlongAttributes) 0 ∧
      4097 > (messageAt (bytesMem overlongAttributes) 0 0).length ∧
      ¬ (messageAt (bytesMem overlongAttributes) 0 0).SectionsAddUp ∧
      ¬ (messageAt (bytesMem overlongAttributes) 0 0).CopyInside (plainEnv true)
          (start (plainEnv true)) := by
  refine ⟨⟨by decide +kernel, by decide +kernel, by decide +kernel⟩, by decide +kernel, ?_, ?_⟩
  · rw [Message.sectionsAddUp_iff]
    decide +kernel
  · intro h
    have ha : ((start (plainEnv true)).routing.slab.alloc (2 ^ 46) 0 (9 + sizeofRoute)).map
        (fun _ => ()) = .ok () := by decide +kernel
    obtain ⟨⟨route, slab⟩, ha, _⟩ := exists_of_map_eq_ok ha
    have hle := h (by decide +kernel) route slab ha
    rw [Nat.add_assoc] at hle
    have hle := Nat.le_of_add_le_add_left hle
    have hroute : sizeofRoute = 40 := rfl
    have hpath : (messageAt (bytesMem overlongAttributes) 0 0).pathattributesLength.toNat =
        4096 := by decide +kernel
    have hbytes : (Size.of ((messageAt (bytesMem overlongAttributes) 0 0).length.toNat +
        sizeofRoute)).bytes = 256 := by decide +kernel
    omega

end FastParse
