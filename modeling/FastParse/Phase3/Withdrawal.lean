import FastParse.Phase3.Layout
import FastParse.Update.Parse

namespace FastParse

open Framework

/-- The body of the message in `tx_buffer`, as `buf_parse_peer` hands it to `parse_update`. -/
def txMessage (pn : Fin npeers) (m : Mem) : Message := ⟨pn, m, 19, getw16 m 16 - 19⟩

def Message.withdrawnBytes (msg : Message) : List UInt8 :=
  slice msg.mem msg.withdrawn msg.withdrawLength.toNat

/-- The message in `m` withdraws the prefixes of the indices and says nothing else. -/
structure SaysWithdrawn (t : Bigtable) (indices : List Nat) (pn : Fin npeers) (m : Mem) : Prop where
  withdrawn : (txMessage pn m).withdrawnBytes = nlriSection t indices
  attributes : (txMessage pn m).pathattributesLength = 0
  nlri : (txMessage pn m).nlriLength = 0

/-- What the branch makes of `tx_buffer` for the prefixes `bs`. -/
def withdrawBuffer (buffer : Mem) (bs : List UInt8) : Mem :=
  let withdrawLength := UInt16.ofNat (bs.length + 2)
  let out := overlay (Function.update buffer 18 2) 23 bs
  putw16 (putw16 (putw16 out 16 (withdrawLength + 23)) 19 withdrawLength) (23 + bs.length) 0

theorem emitWithdraw_buffer {disk : Nat → Bool} {pgs : List Peergroup} {t : Bigtable}
    {indices : List Nat} {tx tx' : Tx} (h : emitWithdraw disk pgs t indices tx = .ok tx') :
    tx'.buffer = withdrawBuffer tx.buffer (nlriSection t indices) := by
  rw [emitWithdraw, bind_eq_ok] at h
  obtain ⟨⟨out, txp⟩, hb, h⟩ := h
  obtain ⟨rfl, rfl⟩ := buildNlris_ok hb
  rw [within_bind_ok] at h
  obtain ⟨_, h⟩ := h
  have hlen : 23 + (nlriSection t indices).length - 21 = (nlriSection t indices).length + 2 := by
    omega
  simp only [hlen] at h
  refine run_keeps (I := fun s : Tx => s.buffer = _) ?_ ?_ h
  · intro s x s' hs hst
    rw [(writeFile_buffer hst).1, hs]
  · rfl

theorem withdrawBuffer_prefixes (buffer : Mem) (bs : List UInt8) :
    slice (withdrawBuffer buffer bs) 23 bs.length = bs := by
  rw [withdrawBuffer, putw16_eq, putw16_eq, putw16_eq]
  rw [slice_overlay_outside _ _ (.inl (Nat.le_refl _)),
    slice_overlay_outside _ _ (.inr (by rw [length_bytes16]; decide)),
    slice_overlay_outside _ _ (.inr (by rw [length_bytes16]; decide))]
  exact slice_overlay _ _ _

/-- Nothing is written between the length field and the prefixes. -/
theorem withdrawBuffer_gap (buffer : Mem) (bs : List UInt8) {i : Nat} (h : 21 ≤ i) (h' : i < 23) :
    withdrawBuffer buffer bs i = buffer i := by
  have hend : i < 23 + bs.length := by omega
  have h19 : 19 + 2 ≤ i := h
  have h16 : 16 + 2 ≤ i := by omega
  have h18 : i ≠ 18 := by omega
  rw [withdrawBuffer, putw16_outside (.inl hend), putw16_outside (.inr h19),
    putw16_outside (.inr h16), overlay_outside _ _ (.inl h'), Function.update_of_ne h18]

theorem withdrawBuffer_length (buffer : Mem) (bs : List UInt8) :
    getw16 (withdrawBuffer buffer bs) 19 = UInt16.ofNat (bs.length + 2) := by
  have h19 : 19 < 23 + bs.length := by omega
  have h20 : 19 + 1 < 23 + bs.length := by omega
  rw [withdrawBuffer, getw16_congr (putw16_outside (.inl h19)) (putw16_outside (.inl h20))]
  exact getw16_putw16 _ _ _

/-- The section begins two bytes before the prefixes: with what was in the buffer there. -/
theorem withdrawBuffer_section (buffer : Mem) (bs : List UInt8) :
    slice (withdrawBuffer buffer bs) 21 (2 + bs.length) = buffer 21 :: buffer 22 :: bs := by
  have hprefixes : slice (withdrawBuffer buffer bs) (21 + 2) bs.length = bs :=
    withdrawBuffer_prefixes buffer bs
  rw [slice_add, hprefixes, slice_succ, slice_succ, slice_zero,
    withdrawBuffer_gap buffer bs (by decide) (by decide),
    withdrawBuffer_gap buffer bs (by decide) (by decide)]
  rfl

/-- What the reader takes for withdrawn routes starts with two bytes of an earlier message. -/
theorem withdrawn_stale {disk : Nat → Bool} {pgs : List Peergroup} {t : Bigtable}
    {indices : List Nat} {tx tx' : Tx} (pn : Fin npeers)
    (h : emitWithdraw disk pgs t indices tx = .ok tx')
    (hfits : (nlriSection t indices).length + 2 < 2 ^ 16) :
    (txMessage pn tx'.buffer).withdrawnBytes =
      tx.buffer 21 :: tx.buffer 22 :: nlriSection t indices := by
  have hlen : ((txMessage pn tx'.buffer).withdrawLength).toNat =
      2 + (nlriSection t indices).length := by
    rw [txMessage, Message.withdrawLength, emitWithdraw_buffer h, withdrawBuffer_length,
      UInt16.toNat_ofNat', Nat.mod_eq_of_lt hfits, Nat.add_comm]
  rw [Message.withdrawnBytes, hlen, emitWithdraw_buffer h]
  exact withdrawBuffer_section tx.buffer (nlriSection t indices)

/-- For no block and no earlier content of the buffer does the message say exactly what was
withdrawn: its section is always two bytes longer than the prefixes. -/
theorem withdraw_never_exact (disk : Nat → Bool) (pgs : List Peergroup) (t : Bigtable)
    (indices : List Nat) (tx : Tx) (pn : Fin npeers) :
    ¬ ∃ tx', emitWithdraw disk pgs t indices tx = .ok tx' ∧
      SaysWithdrawn t indices pn tx'.buffer := by
  intro hex
  obtain ⟨tx', h, hblock⟩ := hex
  have hlen := congrArg List.length hblock.withdrawn
  rw [Message.withdrawnBytes, length_slice, txMessage, Message.withdrawLength,
    emitWithdraw_buffer h, withdrawBuffer_length, UInt16.toNat_ofNat'] at hlen
  generalize (nlriSection t indices).length = n at hlen
  change (n + 2) % 65536 = n at hlen
  omega

/-- 11.0.0.0/8 at index 0. -/
def onePrefix : Bigtable := ⟨fun _ => 0, fun _ => 2 ^ 8 + 11, 1⟩

/-- `tx_buffer` after an update whose attributes were 20 bytes long. -/
def txUsed : Tx := { txInit with buffer := putw16 txInit.buffer 21 20 }

/-- The withdrawn routes begin with the old length field. -/
theorem stale_bytes_withdrawn :
    ∃ tx', emitWithdraw (fun _ => true) peergroups onePrefix [0] txUsed = .ok tx' ∧
      (txMessage 0 tx'.buffer).withdrawnBytes = [0, 20, 8, 11] ∧
      ¬ SaysWithdrawn onePrefix [0] 0 tx'.buffer := by
  have hr : (emitWithdraw (fun _ => true) peergroups onePrefix [0] txUsed).map
      (fun tx' => (txMessage 0 tx'.buffer).withdrawnBytes) = .ok [0, 20, 8, 11] := by decide
  obtain ⟨tx', h, e⟩ := exists_of_map_eq_ok hr
  refine ⟨tx', h, e, ?_⟩
  intro hblock
  rw [hblock.withdrawn] at e
  exact absurd e (by decide)

end FastParse
