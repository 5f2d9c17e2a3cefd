import FastParse.Phase3.CopyExport
import FastParse.Phase3.Drain
import FastParse.Phase3.ExportLength
import FastParse.Phase3.Withdrawal

namespace FastParse

open Framework

/-- The journal `indices` in blocks: in order, none of them empty, each with the head of its
indices, and neighbours with different heads. -/
structure Partition (head : Nat → Ptr) (indices : List Nat) (blocks : List Block) : Prop where
  flatten : (blocks.map Block.indices).flatten = indices
  ne_nil : ∀ b ∈ blocks, b.indices ≠ []
  route : ∀ b ∈ blocks, ∀ a ∈ b.indices, b.route = head a
  change : blocks.IsChain fun b b' => b.route ≠ b'.route

theorem blocksOf_partition (head : Nat → Ptr) (indices : List Nat) :
    Partition head indices (blocksOf head indices) := by
  refine ⟨blocksOf_indices head indices, ?_, fun b hb a => route_of_mem_blocksOf hb, ?_⟩
  · intro b hb
    obtain ⟨run, hrun, rfl⟩ := List.mem_map.mp hb
    exact ne_nil_of_mem_runsBy hrun
  · rw [blocksOf, List.isChain_map]
    refine (runsBy_change head indices).imp_of_mem_imp ?_
    intro run run' hrun hrun' hchange
    obtain ⟨a, run, rfl⟩ := List.exists_cons_of_ne_nil (ne_nil_of_mem_runsBy hrun)
    obtain ⟨b, run', rfl⟩ := List.exists_cons_of_ne_nil (ne_nil_of_mem_runsBy hrun')
    exact hchange a List.mem_cons_self b List.mem_cons_self

/-- `lookup_bigtable` takes the index. -/
def Known (t : Bigtable) (index : Nat) : Prop := index < t.bigtableIndex ∨ tooBig = index

instance (t : Bigtable) (index : Nat) : Decidable (Known t index) :=
  inferInstanceAs (Decidable (_ ∨ _))

/-- The peer group has one of the serializers of the template, which completes on the route. -/
def Peergroup.Completes (pg : Peergroup) (route : Route) : Prop :=
  ∃ kind : Kind, pg.serialize = kind.serializer ∧ kind.Completes route.block

/-- Every message of the block ends inside `tx_buffer`. -/
def InTxBuffer (o : Outlet) (heap : Ptr → Route) (t : Bigtable) (b : Block) : Prop :=
  let nlri := (b.indices.map fun i => nlriSize (t.bigtable i)).sum
  if null = b.route then 23 + nlri + 2 ≤ txBufferSize
  else ∀ pg ∈ o.peergroups, ∀ kind : Kind, pg.serialize = kind.serializer →
    23 + exportLength kind (heap b.route) + nlri ≤ txBufferSize

/-- The indices of the block are known, every serializer completes on its route, where a file is
open the writes succeed, and there is room for the messages. -/
structure Emittable (o : Outlet) (heap : Ptr → Route) (t : Bigtable) (b : Block) : Prop where
  known : ∀ a ∈ b.indices, Known t a
  completes : b.route ≠ null → ∀ pg ∈ o.peergroups, pg.Completes (heap b.route)
  written : ∀ pg ∈ o.peergroups, pg.file = true → ∀ k, o.disk k = true
  inside : InTxBuffer o heap t b

section
variable {o : Outlet} {heap : Ptr → Route} {t : Bigtable} {indices : List Nat}

theorem writeFile_returns {disk : Nat → Bool} {pg : Peergroup}
    (h : pg.file = true → ∀ k, disk k = true) (pix : Nat) (length : UInt16) (tx : Tx) :
    ∃ tx', writeFile disk pix pg length tx = .ok tx' := by
  rw [writeFile]
  by_cases hfile : pg.file = true
  · rw [if_pos hfile, assert, if_pos (h hfile _)]
    exact ⟨_, rfl⟩
  · rw [if_neg hfile]
    exact ⟨_, rfl⟩

theorem buildUpdate_returns {kind : Kind} {route : Route} (hknown : ∀ a ∈ indices, Known t a)
    (hroute : kind.Completes route.block) (out : Mem) :
    ∃ r, buildUpdate kind.serializer t route indices out = .ok r := by
  obtain ⟨bs, hbs⟩ := Kind.completes_iff.mpr hroute
  obtain ⟨r, hr⟩ := buildNlris_returns hknown
    (putw16 (overlay out 23 bs) 21 (UInt16.ofNat (23 + bs.length - 23))) (23 + bs.length)
  rw [buildUpdate, hbs out 23 4064]
  simp only [hr, bind, Except.bind]
  exact ⟨_, rfl⟩

theorem emitUpdateTo_returns {pg : Peergroup} {route : Route} (hknown : ∀ a ∈ indices, Known t a)
    (hroute : pg.Completes route) (hfile : pg.file = true → ∀ k, o.disk k = true)
    (hin : ∀ kind : Kind, pg.serialize = kind.serializer →
      23 + exportLength kind route + (indices.map fun i => nlriSize (t.bigtable i)).sum ≤
        txBufferSize) (pix : Nat) (tx : Tx) :
    ∃ tx', emitUpdateTo o.disk t route indices tx pg pix = .ok tx' := by
  obtain ⟨kind, hkind, hcompletes⟩ := hroute
  obtain ⟨⟨out, size⟩, hr⟩ := buildUpdate_returns hknown hcompletes tx.buffer
  have hsize : size ≤ txBufferSize := by
    rw [buildUpdate_size hr]
    exact hin kind hkind
  obtain ⟨tx', htx⟩ := writeFile_returns hfile pix (UInt16.ofNat size) { tx with buffer := out }
  rw [emitUpdateTo_eq, hkind, hr]
  change ∃ tx', (within (size ≤ txBufferSize) >>= _) = Except.ok tx'
  simp only [within_bind hsize, htx]
  exact ⟨_, rfl⟩

theorem emitMessages_returns {route1 : Ptr} (h : Emittable o heap t ⟨route1, indices⟩) (tx : Tx) :
    ∃ tx', emitMessages o heap t route1 indices tx = .ok tx' := by
  have hfile (x : Peergroup × Nat) (hx : x ∈ o.peergroups.zipIdx) :
      x.1.file = true → ∀ k, o.disk k = true := h.written x.1 (List.fst_mem_of_mem_zipIdx hx)
  rw [emitMessages]
  split_ifs with hnull
  · rw [emitWithdraw]
    obtain ⟨r, hr⟩ := buildNlris_returns h.known (Function.update tx.buffer 18 2) 23
    obtain ⟨out, txp⟩ := r
    have hroom : txp + 2 ≤ txBufferSize := by
      have hin := h.inside
      rw [InTxBuffer, if_pos hnull] at hin
      rw [(buildNlris_ok hr).2, length_nlriSection]
      exact hin
    rw [hr]
    change ∃ tx', (within (txp + 2 ≤ txBufferSize) >>= _) = Except.ok tx'
    rw [within_bind hroom]
    apply run_returns
    intro x hx tx
    exact writeFile_returns (hfile x hx) _ _ tx
  · have hin := h.inside
    rw [InTxBuffer, if_neg hnull] at hin
    rw [emitUpdate]
    apply run_returns
    intro x hx tx
    have hpg := List.fst_mem_of_mem_zipIdx hx
    exact emitUpdateTo_returns h.known (h.completes (Ne.symm hnull) x.1 hpg) (hfile x hx)
      (hin x.1 hpg) x.2 tx

theorem withdrawBuffer_behind {buffer : Mem} {bs : List UInt8} {i : Nat}
    (h : 23 + bs.length + 2 ≤ i) : withdrawBuffer buffer bs i = buffer i := by
  have h18 : i ≠ 18 := by omega
  rw [withdrawBuffer, putw16_outside (.inr h), putw16_outside (.inr (by omega)),
    putw16_outside (.inr (by omega)), overlay_outside _ _ (.inr (by omega)),
    Function.update_of_ne h18]

theorem updateBuffer_behind {out : Mem} {bs nlri : List UInt8} {i : Nat}
    (h : 23 + bs.length + nlri.length ≤ i) : updateBuffer out bs nlri i = out i := by
  rw [updateBuffer, putw16_outside (.inr (by omega)), overlay_outside _ _ (.inr h),
    putw16_outside (.inr (by omega)), overlay_outside _ _ (.inr (by omega))]

theorem emitUpdateTo_behind {kind : Kind} {pg : Peergroup} {pix : Nat} {route : Route}
    {tx tx' : Tx} {i : Nat} (hkind : pg.serialize = kind.serializer)
    (hi : 23 + exportLength kind route + (indices.map fun a => nlriSize (t.bigtable a)).sum ≤ i)
    (h : emitUpdateTo o.disk t route indices tx pg pix = .ok tx') :
    tx'.buffer i = tx.buffer i := by
  rw [emitUpdateTo_eq, hkind, bind_eq_ok] at h
  obtain ⟨⟨out, size⟩, hbuild, h⟩ := h
  obtain ⟨bs, hbs⟩ := buildUpdate_exports hbuild
  obtain ⟨hout, hsize⟩ := buildUpdate_ok hbs hbuild
  simp only [bind_eq_ok] at h
  obtain ⟨_, _, tx1, hwrite, h⟩ := h
  cases h
  change tx1.buffer i = tx.buffer i
  rw [(writeFile_buffer hwrite).1, hout]
  apply updateBuffer_behind
  rw [← hsize, buildUpdate_size hbuild]
  exact hi

theorem emitMessages_behind {route1 : Ptr} (hb : Emittable o heap t ⟨route1, indices⟩)
    {tx tx' : Tx} (h : emitMessages o heap t route1 indices tx = .ok tx') {i : Nat}
    (hi : txBufferSize ≤ i) : tx'.buffer i = tx.buffer i := by
  have hin := hb.inside
  rw [InTxBuffer] at hin
  rw [emitMessages] at h
  split_ifs at h hin with hnull
  · rw [emitWithdraw_buffer h]
    apply withdrawBuffer_behind
    rw [length_nlriSection]
    exact hin.trans hi
  · refine run_invariant (I := fun u => u.buffer i = tx.buffer i) ?_ ?_
      (stepsOk_of_forall (fun x hx _ => List.fst_mem_of_mem_zipIdx hx) _) h
    · intro u x v hu hx hv
      obtain ⟨kind, hkind, _⟩ := hb.completes (Ne.symm hnull) x.1 hx
      exact (emitUpdateTo_behind hkind ((hin x.1 hx kind hkind).trans hi) hv).trans hu
    · change putw16 _ _ _ i = _
      have h18 : i ≠ 18 := by
        rintro rfl
        exact absurd hi (by decide)
      rw [putw16_outside (.inr (Nat.le_trans (by decide) hi)), Function.update_of_ne h18]

theorem emitBlock_returns {route1 : Ptr} (h : Emittable o heap t ⟨route1, indices⟩) (e : Egress) :
    ∃ e1, emitBlock o heap t route1 indices e = .ok e1 ∧
      ∀ i, txBufferSize ≤ i → e1.tx.buffer i = e.tx.buffer i := by
  obtain ⟨tx, htx⟩ := emitMessages_returns h e.tx
  refine ⟨⟨tx, e.propagatedPrefixes + indices.length, ⟨route1, indices⟩ :: e.blocks⟩, ?_, ?_⟩
  · simp only [emitBlock, htx, bind, Except.bind]
    rfl
  · intro i hi
    exact emitMessages_behind h htx hi

/-- The inner loop comes to an end when no more entries than there is room for agree with the
first. -/
theorem fillBlock_returns {route1 : Ptr} (h1 : route1 ≠ emptyPtr) {room : Nat} {rib : Rib}
    {addrref : Nat} (hn : ∀ a ∈ rib.journal.queue, a ≠ journalEmpty)
    (hroom : ∀ r, r <+: rib.journal.queue → (∀ a ∈ r, rib.head a = route1) → r.length < room) :
    ∃ out, fillBlock route1 room rib addrref route1 = .ok out := by
  induction room generalizing rib addrref with
  | zero => exact absurd (hroom [] List.nil_prefix (by simp)) (Nat.not_lt_zero _)
  | succ room ih =>
    rw [fillBlock, if_pos rfl]
    cases hq : rib.journal.queue with
    | nil =>
      rw [pullHead_nil hq]
      simp only [fillBlock_other h1.symm, bind, Except.bind]
      exact ⟨_, rfl⟩
    | cons a rest =>
      obtain ⟨rib1, hp, hrest, hc⟩ := pullHead_cons hq (hn a (by simp [hq]))
      rw [hp]
      by_cases heq : rib.head a = route1
      · -- one entry further, with one place less
        have hn1 : ∀ b ∈ rib1.journal.queue, b ≠ journalEmpty := by
          intro b hb
          exact hn b (by simp [hq, ← hrest, hb])
        have hroom1 : ∀ r, r <+: rib1.journal.queue → (∀ b ∈ r, rib1.head b = route1) →
            r.length < room := by
          intro r hr hall
          have hlong := hroom (a :: r) (by
            rw [hq, ← hrest]
            exact (List.prefix_cons_inj a).mpr hr) (by
            intro b hb
            cases List.mem_cons.mp hb with
            | inl e => rw [e, heq]
            | inr hb => rw [← hc.head]; exact hall b hb)
          exact Nat.lt_of_succ_lt_succ hlong
        obtain ⟨out, hout⟩ := @ih rib1 a hn1 hroom1
        simp only [heq, hout, bind, Except.bind]
        exact ⟨_, rfl⟩
      · simp only [fillBlock_other heq, bind, Except.bind]
        exact ⟨_, rfl⟩

theorem Stopped.blocks {rib rib' : Rib} {addrref next : Nat} {taken : List Nat} {route : Ptr}
    (h : Stopped rib taken rib' next route) (hall : ∀ a ∈ taken, rib.head a = rib.head addrref)
    (hne : route ≠ rib.head addrref) :
    blocksOf rib.head (addrref :: rib.journal.queue) = ⟨rib.head addrref, addrref :: taken⟩ ::
      if next = journalEmpty then [] else blocksOf rib.head (next :: rib'.journal.queue) := by
  cases h with
  | inl h =>
    rw [if_pos h.1, h.2.1, blocksOf_const hall]
  | inr h =>
    obtain ⟨hnext, hq, rfl, _⟩ := h
    rw [if_neg hnext, hq, ← List.cons_append, blocksOf_append_cons hall hne]

/-- A round that starts with an entry read ahead goes through if its block leaves. -/
theorem phase3Round_returns {addrref : Nat} {rib : Rib} {e : Egress}
    (hn : ∀ a ∈ rib.journal.queue, a ≠ journalEmpty) (hhead : rib.head addrref ≠ emptyPtr)
    (hruns : RunsAtMost rib.head 4096 (addrref :: rib.journal.queue))
    (hemit : ∀ b ∈ blocksOf rib.head (addrref :: rib.journal.queue), Emittable o heap t b) :
    ∃ taken next route rib1 e1, phase3Round o heap t addrref (rib.head addrref) rib e =
        .ok (next, route, rib1, e1) ∧
      Stopped rib taken rib1 next route ∧
      blocksOf rib.head (addrref :: rib.journal.queue) = ⟨rib.head addrref, addrref :: taken⟩ ::
        (if next = journalEmpty then [] else blocksOf rib.head (next :: rib1.journal.queue)) ∧
      ∀ i, txBufferSize ≤ i → e1.tx.buffer i = e.tx.buffer i := by
  have hroom : ∀ r, r <+: rib.journal.queue → (∀ a ∈ r, rib.head a = rib.head addrref) →
      r.length < 4096 := by
    intro r hr hall
    apply hruns (addrref :: r) ((List.prefix_cons_inj addrref).mpr hr).isInfix
    intro a ha b hb
    have hsame (c : Nat) (hc : c ∈ addrref :: r) : rib.head c = rib.head addrref := by
      cases List.mem_cons.mp hc with
      | inl e => rw [e]
      | inr hc => exact hall c hc
    rw [hsame a ha, hsame b hb]
  obtain ⟨⟨indices, rib1, next, route⟩, hfill⟩ :=
    @fillBlock_returns _ hhead 4096 rib addrref hn hroom
  obtain ⟨taken, rfl, hall, hstop, hne⟩ := fillBlock_spec hhead hn hfill
  have hblocks := hstop.blocks hall hne
  obtain ⟨e1, he, hbehind⟩ := emitBlock_returns (hemit _ (hblocks ▸ List.mem_cons_self)) e
  refine ⟨taken, next, route, rib1, e1, ?_, hstop, hblocks, hbehind⟩
  simp only [phase3Round, hfill, he, bind, Except.bind]
  rfl

/-- The rounds that start with an entry read ahead go through, and write inside `tx_buffer`. -/
theorem phase3Loop_returns {fuel addrref : Nat} {rib : Rib} {e : Egress}
    (hfuel : rib.journal.queue.length < fuel) (hn : ∀ a ∈ rib.journal.queue, a ≠ journalEmpty)
    (ha : addrref ≠ journalEmpty) (hhead : ∀ a, rib.head a ≠ emptyPtr)
    (hruns : RunsAtMost rib.head 4096 (addrref :: rib.journal.queue))
    (hemit : ∀ b ∈ blocksOf rib.head (addrref :: rib.journal.queue), Emittable o heap t b) :
    ∃ rib' e', phase3Loop o heap t fuel addrref (rib.head addrref) rib e = .ok (rib', e') ∧
      ∀ i, txBufferSize ≤ i → e'.tx.buffer i = e.tx.buffer i := by
  induction fuel generalizing addrref rib e with
  | zero => exact absurd hfuel (Nat.not_lt_zero _)
  | succ fuel ih =>
    obtain ⟨taken, next, route, rib1, e1, hr, hstop, hblocks, hbehind⟩ :=
      @phase3Round_returns o heap t addrref rib e hn (hhead addrref) hruns hemit
    rw [hblocks] at hemit
    cases hstop with
    | inl hs =>
      obtain ⟨rfl, _⟩ := hs
      refine ⟨rib1, e1, ?_, hbehind⟩
      rw [phase3Loop, if_neg (hhead addrref).symm]
      simp only [if_neg ha.symm, hr, bind, Except.bind, ne_eq, not_true, if_false]
      rfl
    | inr hs =>
      obtain ⟨hnext, hq, rfl, hc⟩ := hs
      rw [if_neg hnext] at hemit
      -- what is left, with the entry read ahead in front, is the end of the journal
      have hrest : next :: rib1.journal.queue <:+: addrref :: rib.journal.queue := by
        rw [hq, ← List.cons_append]
        exact (List.suffix_append _ _).isInfix
      have hfuel1 : rib1.journal.queue.length < fuel := by
        rw [hq, List.length_append, List.length_cons] at hfuel
        omega
      have hn1 : ∀ a ∈ rib1.journal.queue, a ≠ journalEmpty := by
        intro a ha
        exact hn a (by simp [hq, ha])
      have hrib1 := @ih next rib1 e1 hfuel1 hn1 hnext
      rw [hc.head] at hrib1
      obtain ⟨rib', e', hloop, hbehind'⟩ := hrib1 hhead (hruns.part hrest)
        fun b hb => hemit b (List.mem_cons_of_mem _ hb)
      refine ⟨rib', e', ?_, ?_⟩
      · rw [phase3Loop, if_neg (hhead addrref).symm]
        simp only [if_neg ha.symm, hr, bind, Except.bind, ne_eq, hnext.symm, not_false_eq_true,
          if_true]
        exact hloop
      · intro i hi
        exact (hbehind' i hi).trans (hbehind i hi)

/-- Every assertion of phase 3 on its way through the journal holds. -/
theorem schedulePhase3_returns {hard : Bool} {rib : Rib} {e : Egress}
    (hn : ∀ a ∈ rib.journal.queue, a ≠ journalEmpty) (hhead : ∀ a, rib.head a ≠ emptyPtr)
    (hruns : RunsAtMost rib.head 4096 rib.journal.queue)
    (hemit : ∀ b ∈ blocksOf rib.head rib.journal.queue, Emittable o heap t b) :
    ∃ rib' e', schedulePhase3 o heap t hard gateInit rib e = .ok (gateInit, rib', e') ∧
      ∀ i, txBufferSize ≤ i → e'.tx.buffer i = e.tx.buffer i := by
  have hloop : ∃ rib' e', phase3Loop o heap t big journalEmpty emptyPtr rib e = .ok (rib', e') ∧
      ∀ i, txBufferSize ≤ i → e'.tx.buffer i = e.tx.buffer i := by
    have hbig : big = 999999 + 1 := rfl
    cases hq : rib.journal.queue with
    | nil =>
      refine ⟨rib, e, ?_, fun _ _ => rfl⟩
      rw [hbig, phase3Loop, if_pos rfl, pullHead_nil hq]
      rfl
    | cons a rest =>
      have ha : a ≠ journalEmpty := hn a (by simp [hq])
      obtain ⟨rib1, hrest, hc, hprimed⟩ :=
        @phase3Loop_primed o heap t 999999 a rest rib e hq ha hhead
      rw [hbig, hprimed]
      have hlt : rib1.journal.queue.length < 999999 + 1 := by
        rw [Ring.queue_length]
        exact rib1.journal.size_lt
      have hn1 : ∀ b ∈ rib1.journal.queue, b ≠ journalEmpty := by
        intro b hb
        exact hn b (by simp [hq, ← hrest, hb])
      have hrib1 := @phase3Loop_returns o heap t _ a rib1 e hlt hn1 ha
      rw [hc.head, hrest, ← hq] at hrib1
      rw [hc.head]
      exact hrib1 hhead hruns hemit
  obtain ⟨rib', e', hr, hbehind⟩ := hloop
  refine ⟨rib', e', ?_, hbehind⟩
  rw [schedulePhase3, if_neg (by decide)]
  simp only [hr, assert, gateInit, bind, Except.bind, if_true]
  rfl

end

/-- The journal has left: it is empty, its blocks have been formed and counted, the flags of its
entries are cleared, and the heads are what they were. -/
structure Partitioned (rib : Rib) (e : Egress) (rib' : Rib) (e' : Egress) : Prop where
  queue : rib'.journal.queue = []
  blocks : ∃ blocks, e'.blocks = blocks.reverse ++ e.blocks ∧
    Partition rib.head rib.journal.queue blocks
  propagated : e'.propagatedPrefixes = e.propagatedPrefixes + rib.journal.queue.length
  flag : ∀ a, (rib'.locrib a).pushFlag = true ↔
    (rib.locrib a).pushFlag = true ∧ a ∉ rib.journal.queue
  head : rib'.head = rib.head

theorem Drained.partitioned {rib rib' : Rib} {e e' : Egress}
    (h : Drained rib e rib.journal.queue rib' e') : Partitioned rib e rib' e' :=
  ⟨h.queue, ⟨_, h.blocks, blocksOf_partition rib.head rib.journal.queue⟩, h.propagated, h.flag,
    h.head⟩

/-- A call that gets its lock takes the journal apart into its maximal runs of equal heads when
it returns, and it returns if no assertion stops a block and the messages end inside
`tx_buffer`. -/
theorem journal_partitioned (o : Outlet) (heap : Ptr → Route) (t : Bigtable) (hard : Bool)
    (rib : Rib) (e : Egress) (hn : ∀ a ∈ rib.journal.queue, a ≠ journalEmpty)
    (hhead : ∀ a, rib.head a ≠ emptyPtr) (hruns : RunsAtMost rib.head 4096 rib.journal.queue) :
    (∀ gate' rib' e', schedulePhase3 o heap t hard gateInit rib e = .ok (gate', rib', e') →
      gate' = gateInit ∧ Partitioned rib e rib' e') ∧
    ((∀ b ∈ blocksOf rib.head rib.journal.queue, Emittable o heap t b) →
      ∃ rib' e', schedulePhase3 o heap t hard gateInit rib e = .ok (gateInit, rib', e') ∧
        ∀ i, txBufferSize ≤ i → e'.tx.buffer i = e.tx.buffer i) := by
  refine ⟨?_, schedulePhase3_returns hn hhead hruns⟩
  intro gate' rib' e' hr
  obtain ⟨hgate, hdrained⟩ := schedulePhase3_drained rfl hn hhead hr
  exact ⟨hgate, hdrained.partitioned⟩

def plainBlock : List UInt8 :=
  [0x40, 1, 1, 0] ++ [0x40, 2, 6, 2, 1, 0, 0, 0, 7] ++ [0x40, 3, 4, 10, 0, 0, 1]

def threeQueued : Rib where
  locrib := fun a => ⟨if a = 2 then null else 2 ^ 46, true⟩
  journal := ((locribjInit.push 0).push 1).push 2

/-- 10.0.0.0/8, 11.0.0.0/8 and 12.0.0.0/8. -/
def threePrefixes : Bigtable := ⟨fun _ => 0, fun i => 2 ^ 8 + 10 + i, 3⟩

theorem journal_partitioned_three :
    ∃ rib' e', schedulePhase3 ⟨[⟨serializeIbgp, true⟩], fun _ => true⟩
        (fun _ => blockRoute plainBlock) threePrefixes false gateInit threeQueued
        ⟨txInit, 0, []⟩ = .ok (gateInit, rib', e') ∧
      Partitioned threeQueued ⟨txInit, 0, []⟩ rib' e' ∧
      ∀ i, txBufferSize ≤ i → e'.tx.buffer i = txInit.buffer i := by
  have hblocks : blocksOf threeQueued.head threeQueued.journal.queue =
      [⟨2 ^ 46, [0, 1]⟩, ⟨null, [2]⟩] := by decide +kernel
  have hhead (a : Nat) : threeQueued.head a ≠ emptyPtr := by
    change (if a = 2 then null else 2 ^ 46) ≠ emptyPtr
    split_ifs
    · decide
    · decide
  have hcompletes : Peergroup.Completes ⟨serializeIbgp, true⟩ (blockRoute plainBlock) :=
    ⟨.ibgp, rfl, show OriginFirst _ by decide +kernel⟩
  have hshort : ∀ kind : Kind, 23 + exportLength kind (blockRoute plainBlock) +
      ([0, 1].map fun i => nlriSize (threePrefixes.bigtable i)).sum ≤ txBufferSize := by
    intro kind
    cases kind with
    | ibgp => decide +kernel
    | ebgp => decide +kernel
    | copy => decide +kernel
  have hemit : ∀ b ∈ blocksOf threeQueued.head threeQueued.journal.queue,
      Emittable ⟨[⟨serializeIbgp, true⟩], fun _ => true⟩ (fun _ => blockRoute plainBlock)
        threePrefixes b := by
    intro b hb
    refine ⟨?_, ?_, fun _ _ _ _ => rfl, ?_⟩
    · rw [hblocks] at hb
      revert b
      decide
    · intro _ pg hpg
      obtain rfl := List.mem_singleton.mp hpg
      exact hcompletes
    · rw [hblocks] at hb
      rcases List.mem_pair.mp hb with rfl | rfl
      · rw [InTxBuffer, if_neg (by decide)]
        exact fun _ _ kind _ => hshort kind
      · rw [InTxBuffer, if_pos rfl]
        decide +kernel
  obtain ⟨hpartitioned, hreturns⟩ := journal_partitioned
    ⟨[⟨serializeIbgp, true⟩], fun _ => true⟩ (fun _ => blockRoute plainBlock) threePrefixes false
    threeQueued ⟨txInit, 0, []⟩ (by decide +kernel) hhead
    (runsAtMost_of_length (by decide +kernel))
  obtain ⟨rib', e', hr, hbehind⟩ := hreturns hemit
  exact ⟨rib', e', hr, (hpartitioned _ _ _ hr).2, hbehind⟩

/-- A journal with one entry, whose head is `head`. -/
def oneQueued (head : Ptr) : Rib := ⟨fun _ => ⟨head, true⟩, locribjInit.push 0⟩

def originless : List UInt8 := [0x40, 2, 6, 2, 1, 0, 0, 0, 7] ++ [0x40, 3, 4, 10, 0, 0, 1]

/-- The call stops at an assertion when the index is not in the table, when the write fails, and
when the route has no ORIGIN. -/
theorem phase3_stops :
    (∀ head, head ≠ emptyPtr → (∀ a ∈ (oneQueued head).journal.queue, a ≠ journalEmpty) ∧
      (∀ a, (oneQueued head).head a ≠ emptyPtr) ∧
      RunsAtMost (oneQueued head).head 4096 (oneQueued head).journal.queue) ∧
    schedulePhase3 ⟨peergroups, fun _ => true⟩ (fun _ => blockRoute plainBlock) Bigtable.init false
      gateInit (oneQueued null) ⟨txInit, 0, []⟩ = .error .assertion ∧
    schedulePhase3 ⟨[⟨serializeIbgp, true⟩], fun _ => false⟩ (fun _ => blockRoute plainBlock)
      onePrefix false gateInit (oneQueued null) ⟨txInit, 0, []⟩ = .error .assertion ∧
    schedulePhase3 ⟨peergroups, fun _ => true⟩ (fun _ => blockRoute originless) onePrefix false
      gateInit (oneQueued (2 ^ 46)) ⟨txInit, 0, []⟩ = .error .assertion := by
  refine ⟨?_, ?_, ?_, ?_⟩
  · intro head hne
    have hqueue : (oneQueued head).journal.queue = [0] :=
      show (locribjInit.push 0).queue = [0] by decide +kernel
    rw [hqueue]
    exact ⟨by decide, fun _ => hne, runsAtMost_of_length (by decide)⟩
  · exact eq_error_of_map (f := fun _ => ()) (by decide +kernel)
  · exact eq_error_of_map (f := fun _ => ()) (by decide +kernel)
  · exact eq_error_of_map (f := fun _ => ()) (by decide +kernel)

end FastParse
