import FastParse.Framework.Loop
import FastParse.Phase3.Partition

namespace FastParse

open Framework

variable {e : Halt}

theorem avoids_assert (he : e ≠ .assertion) (p : Prop) [Decidable p] : Avoids e (assert p) := by
  rw [assert]
  split_ifs
  · exact avoids_ok ()
  · intro h
    exact he (Except.error.inj h).symm

theorem avoids_within {p : Prop} [Decidable p] (hp : e = .bounds → p) : Avoids e (within p) := by
  rw [within]
  split_ifs with h
  · exact avoids_ok ()
  · intro hb
    exact h (hp (Except.error.inj hb).symm)

namespace Locals

theorem getLoop_avoids {attrs : Mem} {limit fuel : Nat} {wanted : UInt8} {c : Locals}
    (hfuel : limit - c.r < fuel) : Avoids e (getLoop attrs limit wanted fuel c) := by
  induction fuel generalizing c with
  | zero => exact absurd hfuel (Nat.not_lt_zero _)
  | succ fuel ih =>
    have hvalue := attrHeader_value attrs c.r
    rw [getLoop]
    generalize attrHeader attrs c.r = header at hvalue
    obtain ⟨typeCode, attrLength, value⟩ := header
    simp only at hvalue ⊢
    split_ifs
    · apply ih
      simp only
      omega
    · exact avoids_ok _
    · exact avoids_ok _
    · exact avoids_ok _

theorem get_avoids (c : Locals) (attrs : Mem) (limit : Nat) (wanted : UInt8) :
    Avoids e (c.get attrs limit wanted) := by
  apply getLoop_avoids
  simp only
  omega

theorem set_avoids (he : e ≠ .assertion) (c : Locals) (attrs : Mem) (attrLength : UInt16)
    (flags typeCode : UInt8) (attrPtr : Option Nat) :
    Avoids e (c.set attrs attrLength flags typeCode attrPtr) := by
  cases attrPtr with
  | none =>
    intro h
    exact he (Except.error.inj h).symm
  | some p => exact avoids_ok _

/-- The copy of a path that lacks its segment header has a negative size. -/
theorem prepend_avoids (he : e ≠ .assertion) {c : Locals}
    (hpath : e = .segv → ∀ n, c.found = some n → 2 ≤ n) (attrs : Mem) (as : UInt32) :
    Avoids e (c.prepend attrs as) := by
  rw [prepend]
  rw [found] at hpath
  cases hp : c.attrPtr with
  | none => exact avoids_ok c
  | some p =>
    refine (avoids_assert he _).bind fun _ => (avoids_assert he _).bind fun _ => ?_
    simp only
    split_ifs with hshort
    · intro hs
      have hle := hpath (Except.error.inj hs).symm c.attrLength (by rw [hp]; rfl)
      exact absurd hshort (UInt16.not_lt.mpr hle)
    · exact avoids_ok _

end Locals

theorem serializer_avoids (he : e ≠ .assertion) (kind : Kind) {route : Route}
    (hpath : e = .segv → kind = .ebgp → ∀ n, foundPathLength route = some n → 2 ≤ n) (out : Mem)
    (q : Nat) (limit : UInt16) : Avoids e (kind.serializer route out q limit) := by
  have done (c : Locals) : Avoids e (pure (c.out, c.q) : Exec (Mem × Nat)) := avoids_pure _
  cases kind with
  | ibgp =>
    exact (Locals.get_avoids _ _ _ _).bind fun _ =>
      (Locals.set_avoids he _ _ _ _ _ _).bind fun _ => (Locals.get_avoids _ _ _ _).bind fun _ =>
      (Locals.get_avoids _ _ _ _).bind fun _ => done _
  | ebgp =>
    refine (Locals.get_avoids _ _ _ _).bind_ok fun c1 h1 =>
      (Locals.set_avoids he _ _ _ _ _ _).bind_ok fun c2 h2 =>
      (Locals.get_avoids _ _ _ _).bind_ok fun c3 h3 =>
      (Locals.prepend_avoids he ?_ _ _).bind fun _ =>
      (Locals.get_avoids _ _ _ _).bind fun _ => (Locals.get_avoids _ _ _ _).bind fun _ => done _
    intro hs n hn
    have hat := Locals.set_at (Locals.get_at (localsInit_at route out q) h1).1 h2
    exact hpath hs rfl n ((Locals.get_at hat h3).2.symm.trans hn)
  | copy =>
    exact (Locals.get_avoids _ _ _ _).bind fun _ => (Locals.get_avoids _ _ _ _).bind fun _ =>
      (Locals.get_avoids _ _ _ _).bind fun _ => (Locals.get_avoids _ _ _ _).bind fun _ => done _

theorem buildNlris_avoids (he : e ≠ .assertion) (t : Bigtable) (out : Mem) (txp : Nat)
    (indices : List Nat) : Avoids e (buildNlris t out txp indices) := by
  induction indices generalizing out txp with
  | nil => exact avoids_pure _
  | cons i indices ih =>
    rw [buildNlris]
    exact ((avoids_assert he _).bind fun _ => avoids_pure _).bind fun _ => ih _ _

theorem writeFile_avoids (he : e ≠ .assertion) (disk : Nat → Bool) (pix : Nat) (pg : Peergroup)
    (length : UInt16) (tx : Tx) : Avoids e (writeFile disk pix pg length tx) :=
  Avoids.ite ((avoids_assert he _).bind fun _ => avoids_pure _) (avoids_pure tx)

/-- Every peer group is served by an instance of the template. -/
def Outlet.Templated (o : Outlet) : Prop :=
  ∀ pg ∈ o.peergroups, ∃ kind : Kind, pg.serialize = kind.serializer

/-- Sending the block touches nothing outside `tx_buffer`, and the path that `prepend` copies has
its segment header. -/
structure Contained (o : Outlet) (heap : Ptr → Route) (t : Bigtable) (b : Block) : Prop where
  buffer : InTxBuffer o heap t b
  path : b.route ≠ null → ∀ pg ∈ o.peergroups, pg.serialize = serializeEbgp →
    ∀ n, foundPathLength (heap b.route) = some n → 2 ≤ n

/-- As much of it as keeps the halt `e` away. -/
structure Spared (e : Halt) (o : Outlet) (heap : Ptr → Route) (t : Bigtable) (b : Block) :
    Prop where
  buffer : e = .bounds → InTxBuffer o heap t b
  path : e = .segv → b.route ≠ null → ∀ pg ∈ o.peergroups, pg.serialize = serializeEbgp →
    ∀ n, foundPathLength (heap b.route) = some n → 2 ≤ n

section
variable {o : Outlet} {heap : Ptr → Route} {t : Bigtable}

theorem emitWithdraw_avoids (he : e ≠ .assertion) {indices : List Nat}
    (hin : e = .bounds → 23 + (indices.map fun i => nlriSize (t.bigtable i)).sum + 2 ≤
      txBufferSize) (tx : Tx) :
    Avoids e (emitWithdraw o.disk o.peergroups t indices tx) := by
  refine (buildNlris_avoids he _ _ _ _).bind_ok fun r hr => (avoids_within ?_).bind fun _ =>
    avoids_foldlM (fun _ _ _ => writeFile_avoids he _ _ _ _ _) _
  intro hb
  rw [(buildNlris_ok hr).2, length_nlriSection]
  exact hin hb

theorem emitUpdateTo_avoids (he : e ≠ .assertion) {pg : Peergroup} {kind : Kind} {route : Route}
    {indices : List Nat} (hkind : pg.serialize = kind.serializer)
    (hin : e = .bounds → 23 + exportLength kind route +
      (indices.map fun i => nlriSize (t.bigtable i)).sum ≤ txBufferSize)
    (hpath : e = .segv → kind = .ebgp → ∀ n, foundPathLength route = some n → 2 ≤ n) (pix : Nat)
    (tx : Tx) : Avoids e (emitUpdateTo o.disk t route indices tx pg pix) := by
  have hbuild (out : Mem) : Avoids e (buildUpdate kind.serializer t route indices out) :=
    (serializer_avoids he kind hpath _ _ _).bind fun _ => (buildNlris_avoids he _ _ _ _).bind
      fun _ => avoids_pure _
  rw [emitUpdateTo_eq, hkind]
  refine (hbuild _).bind_ok fun r hr => (avoids_within ?_).bind fun _ =>
    (writeFile_avoids he _ _ _ _ _).bind fun _ => avoids_pure _
  intro hb
  rw [buildUpdate_size hr]
  exact hin hb

theorem emitMessages_avoids (he : e ≠ .assertion) (ho : o.Templated) {route1 : Ptr}
    {indices : List Nat} (hin : Spared e o heap t ⟨route1, indices⟩) (tx : Tx) :
    Avoids e (emitMessages o heap t route1 indices tx) := by
  rw [emitMessages]
  split_ifs with hnull
  · apply emitWithdraw_avoids he
    intro hb
    have hbuffer := hin.buffer hb
    rwa [InTxBuffer, if_pos hnull] at hbuffer
  · apply avoids_foldlM
    rintro ⟨pg, pix⟩ hpg tx
    have hmem := List.fst_mem_of_mem_zipIdx hpg
    obtain ⟨kind, hkind⟩ := ho pg hmem
    apply emitUpdateTo_avoids he hkind
    · intro hb
      have hbuffer := hin.buffer hb
      rw [InTxBuffer, if_neg hnull] at hbuffer
      exact hbuffer pg hmem kind hkind
    · rintro hs rfl
      exact hin.path hs (Ne.symm hnull) pg hmem hkind

theorem fillBlock_avoids (he : e ≠ .assertion) (route1 : Ptr) (room : Nat) (rib : Rib)
    (addrref : Nat) (route2 : Ptr) : Avoids e (fillBlock route1 room rib addrref route2) := by
  induction room generalizing rib addrref route2 with
  | zero =>
    apply Avoids.ite
    · intro h
      exact he (Except.error.inj h).symm
    · exact avoids_ok _
  | succ room ih =>
    rw [fillBlock]
    exact Avoids.ite ((ih _ _ _).bind fun _ => avoids_pure _) (avoids_ok _)

/-- The rounds that start with an entry read ahead: each takes an entry off the journal, and sends
one of its blocks. -/
theorem phase3Loop_avoids (he : e ≠ .assertion) (ho : o.Templated) {fuel addrref : Nat} {rib : Rib}
    {eg : Egress} (hfuel : rib.journal.queue.length < fuel)
    (hn : ∀ a ∈ rib.journal.queue, a ≠ journalEmpty) (ha : addrref ≠ journalEmpty)
    (hhead : ∀ a, rib.head a ≠ emptyPtr)
    (hin : ∀ b ∈ blocksOf rib.head (addrref :: rib.journal.queue), Spared e o heap t b) :
    Avoids e (phase3Loop o heap t fuel addrref (rib.head addrref) rib eg) := by
  induction fuel generalizing addrref rib eg with
  | zero => exact absurd hfuel (Nat.not_lt_zero _)
  | succ fuel ih =>
    rw [phase3Loop, if_neg (hhead addrref).symm]
    simp only [if_neg ha.symm]
    refine Avoids.bind_ok ?_ fun out hr => ?_
    · -- the block that is collected is the first one of the journal
      refine (fillBlock_avoids he _ _ _ _ _).bind_ok fun out hfill =>
        ((emitMessages_avoids he ho ?_ _).bind fun _ => avoids_pure _).bind fun _ => avoids_pure _
      obtain ⟨indices, rib1, next, route⟩ := out
      obtain ⟨taken, rfl, hall, hstop, hne⟩ := fillBlock_spec (hhead addrref) hn hfill
      exact hin _ (hstop.blocks hall hne ▸ List.mem_cons_self)
    · obtain ⟨next, route, rib1, e1⟩ := out
      obtain ⟨taken, hall, hstop, hne, _⟩ := phase3Round_spec (hhead addrref) hn hr
      rw [hstop.blocks hall hne] at hin
      cases hstop with
      | inl hs =>
        simp only [hs.1, ne_eq, not_true, if_false]
        exact avoids_pure _
      | inr hs =>
        obtain ⟨hnext, hq, rfl, hc⟩ := hs
        rw [if_neg hnext] at hin
        simp only [ne_eq, hnext.symm, not_false_eq_true, if_true]
        rw [hq, List.length_append, List.length_cons] at hfuel
        have hrest := @ih next rib1 e1 (by omega) (fun b hb => hn b (by simp [hq, hb])) hnext
        rw [hc.head] at hrest
        exact hrest hhead fun b hb => hin b (List.mem_cons_of_mem _ hb)

theorem schedulePhase3_avoids (he : e ≠ .assertion) (ho : o.Templated) {rib : Rib}
    (hn : ∀ a ∈ rib.journal.queue, a ≠ journalEmpty) (hhead : ∀ a, rib.head a ≠ emptyPtr)
    (hin : ∀ b ∈ blocksOf rib.head rib.journal.queue, Spared e o heap t b)
    (hard : Bool) (eg : Egress) : Avoids e (schedulePhase3 o heap t hard gateInit rib eg) := by
  refine Avoids.ite (avoids_ok _) ((avoids_assert he _).bind fun _ => Avoids.bind ?_ fun _ =>
    (avoids_assert he _).bind fun _ => avoids_pure _)
  have hbig : big = 999999 + 1 := rfl
  cases hq : rib.journal.queue with
  | nil =>
    rw [hbig, phase3Loop, if_pos rfl, pullHead_nil hq]
    exact avoids_ok _
  | cons a rest =>
    have ha : a ≠ journalEmpty := hn a (by simp [hq])
    obtain ⟨rib1, hrest, hc, hprimed⟩ :=
      @phase3Loop_primed o heap t 999999 a rest rib eg hq ha hhead
    rw [hbig, hprimed]
    have hlt : rib1.journal.queue.length < 999999 + 1 := by
      rw [Ring.queue_length]
      exact rib1.journal.size_lt
    have hrib1 := @phase3Loop_avoids e o heap t he ho _ a rib1 eg hlt
      (fun b hb => hn b (by simp [hq, ← hrest, hb])) ha
    rw [hc.head, hrest, ← hq] at hrib1
    rw [hc.head]
    exact hrib1 hhead hin

end

end FastParse
