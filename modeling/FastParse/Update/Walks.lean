import FastParse.Update.Entries
import FastParse.Update.Buffer
import FastParse.Update.Messages

namespace FastParse

open Framework

/-- The loop of `nlri_iter` reads as it accumulates. -/
def nlriAccReads : Nat → Nat → List Nat
  | 0, _ => []
  | count + 1, p => p :: nlriAccReads count (p + 1)

/-- The addresses that `nlri_iter` reads, in order. -/
def nlriReads (m : Mem) (p : Nat) : List Nat := p :: nlriAccReads (chunkSize (m p).toNat) (p + 1)

/-- By how much `nlri_iter` shifts the address. -/
def nlriShift (m : Mem) (p : Nat) : Int := 8 * (4 - (chunkSize (m p).toNat : Int))

theorem mem_nlriAccReads {count p a : Nat} :
    a ∈ nlriAccReads count p ↔ p ≤ a ∧ a < p + count := by
  induction count generalizing p with
  | zero =>
    rw [nlriAccReads]
    simp only [List.not_mem_nil, false_iff]
    omega
  | succ count ih =>
    rw [nlriAccReads, List.mem_cons, ih]
    omega

theorem mem_nlriReads {m : Mem} {p a : Nat} :
    a ∈ nlriReads m p ↔ p ≤ a ∧ a < (nlriIter m p).2 := by
  have hnext : (nlriIter m p).2 = p + 1 + chunkSize (m p).toNat := rfl
  rw [nlriReads, List.mem_cons, mem_nlriAccReads, hnext]
  omega

theorem nlriAcc_congr {m m' : Mem} {count p : Nat} (acc : Nat)
    (h : ∀ a ∈ nlriAccReads count p, m a = m' a) :
    nlriAcc m count p acc = nlriAcc m' count p acc := by
  induction count generalizing p acc with
  | zero => rfl
  | succ count ih =>
    rw [nlriAccReads] at h
    rw [nlriAcc, nlriAcc, h p List.mem_cons_self]
    apply ih
    intro a ha
    exact h a (List.mem_cons_of_mem p ha)

/-- Nothing else is read. -/
theorem nlriIter_congr {m m' : Mem} {p : Nat} (h : ∀ a ∈ nlriReads m p, m a = m' a) :
    nlriIter m p = nlriIter m' p := by
  have hlength : m p = m' p := h p List.mem_cons_self
  have hacc := nlriAcc_congr 0 fun a ha => h a (List.mem_cons_of_mem p ha)
  rw [hlength] at hacc
  simp only [nlriIter, hlength, hacc]

/-- One call of `nlri_iter` reads in front of `limit` only, and shifts within the 32 bits. -/
structure IterStays (m : Mem) (limit p : Nat) : Prop where
  reads : ∀ a ∈ nlriReads m p, a < limit
  shift : 0 ≤ nlriShift m p ∧ nlriShift m p ≤ 32

section
variable {σ : Type} (m : Mem) (limit : Nat) (body : σ → Nat × Bool → Exec σ) (p : Nat) (s : σ)

/-- Every call of `nlri_iter` that the loop from `p` on, in the state `s`, gets to stays. -/
def CallsStay : Prop :=
  ∀ q t, Reaches (nlriRound m limit body) (p, s) (q, t) → q < limit → IterStays m limit q

/-- Every call stays, and the loop ends on `limit` unless the rest of its body stops the run. -/
structure WalkStays : Prop where
  calls : CallsStay m limit body p s
  ends : ∀ fuel, limit - p < fuel → nlriLoop m limit body fuel p s =
    (nlriWalk m p limit).foldlM body s >>= fun t => .ok (limit, t)

end

/-- A concatenation of entries, of lengths that IPv4 has. -/
def SectionWellFormed (m : Mem) (p size : Nat) : Prop :=
  ∃ entries : List NlriEntry, (∀ e ∈ entries, e.length.toNat ≤ 32) ∧
    slice m p size = encodeSection entries

/-- An entry of such a length that ends in front of `limit` or there. -/
def IntactAt (m : Mem) (limit p : Nat) : Prop := (m p).toNat ≤ 32 ∧ (nlriIter m p).2 ≤ limit

instance (m : Mem) (limit p : Nat) : Decidable (IntactAt m limit p) :=
  inferInstanceAs (Decidable (_ ∧ _))

/-- The intact entries in front of the first other one. -/
def intactEntries (m : Mem) (limit p : Nat) : List (Nat × Bool) :=
  ((entryStations m limit p).takeWhile fun q => IntactAt m limit q).map (entryCall m limit)

/-- On one of them the body stops the run: on an assertion, in a crash or at the end of an array. -/
def StopsIntact {σ : Type} (m : Mem) (limit : Nat) (body : σ → Nat × Bool → Exec σ) (p : Nat)
    (s : σ) : Prop :=
  ∃ halt, (intactEntries m limit p).foldlM body s = .error halt

section
variable {m : Mem} {limit p : Nat}

theorem iterStays_iff : IterStays m limit p ↔ IntactAt m limit p := by
  have hnext : (nlriIter m p).2 = p + 1 + chunkSize (m p).toNat := rfl
  constructor
  · intro h
    have hlast := h.reads ((nlriIter m p).2 - 1) (mem_nlriReads.mpr (by omega))
    have hshift := h.shift.1
    rw [nlriShift, chunkSize] at hshift
    exact ⟨by omega, by omega⟩
  · rintro ⟨hlen, hend⟩
    refine ⟨?_, ?_⟩
    · intro a ha
      exact (mem_nlriReads.mp ha).2.trans_le hend
    · rw [nlriShift, chunkSize]
      omega

theorem tiled_of_intact (hp : p ≤ limit) (h : ∀ q ∈ entryStations m limit p, IntactAt m limit q) :
    SectionTiled m limit p := by
  induction hn : limit - p using Nat.strongRecOn generalizing p with
  | ind n ih =>
    rw [entryStations_eq] at h
    split_ifs at h with hlt
    · have hq := nlriIter_cursor m p
      have hnext := h p List.mem_cons_self
      have hrest := ih (limit - (nlriIter m p).2) (by omega) hnext.2
        (fun q hq => h q (List.mem_cons_of_mem p hq)) rfl
      rw [nlriIter_next] at hrest
      exact .step hlt hrest
    · have e : p = limit := by omega
      rw [e]
      exact .done

theorem sectionWellFormed_empty (m : Mem) (p : Nat) : SectionWellFormed m p 0 := by
  refine ⟨[], ?_, rfl⟩
  intro e he
  cases he

theorem wellFormed_iff {size : Nat} :
    SectionWellFormed m p size ↔
      ∀ q ∈ entryStations m (p + size) p, IntactAt m (p + size) q := by
  constructor
  · rintro ⟨entries, hshort, h⟩
    have hsize : size = (encodeSection entries).length := by rw [← h, length_slice]
    rw [hsize] at h ⊢
    obtain ⟨hland, hentries⟩ := sectionTiled_of_slice h
    intro q hq
    have hmem : entryAt m q ∈ entries := by
      rw [← hentries]
      exact List.mem_map_of_mem hq
    refine ⟨hshort _ hmem, ?_⟩
    rw [nlriIter_next]
    exact Lands.after_le NlriEntry.encode_pos hland hq
  · intro h
    have hslice := (tiled_of_intact (Nat.le_add_right p size) h).slice_eq
    rw [Nat.add_sub_cancel_left] at hslice
    refine ⟨_, ?_, hslice⟩
    intro e he
    obtain ⟨q, hq, rfl⟩ := List.mem_map.mp he
    exact (h q hq).1

end

section
variable {σ : Type} {m : Mem} {limit : Nat} {body : σ → Nat × Bool → Exec σ}

theorem reaches_cons {p : Nat} (hp : p < limit) {s : σ} {r : Nat × σ} :
    Reaches (nlriRound m limit body) (p, s) r ↔
      r = (p, s) ∨ ∃ t, body s (entryCall m limit p) = .ok t ∧
        Reaches (nlriRound m limit body) ((nlriIter m p).2, t) r := by
  rw [Reaches, Relation.ReflTransGen.cases_head_iff]
  apply or_congr eq_comm
  constructor
  · rintro ⟨u, hu, hr⟩
    rw [nlriRound_next hp, bind_eq_ok] at hu
    obtain ⟨t, ht, hu⟩ := hu
    cases hu
    exact ⟨t, ht, hr⟩
  · rintro ⟨t, ht, hr⟩
    refine ⟨_, ?_, hr⟩
    rw [nlriRound_next hp, ht]
    rfl

theorem callsStay_end {p : Nat} (hp : ¬ p < limit) (s : σ) : CallsStay m limit body p s := by
  intro q t hreach hlt
  rcases Relation.ReflTransGen.cases_head hreach with e | ⟨u, hu, _⟩
  · cases e
    exact absurd hlt hp
  · rw [nlriRound_stop hp] at hu
    cases hu

/-- The call at `p`, and those from the next entry on if the body lets the loop get there. -/
theorem callsStay_next {p : Nat} (hp : p < limit) (s : σ) :
    CallsStay m limit body p s ↔ IntactAt m limit p ∧
      ∀ t, body s (entryCall m limit p) = .ok t → CallsStay m limit body (nlriIter m p).2 t := by
  constructor
  · intro h
    refine ⟨iterStays_iff.mp (h p s .refl hp), ?_⟩
    intro t hbody q u hreach
    exact h q u ((reaches_cons hp).mpr (.inr ⟨t, hbody, hreach⟩))
  · rintro ⟨hintact, hrest⟩ q u hreach hq
    rcases (reaches_cons hp).mp hreach with e | ⟨t, hbody, hreach⟩
    · cases e
      exact iterStays_iff.mpr hintact
    · exact hrest t hbody q u hreach hq

/-- Every call stays if every entry is intact, or the loop does not get beyond those that are. -/
theorem callsStay_iff (p : Nat) (s : σ) :
    CallsStay m limit body p s ↔
      (∀ q ∈ entryStations m limit p, IntactAt m limit q) ∨ StopsIntact m limit body p s := by
  induction hn : limit - p using Nat.strongRecOn generalizing p s with
  | ind n ih =>
    rw [StopsIntact, intactEntries, entryStations_eq]
    split_ifs with hp
    · have hq := nlriIter_cursor m p
      rw [callsStay_next hp, List.forall_mem_cons]
      by_cases hintact : IntactAt m limit p
      · rw [List.takeWhile_cons_of_pos (by simpa using hintact), List.map_cons, List.foldlM_cons]
        cases hbody : body s (entryCall m limit p) with
        | error halt => simp [hintact, bind, Except.bind]
        | ok t =>
          have hrest := ih (limit - (nlriIter m p).2) (by omega) (nlriIter m p).2 t rfl
          rw [StopsIntact, intactEntries] at hrest
          simp only [hintact, true_and, Except.ok.injEq, forall_eq', hrest]
          rfl
      · rw [List.takeWhile_cons_of_neg (by simpa using hintact)]
        simp [hintact, pure, Except.pure]
    · simp [callsStay_end hp s]

/-- A run that stops on an intact entry does not get through the section. -/
theorem StopsIntact.walk {p : Nat} {s : σ} (h : StopsIntact m limit body p s) :
    ∃ halt, (nlriWalk m p limit).foldlM body s = .error halt := by
  obtain ⟨halt, hstop⟩ := h
  have hsplit := @List.takeWhile_append_dropWhile _
    (fun q => decide (IntactAt m limit q)) (entryStations m limit p)
  refine ⟨halt, ?_⟩
  rw [nlriWalk_stations, ← hsplit, List.map_append, List.foldlM_append, ← intactEntries, hstop]
  rfl

theorem walkStays_iff (p size : Nat) (s : σ) :
    WalkStays m (p + size) body p s ↔
      SectionWellFormed m p size ∨ StopsIntact m (p + size) body p s := by
  rw [wellFormed_iff, ← callsStay_iff]
  constructor
  · intro h
    exact h.calls
  · intro h
    refine ⟨h, ?_⟩
    intro fuel hfuel
    obtain ⟨q, htiled, hloop⟩ := @nlriLoop_eq σ m (p + size) body p
    rw [hloop fuel hfuel]
    rcases (callsStay_iff p s).mp h with hintact | hstop
    · rw [htiled.mp (tiled_of_intact (Nat.le_add_right p size) hintact)]
    · obtain ⟨halt, hall⟩ := hstop.walk
      rw [hall]
      rfl

end

namespace State

/-- `parse_update` gets to the loop with this body, over `size` bytes from `p` on, in the
state `t`. -/
inductive Walks (env : Env) (s : State) (msg : Message) :
    (State → Nat × Bool → Exec State) → Nat → Nat → State → Prop where
  | announced {route : Ptr} {s1 : State} : 4097 > msg.length →
      ¬ (0 = msg.nlriLength ∧ 0 = msg.withdrawLength) →
      messageRoute env { s with msgCount := s.msgCount + 1 } msg = .ok (route, s1) →
      Walks env s msg (nlriStep env msg.peer route) msg.nlri msg.nlriLength.toNat s1
  | withdrawn {route : Ptr} {s1 s2 : State} : 4097 > msg.length →
      ¬ (0 = msg.nlriLength ∧ 0 = msg.withdrawLength) →
      messageRoute env { s with msgCount := s.msgCount + 1 } msg = .ok (route, s1) →
      msg.announced.foldlM (nlriStep env msg.peer route) s1 = .ok s2 →
      Walks env s msg (withdrawStep env msg.peer) msg.withdrawn msg.withdrawLength.toNat s2

/-- Every loop that `parse_update` gets to stays in its section. -/
def WalksStay (env : Env) (s : State) (msg : Message) : Prop :=
  ∀ body p size t, Walks env s msg body p size t → WalkStays msg.mem (p + size) body p t

/-- Every section that is walked is well formed, or the run stops in front of its first entry
that is not intact. -/
def SectionsIntact (env : Env) (s : State) (msg : Message) : Prop :=
  ∀ body p size t, Walks env s msg body p size t →
    SectionWellFormed msg.mem p size ∨ StopsIntact msg.mem (p + size) body p t

end State

/-- On messages that `parse_update` gets through, the two sections alone decide. -/
theorem prefix_walks_stay_iff (env : Env) (s : State) (msg : Message) :
    (s.WalksStay env msg ↔ s.SectionsIntact env msg) ∧
      ∀ s', s.parseUpdate env msg = .ok s' →
        (s.WalksStay env msg ↔
          SectionWellFormed msg.mem msg.nlri msg.nlriLength.toNat ∧
            SectionWellFormed msg.mem msg.withdrawn msg.withdrawLength.toNat) := by
  have hall : s.WalksStay env msg ↔ s.SectionsIntact env msg := by
    constructor
    · intro h body p size t hw
      exact (walkStays_iff p size t).mp (h body p size t hw)
    · intro h body p size t hw
      exact (walkStays_iff p size t).mpr (h body p size t hw)
  refine ⟨hall, ?_⟩
  intro s' h
  rw [hall]
  obtain ⟨hlen, ⟨⟨hn, hw⟩, _⟩ | ⟨hmore, r, s1, s2, hr, ha, hw⟩⟩ := State.parseUpdate_cases h
  · -- neither loop is entered, and both sections are empty
    constructor
    · intro _
      rw [← hn, ← hw]
      exact ⟨sectionWellFormed_empty _ _, sectionWellFormed_empty _ _⟩
    · intro _ body p size t hwalk
      cases hwalk with
      | announced _ hmore _ => exact absurd ⟨hn, hw⟩ hmore
      | withdrawn _ hmore _ _ => exact absurd ⟨hn, hw⟩ hmore
  · constructor
    · intro hintact
      have hthrough {body : State → Nat × Bool → Exec State} {p size : Nat} {t t' : State}
          (hwalk : State.Walks env s msg body p size t)
          (hok : (nlriWalk msg.mem p (p + size)).foldlM body t = .ok t') :
          SectionWellFormed msg.mem p size := by
        apply (hintact body p size t hwalk).resolve_right
        intro hstop
        obtain ⟨halt, herror⟩ := hstop.walk
        rw [hok] at herror
        cases herror
      exact ⟨hthrough (.announced hlen hmore hr) ha, hthrough (.withdrawn hlen hmore hr ha) hw⟩
    · rintro ⟨hannounced, hwithdrawn⟩ body p size t hwalk
      cases hwalk with
      | announced _ _ _ => exact .inl hannounced
      | withdrawn _ _ _ _ => exact .inl hwithdrawn

/-- A section of one byte announces a prefix of eight bits, and its address byte is read behind
the message. -/
theorem truncated_prefix_read :
    (updateMessage 0 [] [] [8]).withdrawLength.toNat +
        (updateMessage 0 [] [] [8]).pathattributesLength.toNat + 4 ≤
      (updateMessage 0 [] [] [8]).length.toNat ∧
    ¬ (start (plainEnv true)).WalksStay (plainEnv true) (updateMessage 0 [] [] [8]) := by
  refine ⟨by decide, ?_⟩
  intro h
  have hstays := (h _ _ _ _ (.announced (by decide) (by decide) rfl)).calls _ _ .refl (by decide)
  have hread := hstays.reads 5 (by decide)
  revert hread
  decide

end FastParse
