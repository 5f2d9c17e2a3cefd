import FastParse.Locrib.Entry

namespace FastParse

open Framework

/-- `producer i` is the index between that thread's `LOCRIB` update and its journal push,
`consumer` the index pulled and not read yet, `lastRead` what the consumer last read. -/
structure Threads (ι : Type) where
  rib : Rib
  producer : ι → Option Nat
  consumer : Option Nat
  lastRead : Nat → Ptr

namespace Threads

variable {ι : Type}

def init : Threads ι := ⟨locribInit, fun _ => none, none, fun _ => null⟩

/-- Routes may change and be reused between steps, so each update reads its own `tb`. -/
inductive Step [DecidableEq ι] : Threads ι → Threads ι → Prop
  | update (s : Threads ι) (i : ι) (tb : Ptr → Tiebreak) (a : Nat) (new : Ptr)
      (upd junk : Bool) : s.producer i = none →
      Step s ⟨⟨Function.update s.rib.locrib a
          (locribSection tb (s.rib.locrib a) new upd junk).1, s.rib.journal⟩,
        Function.update s.producer i
          (if (locribSection tb (s.rib.locrib a) new upd junk).2 then none else some a),
        s.consumer, s.lastRead⟩
  | push (s : Threads ι) (i : ι) (a : Nat) (j : Journal) : s.producer i = some a →
      locribjPush s.rib.journal a = .ok j →
      Step s ⟨⟨s.rib.locrib, j⟩, Function.update s.producer i none, s.consumer, s.lastRead⟩
  | pull (s : Threads ι) : s.consumer = none →
      Step s ⟨⟨s.rib.locrib, (locribjPull s.rib.journal).2⟩, s.producer,
        if (locribjPull s.rib.journal).1 = journalEmpty then none
          else some (locribjPull s.rib.journal).1, s.lastRead⟩
  | readAndClear (s : Threads ι) (a : Nat) : s.consumer = some a →
      Step s ⟨(readAndClear s.rib a).2, s.producer, none,
        Function.update s.lastRead a (readAndClear s.rib a).1⟩

/-- The threads as writers and reader of a flagged queue. -/
def flagged (s : Threads ι) : FlagQueue Nat Ptr ι where
  value a := (s.rib.locrib a).head
  flag a := (s.rib.locrib a).pushFlag
  queue := s.rib.journal.queue
  pending := s.producer
  taken := s.consumer
  seen := s.lastRead

/-- Nothing in the journal reads like the empty-journal value. -/
def Named (s : Threads ι) : Prop := ∀ a ∈ s.rib.journal.queue, a ≠ journalEmpty

section
variable [DecidableEq ι]

theorem Step.named {s t : Threads ι} (h : Step s t) (hs : s.Named) : t.Named := by
  cases h with
  | update i tb a new upd junk hi => exact hs
  | push i a j hi hj =>
    obtain ⟨ha, hq⟩ := locribjPush_ok hj
    intro b hb
    simp only [hq, List.mem_append, List.mem_singleton] at hb
    rcases hb with hb | rfl
    · exact hs b hb
    · exact ha
  | pull hn =>
    cases hq : s.rib.journal.queue with
    | nil =>
      intro b hb
      simp only [locribjPull_nil hq, hq] at hb
      simp at hb
    | cons a rest =>
      obtain ⟨j, hj, hr⟩ := locribjPull_cons hq
      intro b hb
      simp only [hj, hr] at hb
      exact hs b (by simp [hq, hb])
  | readAndClear a ha => exact hs

/-- Every step of the threads is a step of the flagged queue, or changes none of it. -/
theorem Step.flagged {s t : Threads ι} (h : Step s t) (hs : s.Named) :
    Relation.ReflTransGen (FlagQueue.Step true) s.flagged t.flagged := by
  cases h with
  | update i tb a new upd junk hi =>
    by_cases hp : Pushes tb (s.rib.locrib a) new upd
    · have hw := @FlagQueue.Step.write Nat Ptr ι _ _ true s.flagged i a new hi
      have hv := heads_update s.rib.locrib a ⟨new, true⟩
      have hf := flags_update s.rib.locrib a ⟨new, true⟩
      apply Relation.ReflTransGen.single
      simp only [Threads.flagged, locribSection_push hp, hv, hf] at hw ⊢
      exact hw
    · cases junk with
      | true =>
        have e : Function.update s.producer i none = s.producer := by
          rw [← hi, Function.update_eq_self]
        simp [Threads.flagged, locribSection_keep hp, e, Relation.ReflTransGen.refl]
      | false =>
        have hr := @FlagQueue.Step.request Nat Ptr ι _ _ true s.flagged i a rfl hi
        apply Relation.ReflTransGen.single
        simpa [Threads.flagged, locribSection_keep hp] using hr
  | push i a j hi hj =>
    apply Relation.ReflTransGen.single
    have he := @FlagQueue.Step.enqueue Nat Ptr ι _ _ true s.flagged i a hi
    simpa [Threads.flagged, (locribjPush_ok hj).2] using he
  | pull hn =>
    cases hq : s.rib.journal.queue with
    | nil =>
      simp [Threads.flagged, locribjPull_nil hq, hn, Relation.ReflTransGen.refl]
    | cons a rest =>
      obtain ⟨j, hj, hr⟩ := locribjPull_cons hq
      have ha : a ≠ journalEmpty := hs a (by simp [hq])
      apply Relation.ReflTransGen.single
      have ht := @FlagQueue.Step.take Nat Ptr ι _ _ true s.flagged a rest hq hn
      simpa [Threads.flagged, hj, hr, ha] using ht
  | readAndClear a ha =>
    apply Relation.ReflTransGen.single
    have hr := @FlagQueue.Step.read Nat Ptr ι _ _ true s.flagged a ha
    have hv := heads_update s.rib.locrib a { s.rib.locrib a with pushFlag := false }
    rw [Function.update_eq_self] at hv
    have hf := flags_update s.rib.locrib a { s.rib.locrib a with pushFlag := false }
    simpa [Threads.flagged, FastParse.readAndClear, hv, hf] using hr

theorem reachable_tracked {s : Threads ι} (h : Relation.ReflTransGen Step init s) :
    s.Named ∧ s.flagged.Tracked := by
  induction h with
  | refl =>
    have hq : locribInit.journal.queue = [] := Ring.queue_init _ _
    refine ⟨?_, ?_, ?_⟩
    · intro a ha
      simp [init, hq] at ha
    · intro a ha
      simp [Threads.flagged, init, locribInit] at ha
    · intro a ha
      exact absurd rfl ha
  | tail _ hst ih => exact ⟨hst.named ih.1, ih.2.steps (hst.flagged ih.1)⟩

/-- In every interleaving a head the consumer has not read yet is in the journal, or in the
hands of a producer on its way there, or pulled and about to be read. -/
theorem no_update_lost (s : Threads ι) (h : Relation.ReflTransGen Step init s) (a : Nat)
    (ha : (s.rib.locrib a).head ≠ s.lastRead a) :
    a ∈ s.rib.journal.queue ∨ (∃ i, s.producer i = some a) ∨ s.consumer = some a :=
  (reachable_tracked h).2.no_lost_update ha

end

/-- One thread has set the head of index 7 and not pushed it yet. -/
theorem no_update_lost_midway :
    ∃ s : Threads (Fin 2), (s.rib.locrib 7).head = 256 ∧
      (7 ∈ s.rib.journal.queue ∨ (∃ i, s.producer i = some 7) ∨ s.consumer = some 7) := by
  have hst := Step.update (ι := Fin 2) init 0 (fun _ => ⟨0, 0, 0, 0, 0, 0, 0, 0⟩) 7 256 true false
    rfl
  exact ⟨_, rfl, no_update_lost _ (Relation.ReflTransGen.single hst) 7 (by decide)⟩

end Threads

end FastParse
