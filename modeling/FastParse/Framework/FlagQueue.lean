import Mathlib.Logic.Function.Basic
import Mathlib.Logic.Relation
import Mathlib.Tactic.Common

namespace FastParse.Framework

/-- `pending i` is the key writer `i` still has to queue, `taken` the key the
reader has taken but not read yet, `seen` what the reader last read. -/
structure FlagQueue (κ ν ι : Type) where
  value : κ → ν
  flag : κ → Bool
  queue : List κ
  pending : ι → Option κ
  taken : Option κ
  seen : κ → ν

namespace FlagQueue

variable {κ ν ι : Type}

/-- Somebody still has to deal with `k`. -/
def Waiting (s : FlagQueue κ ν ι) (k : κ) : Prop :=
  k ∈ s.queue ∨ (∃ i, s.pending i = some k) ∨ s.taken = some k

/-- A raised flag has a witness, and a value the reader has not seen has a flag. -/
structure Tracked (s : FlagQueue κ ν ι) : Prop where
  waiting : ∀ k, s.flag k = true → s.Waiting k
  flagged : ∀ k, s.value k ≠ s.seen k → s.flag k = true

/-- No update is lost: a value the reader has not seen is still waiting for it. -/
theorem Tracked.no_lost_update {s : FlagQueue κ ν ι} (h : s.Tracked) {k : κ}
    (hk : s.value k ≠ s.seen k) : s.Waiting k :=
  h.waiting k (h.flagged k hk)

/-- Every key is waiting at most once, and only under a raised flag. -/
structure Exclusive (s : FlagQueue κ ν ι) : Prop where
  nodup : s.queue.Nodup
  flag_queue : ∀ k ∈ s.queue, s.flag k = true
  flag_pending : ∀ i k, s.pending i = some k → s.flag k = true
  flag_taken : ∀ k, s.taken = some k → s.flag k = true
  pending_queue : ∀ i k, s.pending i = some k → k ∉ s.queue
  pending_taken : ∀ i k, s.pending i = some k → s.taken ≠ some k
  pending_pending : ∀ i j k, s.pending i = some k → s.pending j = some k → i = j
  taken_queue : ∀ k, s.taken = some k → k ∉ s.queue

theorem Exclusive.not_waiting {s : FlagQueue κ ν ι} (h : s.Exclusive) {k : κ}
    (hk : s.flag k = false) : ¬ s.Waiting k := by
  rintro (hq | ⟨i, hi⟩ | ht)
  · simp [h.flag_queue k hq] at hk
  · simp [h.flag_pending i k hi] at hk
  · simp [h.flag_taken k ht] at hk

/-- The first key of the queue waits in the reader's hands from now on. -/
theorem Waiting.take {s : FlagQueue κ ν ι} {k a : κ} {rest : List κ} (h : s.Waiting a)
    (hq : s.queue = k :: rest) (hn : s.taken = none) :
    Waiting { s with queue := rest, taken := some k } a := by
  rcases h with hm | hp | ht
  · rw [hq] at hm
    rcases List.mem_cons.mp hm with rfl | hm
    · exact .inr (.inr rfl)
    · exact .inl hm
  · exact .inr (.inl hp)
  · simp [hn] at ht

theorem Waiting.read {s : FlagQueue κ ν ι} {k a : κ} (h : s.Waiting a) (hk : s.taken = some k)
    (hne : a ≠ k) : Waiting { s with taken := none } a := by
  rcases h with hq | hp | ht
  · exact .inl hq
  · exact .inr (.inl hp)
  · have e : k = a := by simpa [hk] using ht
    exact absurd e.symm hne

variable [DecidableEq ι]

/-- What is waiting stays so while idle writer `i` moves. -/
theorem Waiting.idle {s : FlagQueue κ ν ι} {i : ι} {o : Option κ} {a : κ} (h : s.Waiting a)
    (hi : s.pending i = none) :
    Waiting { s with pending := Function.update s.pending i o } a := by
  rcases h with hq | ⟨j, hj⟩ | ht
  · exact .inl hq
  · have hne : j ≠ i := by intro e; simp [e, hi] at hj
    exact .inr (.inl ⟨j, by simpa [Function.update_of_ne hne] using hj⟩)
  · exact .inr (.inr ht)

/-- The pending key of writer `i` waits in the queue from now on. -/
theorem Waiting.enqueue {s : FlagQueue κ ν ι} {i : ι} {k a : κ} (h : s.Waiting a)
    (hi : s.pending i = some k) :
    Waiting { s with
      queue := s.queue ++ [k]
      pending := Function.update s.pending i none } a := by
  rcases h with hq | ⟨j, hj⟩ | ht
  · exact .inl (List.mem_append_left [k] hq)
  · by_cases hji : j = i
    · have hak : k = a := by simpa [hji, hi] using hj
      exact .inl (by simp [hak])
    · exact .inr (.inl ⟨j, by simp [Function.update_of_ne hji, hj]⟩)
  · exact .inr (.inr ht)

/-- The keys of the other writers are untouched when writer `i` changes its own. -/
private theorem pending_update {p : ι → Option κ} {i j : ι} {o : Option κ} {a : κ}
    (h : Function.update p i o j = some a) : j = i ∧ o = some a ∨ j ≠ i ∧ p j = some a := by
  by_cases e : j = i
  · subst j
    exact .inl ⟨rfl, by simpa using h⟩
  · exact .inr ⟨e, by simpa [Function.update_of_ne e] using h⟩

theorem Exclusive.enqueue {s : FlagQueue κ ν ι} (h : s.Exclusive) (i : ι) (k : κ)
    (hi : s.pending i = some k) :
    Exclusive { s with
      queue := s.queue ++ [k]
      pending := Function.update s.pending i none } := by
  have hfresh := h.pending_queue i k hi
  refine ⟨?_, ?_, ?_, h.flag_taken, ?_, ?_, ?_, ?_⟩
  · exact List.nodup_append.mpr ⟨h.nodup, by simp, by
      intro a ha b hb e
      rw [List.mem_singleton] at hb
      exact hfresh (hb ▸ e ▸ ha)⟩
  · intro a ha
    rcases List.mem_append.mp ha with ha | ha
    · exact h.flag_queue a ha
    · rw [List.mem_singleton.mp ha]
      exact h.flag_pending i k hi
  · intro j a hj
    rcases pending_update hj with ⟨_, ho⟩ | ⟨_, hj⟩
    · simp at ho
    · exact h.flag_pending j a hj
  · intro j a hj hq
    rcases pending_update hj with ⟨_, ho⟩ | ⟨hji, hj⟩
    · simp at ho
    · rcases List.mem_append.mp hq with hq | hq
      · exact h.pending_queue j a hj hq
      · rw [List.mem_singleton.mp hq] at hj
        exact hji (h.pending_pending j i k hj hi)
  · intro j a hj
    rcases pending_update hj with ⟨_, ho⟩ | ⟨_, hj⟩
    · simp at ho
    · exact h.pending_taken j a hj
  · intro j l a hj hl
    rcases pending_update hj with ⟨_, ho⟩ | ⟨_, hj⟩
    · simp at ho
    · rcases pending_update hl with ⟨_, ho⟩ | ⟨_, hl⟩
      · simp at ho
      · exact h.pending_pending j l a hj hl
  · intro a ha hq
    rcases List.mem_append.mp hq with hq | hq
    · exact h.taken_queue a ha hq
    · rw [List.mem_singleton.mp hq] at ha
      exact h.pending_taken i k hi ha

variable [DecidableEq κ]

/-- One atomic step. A writer that finds the flag already raised queues nothing.
With `spurious` a writer may also ask to queue a key it did not write. -/
inductive Step (spurious : Bool) : FlagQueue κ ν ι → FlagQueue κ ν ι → Prop
  | write (s : FlagQueue κ ν ι) (i : ι) (k : κ) (v : ν) : s.pending i = none →
      Step spurious s { s with
        value := Function.update s.value k v
        flag := Function.update s.flag k true
        pending := Function.update s.pending i (if s.flag k then none else some k) }
  | request (s : FlagQueue κ ν ι) (i : ι) (k : κ) : spurious = true → s.pending i = none →
      Step spurious s { s with pending := Function.update s.pending i (some k) }
  | enqueue (s : FlagQueue κ ν ι) (i : ι) (k : κ) : s.pending i = some k →
      Step spurious s { s with
        queue := s.queue ++ [k]
        pending := Function.update s.pending i none }
  | take (s : FlagQueue κ ν ι) (k : κ) (rest : List κ) : s.queue = k :: rest → s.taken = none →
      Step spurious s { s with queue := rest, taken := some k }
  | read (s : FlagQueue κ ν ι) (k : κ) : s.taken = some k →
      Step spurious s { s with
        flag := Function.update s.flag k false
        taken := none
        seen := Function.update s.seen k (s.value k) }

theorem Tracked.step {b : Bool} {s t : FlagQueue κ ν ι} (h : s.Tracked) (hst : Step b s t) :
    t.Tracked := by
  cases hst with
  | write i k v hi =>
    constructor
    · intro a ha
      by_cases hk : a = k
      · subst a
        cases hf : s.flag k with
        | false => exact .inr (.inl ⟨i, by simp⟩)
        | true => exact (h.waiting k hf).idle hi
      · have ha : s.flag a = true := by simpa [Function.update_of_ne hk] using ha
        exact (h.waiting a ha).idle hi
    · intro a ha
      by_cases hk : a = k
      · simp [hk]
      · simp only [Function.update_of_ne hk] at ha ⊢
        exact h.flagged a ha
  | request i k hb hi => exact ⟨fun a ha => (h.waiting a ha).idle hi, h.flagged⟩
  | enqueue i k hi => exact ⟨fun a ha => (h.waiting a ha).enqueue hi, h.flagged⟩
  | take k rest hq hn => exact ⟨fun a ha => (h.waiting a ha).take hq hn, h.flagged⟩
  | read k hk =>
    constructor
    · intro a ha
      have hne : a ≠ k := by intro e; simp [e] at ha
      have ha : s.flag a = true := by simpa [Function.update_of_ne hne] using ha
      exact (h.waiting a ha).read hk hne
    · intro a ha
      have hne : a ≠ k := by intro e; simp [e] at ha
      simp only [Function.update_of_ne hne] at ha ⊢
      exact h.flagged a ha

theorem Tracked.steps {b : Bool} {s t : FlagQueue κ ν ι} (h : s.Tracked)
    (hst : Relation.ReflTransGen (Step b) s t) : t.Tracked := by
  induction hst with
  | refl => exact h
  | tail _ hstep ih => exact ih.step hstep

private theorem flag_raised {f : κ → Bool} {k a : κ} (h : f a = true) :
    Function.update f k true a = true := by
  by_cases e : a = k
  · simp [e]
  · simpa [Function.update_of_ne e] using h

theorem Exclusive.write {s : FlagQueue κ ν ι} (h : s.Exclusive) (i : ι) (k : κ) (v : ν) :
    Exclusive { s with
      value := Function.update s.value k v
      flag := Function.update s.flag k true
      pending := Function.update s.pending i (if s.flag k then none else some k) } := by
  -- a key that writer `i` now has pending was not waiting before
  have own {a : κ} (ho : (if s.flag k then none else some k) = some a) :
      a = k ∧ ¬ s.Waiting k := by
    cases hf : s.flag k with
    | true => simp [hf] at ho
    | false => exact ⟨by simpa [hf] using ho.symm, h.not_waiting hf⟩
  refine ⟨h.nodup, fun a ha => flag_raised (h.flag_queue a ha), ?_,
    fun a ha => flag_raised (h.flag_taken a ha), ?_, ?_, ?_, h.taken_queue⟩
  · intro j a hj
    rcases pending_update hj with ⟨_, ho⟩ | ⟨_, hj⟩
    · simp [(own ho).1]
    · exact flag_raised (h.flag_pending j a hj)
  · intro j a hj
    rcases pending_update hj with ⟨_, ho⟩ | ⟨_, hj⟩
    · obtain ⟨rfl, hn⟩ := own ho
      exact fun hq => hn (.inl hq)
    · exact h.pending_queue j a hj
  · intro j a hj
    rcases pending_update hj with ⟨_, ho⟩ | ⟨_, hj⟩
    · obtain ⟨rfl, hn⟩ := own ho
      exact fun ht => hn (.inr (.inr ht))
    · exact h.pending_taken j a hj
  · intro j l a hj hl
    rcases pending_update hj with ⟨hji, ho⟩ | ⟨_, hj'⟩ <;>
      rcases pending_update hl with ⟨hli, ho'⟩ | ⟨_, hl'⟩
    · exact hji.trans hli.symm
    · obtain ⟨rfl, hn⟩ := own ho
      exact absurd (.inr (.inl ⟨l, hl'⟩)) hn
    · obtain ⟨rfl, hn⟩ := own ho'
      exact absurd (.inr (.inl ⟨j, hj'⟩)) hn
    · exact h.pending_pending j l a hj' hl'

theorem Exclusive.step {s t : FlagQueue κ ν ι} (h : s.Exclusive) (hst : Step false s t) :
    t.Exclusive := by
  cases hst with
  | write i k v _ => exact h.write i k v
  | request i k hb _ => simp at hb
  | enqueue i k hi => exact h.enqueue i k hi
  | take k rest hq hn =>
    have hnd := h.nodup
    rw [hq, List.nodup_cons] at hnd
    have hsub : ∀ a ∈ rest, a ∈ s.queue := by intro a ha; simp [hq, ha]
    have hk : k ∈ s.queue := by simp [hq]
    refine ⟨hnd.2, fun a ha => h.flag_queue a (hsub a ha), h.flag_pending, ?_,
      fun j a hj ha => h.pending_queue j a hj (hsub a ha), ?_, h.pending_pending, ?_⟩
    · rintro a ⟨⟩
      exact h.flag_queue k hk
    · rintro j a hj ⟨⟩
      exact h.pending_queue j k hj hk
    · rintro a ⟨⟩
      exact hnd.1
  | read k hk =>
    -- `k` was taken, so it waits nowhere else and no other flag is cleared
    have keep {a : κ} (hne : a ≠ k) (hf : s.flag a = true) :
        Function.update s.flag k false a = true := by
      simpa [Function.update_of_ne hne] using hf
    refine ⟨h.nodup, ?_, ?_, ?_, h.pending_queue, ?_, h.pending_pending, ?_⟩
    · intro a ha
      exact keep (fun e => h.taken_queue k hk (e ▸ ha)) (h.flag_queue a ha)
    · intro j a hj
      exact keep (fun e => h.pending_taken j a hj (e ▸ hk)) (h.flag_pending j a hj)
    · intro a ha
      simp at ha
    · intro j a hj
      simp
    · intro a ha
      simp at ha

/-- Without spurious requests no key is ever queued twice. -/
theorem Exclusive.steps {s t : FlagQueue κ ν ι} (h : s.Exclusive)
    (hst : Relation.ReflTransGen (Step false) s t) : t.Exclusive := by
  induction hst with
  | refl => exact h
  | tail _ hstep ih => exact ih.step hstep

end FlagQueue

end FastParse.Framework
