import FastParse.Framework.Bytes
import Mathlib.Data.List.Basic

namespace FastParse.Framework

variable {β ρ : Type}

def PrefixFree (enc : ρ → List β) : Prop :=
  ∀ a b x y, enc a ++ x = enc b ++ y → a = b ∧ x = y

theorem PrefixFree.flatMap_inj {enc : ρ → List β} (hfree : PrefixFree enc)
    (hne : ∀ a, enc a ≠ []) {l l' : List ρ} (h : l.flatMap enc = l'.flatMap enc) : l = l' := by
  induction l generalizing l' with
  | nil =>
    cases l' with
    | nil => rfl
    | cons b l' =>
      rw [List.flatMap_nil, List.flatMap_cons] at h
      exact absurd (List.append_eq_nil_iff.mp h.symm).1 (hne b)
  | cons a l ih =>
    cases l' with
    | nil =>
      rw [List.flatMap_nil, List.flatMap_cons] at h
      exact absurd (List.append_eq_nil_iff.mp h).1 (hne a)
    | cons b l' =>
      rw [List.flatMap_cons, List.flatMap_cons] at h
      obtain ⟨rfl, hrest⟩ := hfree _ _ _ _ h
      rw [ih hrest]

section
variable (enc : ρ → List β) (read : Nat → ρ)

/-- Behind the record at `p`. -/
def after (p : Nat) : Nat := p + (enc (read p)).length

/-- From `p` on the records end exactly at `limit`. -/
inductive Lands (limit : Nat) : Nat → Prop where
  | done : Lands limit limit
  | step {p : Nat} : p < limit → Lands limit (after enc read p) → Lands limit p

/-- Where the records begin, as long as more than `slack` cells are left. -/
def stationsUpTo (slack limit : Nat) : Nat → Nat → List Nat
  | 0, _ => []
  | fuel + 1, p =>
    if p + slack < limit then p :: stationsUpTo slack limit fuel (after enc read p) else []

def stations (slack limit p : Nat) : List Nat := stationsUpTo enc read slack limit (limit - p) p

def records (slack limit p : Nat) : List ρ := (stations enc read slack limit p).map read

end

section
variable {enc : ρ → List β} {read : Nat → ρ} {slack limit : Nat}

theorem stationsUpTo_rounds (hsize : ∀ a, slack < (enc a).length) {f g p : Nat}
    (hf : limit - p ≤ f) (hg : limit - p ≤ g) :
    stationsUpTo enc read slack limit f p = stationsUpTo enc read slack limit g p := by
  induction f generalizing g p with
  | zero =>
    have hp : ¬ p + slack < limit := by omega
    cases g with
    | zero => rfl
    | succ g => rw [stationsUpTo, stationsUpTo, if_neg hp]
  | succ f ih =>
    by_cases hp : p + slack < limit
    · obtain ⟨g, rfl⟩ : ∃ k, g = k + 1 := ⟨g - 1, by omega⟩
      have hlong := hsize (read p)
      have hrest := @ih g (after enc read p) (by rw [after]; omega) (by rw [after]; omega)
      rw [stationsUpTo, stationsUpTo, if_pos hp, if_pos hp, hrest]
    · rw [stationsUpTo, if_neg hp]
      cases g with
      | zero => rfl
      | succ g => rw [stationsUpTo, if_neg hp]

theorem stations_eq (hsize : ∀ a, slack < (enc a).length) (p : Nat) :
    stations enc read slack limit p =
      if p + slack < limit then p :: stations enc read slack limit (after enc read p)
      else [] := by
  have hlong := hsize (read p)
  rw [stations, stationsUpTo_rounds hsize (Nat.le_refl _) (Nat.le_succ (limit - p)), stationsUpTo]
  split_ifs with hp
  · rw [stations, stationsUpTo_rounds hsize (g := limit - after enc read p)]
    · rw [after]
      omega
    · exact Nat.le_refl _
  · rfl

theorem records_eq (hsize : ∀ a, slack < (enc a).length) (p : Nat) :
    records enc read slack limit p =
      if p + slack < limit then read p :: records enc read slack limit (after enc read p)
      else [] := by
  rw [records, stations_eq hsize]
  split_ifs
  · rfl
  · rfl

theorem Lands.le {p : Nat} (h : Lands enc read limit p) : p ≤ limit := by
  cases h with
  | done => exact Nat.le_refl _
  | step hp _ => exact Nat.le_of_lt hp

theorem Lands.next {p : Nat} (h : Lands enc read limit p) (hp : p < limit) :
    Lands enc read limit (after enc read p) := by
  cases h with
  | done => exact absurd hp (Nat.lt_irrefl _)
  | step _ h => exact h

/-- A walk that ends exactly at `limit` may as well stop when fewer cells are left than any
record has. -/
theorem Lands.slack_lt (hsize : ∀ a, slack < (enc a).length) {p : Nat}
    (h : Lands enc read limit p) : p + slack < limit ↔ p < limit := by
  constructor
  · intro hp
    omega
  · intro hp
    cases h with
    | done => exact absurd hp (Nat.lt_irrefl _)
    | step _ h =>
      have hle := h.le
      have hlong := hsize (read p)
      rw [after] at hle
      omega

theorem lt_of_mem_stations (hsize : ∀ a, slack < (enc a).length) {p q : Nat}
    (hq : q ∈ stations enc read slack limit p) : q + slack < limit := by
  induction hn : limit - p using Nat.strongRecOn generalizing p with
  | ind n ih =>
    rw [stations_eq hsize] at hq
    split_ifs at hq with hp
    · cases List.mem_cons.mp hq with
      | inl e => exact e ▸ hp
      | inr hq =>
        have hlong := hsize (read p)
        exact ih _ (by rw [after]; omega) hq rfl
    · exact absurd hq List.not_mem_nil

/-- No record of a walk that ends at `limit` goes beyond it. -/
theorem Lands.after_le (hsize : ∀ a, slack < (enc a).length) {p q : Nat}
    (h : Lands enc read limit p) (hq : q ∈ stations enc read slack limit p) :
    after enc read q ≤ limit := by
  induction h with
  | done =>
    have hlt := lt_of_mem_stations hsize hq
    rw [stations_eq hsize, if_neg (by omega)] at hq
    exact absurd hq List.not_mem_nil
  | @step p hp h ih =>
    rw [stations_eq hsize, if_pos (((Lands.step hp h).slack_lt hsize).mpr hp)] at hq
    cases List.mem_cons.mp hq with
    | inl e =>
      rw [e]
      exact h.le
    | inr hq => exact ih hq

theorem Lands.slice_eq {m : Nat → β} (hsize : ∀ a, slack < (enc a).length)
    (hread : ∀ p, slice m p (enc (read p)).length = enc (read p)) {p : Nat}
    (h : Lands enc read limit p) :
    slice m p (limit - p) = (records enc read slack limit p).flatMap enc := by
  induction h with
  | done =>
    have hstop : ¬ limit + slack < limit := by omega
    rw [records_eq hsize, if_neg hstop, Nat.sub_self]
    rfl
  | @step p hp h ih =>
    have hmore : p + slack < limit := ((Lands.step hp h).slack_lt hsize).mpr hp
    have hle := h.le
    have hsplit : limit - p = (enc (read p)).length + (limit - after enc read p) := by
      rw [after] at hle ⊢
      omega
    rw [records_eq hsize, if_pos hmore, List.flatMap_cons, ← ih, hsplit, slice_add, hread]
    rfl

/-- A stretch filled with encodings is read as the records it was made of. -/
theorem lands_of_slice {m : Nat → β} (hsize : ∀ a, slack < (enc a).length)
    (hread : ∀ p, slice m p (enc (read p)).length = enc (read p)) (hfree : PrefixFree enc)
    {l : List ρ} {p : Nat} (h : slice m p (l.flatMap enc).length = l.flatMap enc) :
    Lands enc read (p + (l.flatMap enc).length) p ∧
      records enc read slack (p + (l.flatMap enc).length) p = l := by
  induction l generalizing p with
  | nil =>
    have hstop : ¬ p + slack < p := by omega
    rw [List.flatMap_nil, List.length_nil, Nat.add_zero, records_eq hsize, if_neg hstop]
    exact ⟨.done, rfl⟩
  | cons a l ih =>
    rw [List.flatMap_cons, List.length_append, slice_add] at h
    obtain ⟨hhead, htail⟩ := List.append_inj h (length_slice m p _)
    -- the record read here and the one encoded here start with the same cells
    have hboth : enc (read p) ++ slice m (p + (enc (read p)).length) (enc a).length =
        enc a ++ slice m (p + (enc a).length) (enc (read p)).length := by
      have hsum := slice_add m p (enc (read p)).length (enc a).length
      rw [Nat.add_comm, slice_add, hread, hhead] at hsum
      exact hsum.symm
    have hsame : read p = a := (hfree _ _ _ _ hboth).1
    have hafter : after enc read p = p + (enc a).length := by rw [after, hsame]
    obtain ⟨hlands, hrest⟩ := ih htail
    have hpos := hsize a
    have hend : p + ((a :: l).flatMap enc).length =
        p + (enc a).length + (l.flatMap enc).length := by
      rw [List.flatMap_cons, List.length_append, Nat.add_assoc]
    have hlt : p < p + (enc a).length + (l.flatMap enc).length := by omega
    rw [← hafter] at hlands hrest
    rw [hend, ← hafter]
    rw [← hafter] at hlt
    have hwhole : Lands enc read (after enc read p + (l.flatMap enc).length) p :=
      .step hlt hlands
    refine ⟨hwhole, ?_⟩
    rw [records_eq hsize, if_pos ((hwhole.slack_lt hsize).mpr hlt), hrest, hsame]

end

end FastParse.Framework
