import Mathlib.Data.Finset.Card
import Mathlib.Logic.Function.Basic
import Mathlib.Tactic.Common

namespace FastParse.Framework

structure SlotTable (κ : Type) where
  slot : κ → Nat
  key : Nat → κ
  next : Nat

namespace SlotTable

variable {κ : Type} [DecidableEq κ]

/-- The number returned for `k`, and the table afterwards. -/
def lookup (t : SlotTable κ) (k : κ) : Nat × SlotTable κ :=
  if t.slot k = 0 then
    (t.next, ⟨Function.update t.slot k t.next, Function.update t.key t.next k, t.next + 1⟩)
  else (t.slot k, t)

def after (t : SlotTable κ) (ks : List κ) : SlotTable κ := ks.foldl (fun t k => (t.lookup k).2) t

/-- A number in use is below the cursor and the reverse table leads back to its key. -/
def Linked (t : SlotTable κ) : Prop := ∀ k, t.slot k ≠ 0 → t.slot k < t.next ∧ t.key (t.slot k) = k

@[simp] theorem after_nil (t : SlotTable κ) : t.after [] = t := rfl
@[simp] theorem after_cons (t : SlotTable κ) (k : κ) (ks : List κ) :
    t.after (k :: ks) = (t.lookup k).2.after ks := rfl

theorem after_append (t : SlotTable κ) (ks ls : List κ) :
    t.after (ks ++ ls) = (t.after ks).after ls := by
  simp [after, List.foldl_append]

theorem lookup_new {t : SlotTable κ} {k : κ} (h : t.slot k = 0) :
    t.lookup k =
      (t.next, ⟨Function.update t.slot k t.next, Function.update t.key t.next k, t.next + 1⟩) := by
  simp [lookup, h]

theorem lookup_old {t : SlotTable κ} {k : κ} (h : t.slot k ≠ 0) : t.lookup k = (t.slot k, t) := by
  simp [lookup, h]

theorem next_le_lookup (t : SlotTable κ) (k : κ) : t.next ≤ (t.lookup k).2.next := by
  by_cases h : t.slot k = 0
  · simp [lookup_new h]
  · simp [lookup_old h]

theorem next_le_after (t : SlotTable κ) (ks : List κ) : t.next ≤ (t.after ks).next := by
  induction ks generalizing t with
  | nil => exact le_refl _
  | cons k ks ih => exact (next_le_lookup t k).trans (ih _)

theorem Linked.lookup {t : SlotTable κ} (h : t.Linked) (k : κ) : (t.lookup k).2.Linked := by
  by_cases hk : t.slot k = 0
  · rw [lookup_new hk]
    intro j hj
    by_cases e : j = k
    · subst j
      simp
    · simp only [Function.update_of_ne e] at hj ⊢
      obtain ⟨hlt, hkey⟩ := h j hj
      refine ⟨Nat.lt_succ_of_lt hlt, ?_⟩
      rw [Function.update_of_ne (Nat.ne_of_lt hlt), hkey]
  · rw [lookup_old hk]
    exact h

theorem Linked.after {t : SlotTable κ} (h : t.Linked) (ks : List κ) : (t.after ks).Linked := by
  induction ks generalizing t with
  | nil => exact h
  | cons k ks ih => exact ih (h.lookup k)

/-- The number returned is below the cursor and leads back to the key asked for. -/
theorem Linked.index {t : SlotTable κ} (h : t.Linked) (k : κ) :
    (t.lookup k).1 < (t.lookup k).2.next ∧ (t.lookup k).2.key (t.lookup k).1 = k := by
  by_cases hk : t.slot k = 0
  · simp [lookup_new hk]
  · rw [lookup_old hk]
    exact h k hk

/-- Entries of the reverse table are never overwritten. -/
theorem key_stable (t : SlotTable κ) (ks : List κ) {i : Nat} (hi : i < t.next) :
    (t.after ks).key i = t.key i := by
  induction ks generalizing t with
  | nil => rfl
  | cons k ks ih =>
    rw [after_cons, ih _ (hi.trans_le (next_le_lookup t k))]
    by_cases h : t.slot k = 0
    · rw [lookup_new h]
      exact Function.update_of_ne (Nat.ne_of_lt hi) _ _
    · rw [lookup_old h]

/-- Once a key has a number other than zero it keeps it. -/
theorem slot_stable (t : SlotTable κ) (ks : List κ) {k : κ} (hk : t.slot k ≠ 0) :
    (t.after ks).slot k = t.slot k := by
  induction ks generalizing t with
  | nil => rfl
  | cons j ks ih =>
    have e : (t.lookup j).2.slot k = t.slot k := by
      by_cases h : t.slot j = 0
      · have hne : k ≠ j := by rintro rfl; exact hk h
        rw [lookup_new h]
        exact Function.update_of_ne hne _ _
      · rw [lookup_old h]
    rw [after_cons, ih _ (by rwa [e]), e]

/-- Past the first number a lookup fills the slot with the number it returns. -/
theorem slot_lookup {t : SlotTable κ} (hn : 0 < t.next) (k : κ) :
    (t.lookup k).1 ≠ 0 ∧ (t.lookup k).2.slot k = (t.lookup k).1 := by
  by_cases h : t.slot k = 0
  · rw [lookup_new h]
    exact ⟨Nat.pos_iff_ne_zero.mp hn, by simp⟩
  · rw [lookup_old h]
    exact ⟨h, rfl⟩

/-- Past the first number a key gets the same number from every later lookup. -/
theorem index_stable {t : SlotTable κ} (hn : 0 < t.next) (k : κ) (ks : List κ) :
    (((t.lookup k).2.after ks).lookup k).1 = (t.lookup k).1 := by
  obtain ⟨hne, hs⟩ := slot_lookup hn k
  have e := slot_stable (t.lookup k).2 ks (k := k) (by rwa [hs])
  rw [lookup_old (by rwa [e, hs]), e, hs]

/-- Past the first number the cursor advances by one for each distinct new key. -/
theorem next_after {t : SlotTable κ} (hn : 0 < t.next) (ks : List κ) :
    (t.after ks).next = t.next + (ks.toFinset.filter fun k => t.slot k = 0).card := by
  induction ks generalizing t with
  | nil => simp
  | cons k ks ih =>
    have hle := next_le_lookup t k
    rw [after_cons, ih (hn.trans_le hle), List.toFinset_cons]
    by_cases h : t.slot k = 0
    · have e : (ks.toFinset.filter fun j => Function.update t.slot k t.next j = 0) =
          (ks.toFinset.filter fun j => t.slot j = 0).erase k := by
        ext j
        by_cases hj : j = k
        · subst j
          simp [Nat.pos_iff_ne_zero.mp hn]
        · simp [hj]
      rw [lookup_new h, Finset.filter_insert, if_pos h]
      simp only [e]
      have hc := Finset.card_erase_add_one
        (Finset.mem_insert_self k (ks.toFinset.filter fun j => t.slot j = 0))
      rw [Finset.erase_insert_eq_erase] at hc
      omega
    · rw [lookup_old h, Finset.filter_insert, if_neg h]

def Filed (t : SlotTable κ) (k : κ) : Prop := t.slot k < t.next ∧ t.key (t.slot k) = k

instance (t : SlotTable κ) (k : κ) : Decidable (t.Filed k) := inferInstanceAs (Decidable (_ ∧ _))

theorem Linked.filed_lookup {t : SlotTable κ} (h : t.Linked) (k : κ) :
    (t.lookup k).2.slot k = (t.lookup k).1 ∧ (t.lookup k).2.Filed k := by
  by_cases hk : t.slot k = 0
  · simp [lookup_new hk, Filed]
  · rw [lookup_old hk]
    exact ⟨rfl, h k hk⟩

/-- Every number handed out is that of the key it leads to. -/
def Numbered (t : SlotTable κ) : Prop := ∀ i < t.next, t.slot (t.key i) = i

/-- A key that looks as if it had no number must not have one. -/
theorem Numbered.lookup {t : SlotTable κ} (h : t.Numbered) {k : κ}
    (hk : t.slot k = 0 → ¬ t.Filed k) : (t.lookup k).2.Numbered := by
  by_cases hz : t.slot k = 0
  · rw [lookup_new hz]
    intro i hi
    by_cases e : i = t.next
    · subst e
      simp
    · have hlt : i < t.next := Nat.lt_of_le_of_ne (Nat.lt_succ_iff.mp hi) e
      have hne : t.key i ≠ k := by
        intro hkey
        have hslot := h i hlt
        rw [hkey, hz] at hslot
        apply hk hz
        rw [Filed, hz, hslot]
        exact ⟨hlt, hkey⟩
      simp only [Function.update_of_ne e, Function.update_of_ne hne]
      exact h i hlt
  · rw [lookup_old hz]
    exact h

section
variable {α : Type} (null : α)

def read (t : SlotTable κ) (f : Nat → α) (k : κ) : α := if t.Filed k then f (t.slot k) else null

/-- Giving a key its first number changes nothing that can be read from an array which is
blank from the cursor on. -/
theorem read_lookup {t : SlotTable κ} {f : Nat → α} {k : κ}
    (hk : t.slot k = 0 → ¬ t.Filed k) (hblank : ∀ i, t.next ≤ i → f i = null) :
    (t.lookup k).2.read null f = t.read null f := by
  by_cases h : t.slot k = 0
  · rw [lookup_new h]
    funext j
    by_cases e : j = k
    · subst e
      have hnew : t.read null f j = null := if_neg (hk h)
      rw [hnew]
      simp [read, Filed, hblank]
    · simp only [read, Filed, Function.update_of_ne e]
      by_cases hn : t.slot j = t.next
      · -- a key that was never given this number
        simp [hn, Ne.symm e]
      · have hlt : t.slot j < t.next + 1 ↔ t.slot j < t.next := by omega
        rw [Function.update_of_ne hn]
        exact if_congr (and_congr_left' hlt) rfl rfl
  · rw [lookup_old h]

/-- A store at the number of a key is seen at that key only. -/
theorem read_update {t : SlotTable κ} {f : Nat → α} {k : κ} (hk : t.Filed k) (x : α) :
    t.read null (Function.update f (t.slot k) x) = Function.update (t.read null f) k x := by
  funext j
  by_cases e : j = k
  · subst e
    simp [read, hk]
  · rw [Function.update_of_ne e]
    by_cases hj : t.Filed j
    · have hne : t.slot j ≠ t.slot k := fun hs => e (by rw [← hj.2, hs, hk.2])
      simp [read, hj, Function.update_of_ne hne]
    · simp [read, hj]

theorem read_filed {t : SlotTable κ} {f : Nat → α} {k : κ} (hk : t.Filed k) :
    t.read null f k = f (t.slot k) := if_pos hk

end

end SlotTable

end FastParse.Framework
