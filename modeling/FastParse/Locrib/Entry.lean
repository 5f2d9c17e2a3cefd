import FastParse.Framework.FlagQueue
import FastParse.Locrib.Journal

namespace FastParse

open Framework

structure Tiebreak where
  localPref : UInt32
  pathLength : UInt8
  origin : UInt8
  med : UInt32
  ebgp : UInt8
  igpMetric : UInt32
  bgpid : UInt32
  peerAddress : UInt32
  deriving DecidableEq, Repr

/-- `0 != memcmp(a, b, sizeof(struct tiebreak))`; the padding is zeroed with the record. -/
def tiebreaker (a b : Tiebreak) : Bool := a ≠ b

@[simp] theorem tiebreaker_iff {a b : Tiebreak} : tiebreaker a b = true ↔ a ≠ b := by
  simp [tiebreaker]

structure LocribEntry where
  head : Ptr
  pushFlag : Bool
  deriving DecidableEq

/-- `LOCRIB` and its journal. -/
structure Rib where
  locrib : Nat → LocribEntry
  journal : Journal

def Rib.head (rib : Rib) (a : Nat) : Ptr := (rib.locrib a).head

theorem heads_update (locrib : Nat → LocribEntry) (a : Nat) (lre : LocribEntry) :
    (fun k => (Function.update locrib a lre k).head) =
      Function.update (fun k => (locrib k).head) a lre.head := by
  funext k
  by_cases e : k = a
  · simp [e]
  · simp [e]

theorem flags_update (locrib : Nat → LocribEntry) (a : Nat) (lre : LocribEntry) :
    (fun k => (Function.update locrib a lre k).pushFlag) =
      Function.update (fun k => (locrib k).pushFlag) a lre.pushFlag := by
  funext k
  by_cases e : k = a
  · simp [e]
  · simp [e]

def locribInit : Rib := ⟨fun _ => ⟨null, false⟩, locribjInit⟩

/-- The section of `locrib` under the spin lock, with the value its local `push_flag` has
afterwards. `tb` reads the tiebreak record of a route; `junk` is what the unassigned local
happens to hold. The nested `push()` takes no parameters, so `push(NULL)` stores `new` too. -/
def locribSection (tb : Ptr → Tiebreak) (lre : LocribEntry) (new : Ptr) (update junk : Bool) :
    LocribEntry × Bool :=
  let current := lre.head
  let push := (LocribEntry.mk new true, lre.pushFlag)
  if update then
    if current = null ∨ tiebreaker (tb new) (tb current) then push else (lre, junk)
  else
    if current ≠ null ∧ current = new then push else (lre, junk)

/-- `locrib` up to the phase 3 trigger: the locked section, then the journal entry when the
local flag reads false. Returns whether an entry was made. -/
def locribUpdate (tb : Ptr → Tiebreak) (rib : Rib) (addrref : Nat) (new : Ptr)
    (update junk : Bool) : Exec (Rib × Bool) := do
  let (lre, pushFlag) := locribSection tb (rib.locrib addrref) new update junk
  let locrib := Function.update rib.locrib addrref lre
  if pushFlag then return (⟨locrib, rib.journal⟩, false)
  else
    let journal ← locribjPush rib.journal addrref
    return (⟨locrib, journal⟩, true)

/-- Read the head and clear the push flag, under the spin lock. -/
def readAndClear (rib : Rib) (addrref : Nat) : Ptr × Rib :=
  let lre := rib.locrib addrref
  (lre.head,
    { rib with locrib := Function.update rib.locrib addrref { lre with pushFlag := false } })

theorem readAndClear_head (rib : Rib) (a : Nat) : (readAndClear rib a).2.head = rib.head := by
  have h := heads_update rib.locrib a { rib.locrib a with pushFlag := false }
  rw [Function.update_eq_self] at h
  exact h

/-- The branches of the locked section that run `push()`. -/
def Pushes (tb : Ptr → Tiebreak) (lre : LocribEntry) (new : Ptr) (update : Bool) : Prop :=
  if update then lre.head = null ∨ tiebreaker (tb new) (tb lre.head)
  else lre.head ≠ null ∧ lre.head = new

instance (tb : Ptr → Tiebreak) (lre : LocribEntry) (new : Ptr) (update : Bool) :
    Decidable (Pushes tb lre new update) := by
  unfold Pushes
  infer_instance

theorem locribSection_push {tb : Ptr → Tiebreak} {lre : LocribEntry} {new : Ptr} {update : Bool}
    (h : Pushes tb lre new update) (junk : Bool) :
    locribSection tb lre new update junk = (⟨new, true⟩, lre.pushFlag) := by
  cases update with
  | true => exact if_pos h
  | false => exact if_pos h

theorem locribSection_keep {tb : Ptr → Tiebreak} {lre : LocribEntry} {new : Ptr} {update : Bool}
    (h : ¬ Pushes tb lre new update) (junk : Bool) :
    locribSection tb lre new update junk = (lre, junk) := by
  cases update with
  | true => exact if_neg h
  | false => exact if_neg h

/-- Everything a call of `locrib` can do before the phase 3 trigger. -/
theorem locribUpdate_cases {tb : Ptr → Tiebreak} {rib rib' : Rib} {a : Nat} {new : Ptr}
    {update junk pushed : Bool} (h : locribUpdate tb rib a new update junk = .ok (rib', pushed)) :
    (Pushes tb (rib.locrib a) new update ∧
      rib'.locrib = Function.update rib.locrib a ⟨new, true⟩ ∧
      ((rib.locrib a).pushFlag = true ∧ pushed = false ∧ rib'.journal = rib.journal ∨
        (rib.locrib a).pushFlag = false ∧ pushed = true ∧
          locribjPush rib.journal a = .ok rib'.journal)) ∨
    (¬ Pushes tb (rib.locrib a) new update ∧ rib'.locrib = rib.locrib ∧
      (junk = true ∧ pushed = false ∧ rib'.journal = rib.journal ∨
        junk = false ∧ pushed = true ∧ locribjPush rib.journal a = .ok rib'.journal)) := by
  rw [locribUpdate] at h
  by_cases hp : Pushes tb (rib.locrib a) new update
  · refine .inl ⟨hp, ?_⟩
    simp only [locribSection_push hp] at h
    cases hf : (rib.locrib a).pushFlag with
    | true =>
      simp only [hf] at h
      cases h
      exact ⟨rfl, .inl ⟨rfl, rfl, rfl⟩⟩
    | false =>
      simp only [hf, Bool.false_eq_true, if_false, bind_eq_ok] at h
      obtain ⟨j, hj, e⟩ := h
      cases e
      exact ⟨rfl, .inr ⟨rfl, rfl, hj⟩⟩
  · refine .inr ⟨hp, ?_⟩
    simp only [locribSection_keep hp, Function.update_eq_self] at h
    cases junk with
    | true =>
      cases h
      exact ⟨rfl, .inl ⟨rfl, rfl, rfl⟩⟩
    | false =>
      simp only [Bool.false_eq_true, if_false, bind_eq_ok] at h
      obtain ⟨j, hj, e⟩ := h
      cases e
      exact ⟨rfl, .inr ⟨rfl, rfl, hj⟩⟩

end FastParse
