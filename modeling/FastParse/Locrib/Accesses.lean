import FastParse.Framework.Critical
import FastParse.Locrib.Entry

namespace FastParse

open Framework

/-- `_LRJOURNAL`, `jread` and `jwrite` as they lie in memory. Between two accesses a cursor
may stand at `BIG`. -/
structure JournalVars where
  lrjournal : Nat → Nat
  jread : Nat
  jwrite : Nat

def journalVars (j : Journal) : JournalVars := ⟨j.cell, j.rd, j.wr⟩

section
variable {α : Type}

/-- `locribj_push` between taking and giving back `spinlock_lrj`. -/
def pushAccesses (addrref : Nat) (next : α) : Critical JournalVars Halt α :=
  if journalEmpty ≠ addrref then
    .write (fun j => { j with lrjournal := Function.update j.lrjournal j.jwrite addrref }) <|
    .write (fun j => { j with jwrite := j.jwrite + 1 }) <|
    .write (fun j => { j with jwrite := j.jwrite % big }) <|
    .read fun j => if j.jwrite ≠ j.jread then .done next else .stop .assertion
  else .stop .assertion

def pullAccesses (next : Nat → α) : Critical JournalVars Halt α :=
  .read fun j =>
    if j.jwrite ≠ j.jread then
      .read fun j =>
        let rval := j.lrjournal j.jread
        .write (fun j => { j with jread := j.jread + 1 }) <|
        .write (fun j => { j with jread := j.jread % big }) <|
        .done (next rval)
    else .done (next journalEmpty)

/-- The section of `locrib`; `next` is told what its local `push_flag` holds at the end. -/
def locribAccesses (tb : Ptr → Tiebreak) (new : Ptr) (update junk : Bool) (next : Bool → α) :
    Critical LocribEntry Halt α :=
  let push :=
    .read fun lre =>
      let pushFlag := lre.pushFlag
      .write (fun lre => { lre with pushFlag := true }) <|
      .write (fun lre => { lre with head := new }) <|
      .done (next pushFlag)
  .read fun lre =>
    let current := lre.head
    if update then
      if current = null ∨ tiebreaker (tb new) (tb current) then push else .done (next junk)
    else
      if current ≠ null ∧ current = new then push else .done (next junk)

def readAndClearAccesses (next : Ptr → α) : Critical LocribEntry Halt α :=
  .write (fun lre => { lre with pushFlag := false }) <|
  .read fun lre => .done (next lre.head)

theorem pushAccesses_run (j : Journal) (addrref : Nat) (next : α) :
    (pushAccesses addrref next).run (journalVars j) =
      (locribjPush j addrref).map fun j' => (journalVars j', next) := by
  have hw (v : JournalVars) (h : v = ⟨(j.push addrref).cell, j.rd, (j.push addrref).wr⟩) :
      (if v.jwrite ≠ v.jread then Critical.done next else .stop .assertion).run v =
        (do
          assert ((j.push addrref).wr ≠ (j.push addrref).rd)
          return j.push addrref : Exec Journal).map fun j' => (journalVars j', next) := by
    subst h
    by_cases hd : (j.push addrref).wr ≠ (j.push addrref).rd
    · rw [assert, if_pos hd, if_pos (show (j.push addrref).wr ≠ j.rd from hd)]
      rfl
    · rw [assert, if_neg hd, if_neg (show ¬ (j.push addrref).wr ≠ j.rd from hd)]
      rfl
  rw [pushAccesses, locribjPush, assert]
  split_ifs
  · exact hw _ rfl
  · rfl

theorem pullAccesses_run (j : Journal) (next : Nat → α) :
    (pullAccesses next).run (journalVars j) =
      .ok (journalVars (locribjPull j).2, next (locribjPull j).1) := by
  rw [pullAccesses, locribjPull, Critical.run_read]
  by_cases hw : j.wr ≠ j.rd
  · rw [if_pos hw, if_pos (show (journalVars j).jwrite ≠ (journalVars j).jread from hw)]
    rfl
  · rw [if_neg hw, if_neg (show ¬ (journalVars j).jwrite ≠ (journalVars j).jread from hw)]
    rfl

theorem locribAccesses_run (tb : Ptr → Tiebreak) (lre : LocribEntry) (new : Ptr)
    (update junk : Bool) (next : Bool → α) :
    (locribAccesses tb new update junk next).run lre =
      .ok ((locribSection tb lre new update junk).1,
        next (locribSection tb lre new update junk).2) := by
  rw [locribAccesses, locribSection]
  simp only [Critical.run_read]
  split_ifs <;> rfl

theorem pushAccesses_ends {p : α → Prop} {addrref : Nat} {next : α} (h : p next) :
    (pushAccesses addrref next).Ends p := by
  rw [pushAccesses]
  split_ifs
  · intro _ _ _ j
    dsimp only
    split_ifs
    · exact h
    · trivial
  · trivial

theorem pullAccesses_ends {p : α → Prop} {next : Nat → α} (h : ∀ a, p (next a)) :
    (pullAccesses next).Ends p := by
  intro j
  dsimp only
  split_ifs
  · exact fun j _ _ => h (j.lrjournal j.jread)
  · exact h journalEmpty

theorem locribAccesses_ends {p : α → Prop} {tb : Ptr → Tiebreak} {new : Ptr} {update junk : Bool}
    {next : Bool → α} (h : ∀ pushFlag, p (next pushFlag)) :
    (locribAccesses tb new update junk next).Ends p := by
  intro lre
  dsimp only
  split_ifs
  · exact fun lre _ _ => h lre.pushFlag
  · exact h junk
  · exact fun lre _ _ => h lre.pushFlag
  · exact h junk

theorem readAndClearAccesses_run (lre : LocribEntry) (next : Ptr → α) :
    (readAndClearAccesses next).run lre = .ok ({ lre with pushFlag := false }, next lre.head) := rfl

end

end FastParse
