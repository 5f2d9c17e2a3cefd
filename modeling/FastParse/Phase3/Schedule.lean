import FastParse.Framework.Runs
import FastParse.Phase3.Emit

namespace FastParse

open Framework

structure Block where
  route : Ptr
  indices : List Nat
  deriving DecidableEq, Repr

/-- Where the messages go: the peer groups, and which writes succeed. -/
structure Outlet where
  peergroups : List Peergroup
  disk : Nat → Bool

/-- What phase 3 writes. `blocks` records the blocks formed, newest first; no branch of the
program reads it. -/
structure Egress where
  tx : Tx
  propagatedPrefixes : Nat
  blocks : List Block

/-- `phase3_spinlock` and `phase3_debug` -/
structure Gate where
  locked : Bool
  debug : Nat

def gateInit : Gate := ⟨false, 0⟩

/-- `locribj_pull` and, unless the journal is empty, `read_and_clear` of the entry. -/
def pullHead (rib : Rib) : Nat × Ptr × Rib :=
  let (addrref, journal) := locribjPull rib.journal
  let rib := { rib with journal }
  if journalEmpty ≠ addrref then
    let (route, rib) := readAndClear rib addrref
    (addrref, route, rib)
  else (addrref, emptyPtr, rib)

/-- The inner loop; `room` is what is left of `addrreftable`, whose end is an assertion.
Returns the collected indices and the entry read ahead. -/
def fillBlock (route1 : Ptr) : Nat → Rib → Nat → Ptr → Exec (List Nat × Rib × Nat × Ptr)
  | 0, rib, addrref, route2 =>
    if route2 = route1 then .error .assertion else .ok ([], rib, addrref, route2)
  | room + 1, rib, addrref, route2 =>
    if route2 = route1 then do
      let (next, route, rib) := pullHead rib
      let (indices, out) ← fillBlock route1 room rib next route
      return (addrref :: indices, out)
    else .ok ([], rib, addrref, route2)

section
variable (o : Outlet) (heap : Ptr → Route) (t : Bigtable)

def emitMessages (route1 : Ptr) (indices : List Nat) (tx : Tx) : Exec Tx :=
  if null = route1 then emitWithdraw o.disk o.peergroups t indices tx
  else emitUpdate o.disk o.peergroups t (heap route1) indices tx

def emitBlock (route1 : Ptr) (indices : List Nat) (e : Egress) : Exec Egress := do
  let tx ← emitMessages o heap t route1 indices e.tx
  return ⟨tx, e.propagatedPrefixes + indices.length, ⟨route1, indices⟩ :: e.blocks⟩

/-- Collecting and processing the block that starts with an entry read ahead; returns the
entry read ahead for the next one. -/
def phase3Round (addrref : Nat) (route1 : Ptr) (rib : Rib) (e : Egress) :
    Exec (Nat × Ptr × Rib × Egress) := do
  let (indices, rib, addrref, route2) ← fillBlock route1 4096 rib addrref route1
  let e ← emitBlock o heap t route1 indices e
  return (addrref, route2, rib, e)

/-- The outer loop, entered with the locals `addrref` and `route2`. -/
def phase3Loop : Nat → Nat → Ptr → Rib → Egress → Exec (Rib × Egress)
  | 0, _, _, _, _ => .error .loop
  | fuel + 1, addrref, route2, rib, e =>
    let (addrref, route1, rib) := if emptyPtr = route2 then pullHead rib else (addrref, route2, rib)
    if journalEmpty = addrref then .ok (rib, e)
    else do
      let (addrref, route2, rib, e) ← phase3Round o heap t addrref route1 rib e
      if journalEmpty ≠ addrref then phase3Loop fuel addrref route2 rib e
      else return (rib, e)

/-- Each round takes at least one journal entry, of which there are fewer than `BIG`. -/
def schedulePhase3 (_hard : Bool) (gate : Gate) (rib : Rib) (e : Egress) :
    Exec (Gate × Rib × Egress) :=
  if gate.locked then .ok (gate, rib, e)
  else do
    assert (0 = gate.debug)
    let debug := gate.debug + 1
    let (rib, e) ← phase3Loop o heap t big journalEmpty emptyPtr rib e
    assert (1 = debug)
    return (⟨false, debug - 1⟩, rib, e)

end

/-- The blocks a journal content leaves in: its maximal runs of equal heads. -/
def blocksOf (head : Nat → Ptr) (indices : List Nat) : List Block :=
  (runsBy head indices).map fun run => ⟨(run.head?.map head).getD null, run⟩

theorem blocksOf_nil (head : Nat → Ptr) : blocksOf head [] = [] := rfl

theorem blocksOf_indices (head : Nat → Ptr) (indices : List Nat) :
    ((blocksOf head indices).map Block.indices).flatten = indices := by
  have h := runsBy_flatten head indices
  simpa [blocksOf, Function.comp_def] using h

/-- A block carries the head of each of its indices. -/
theorem route_of_mem_blocksOf {head : Nat → Ptr} {indices : List Nat} {b : Block} {a : Nat}
    (hb : b ∈ blocksOf head indices) (ha : a ∈ b.indices) : b.route = head a := by
  rw [blocksOf, List.mem_map] at hb
  obtain ⟨run, hrun, rfl⟩ := hb
  obtain ⟨c, _, hc⟩ := const_of_mem_runsBy hrun
  cases run with
  | nil => simp at ha
  | cons x run =>
    have hx := hc x (by simp)
    have ha := hc a ha
    simp [hx, ha]

theorem mem_blocksOf {head : Nat → Ptr} {indices : List Nat} {a : Nat} (ha : a ∈ indices) :
    ∃ b ∈ blocksOf head indices, a ∈ b.indices := by
  rw [← blocksOf_indices head indices, List.mem_flatten] at ha
  obtain ⟨l, hl, ha⟩ := ha
  obtain ⟨b, hb, rfl⟩ := List.mem_map.mp hl
  exact ⟨b, hb, ha⟩

theorem blocksOf_const {head : Nat → Ptr} {a : Nat} {run : List Nat}
    (h : ∀ x ∈ run, head x = head a) : blocksOf head (a :: run) = [⟨head a, a :: run⟩] := by
  have hall : ∀ x ∈ a :: run, head x = head a := by simpa using h
  rw [blocksOf, runsBy_const (by simp) hall]
  rfl

theorem blocksOf_append_cons {head : Nat → Ptr} {a b : Nat} {run : List Nat}
    (h : ∀ x ∈ run, head x = head a) (hb : head b ≠ head a) (l : List Nat) :
    blocksOf head (a :: run ++ b :: l) = ⟨head a, a :: run⟩ :: blocksOf head (b :: l) := by
  have hall : ∀ x ∈ a :: run, head x = head a := by simpa using h
  rw [blocksOf, runsBy_append_cons (by simp) hall hb]
  rfl

end FastParse
