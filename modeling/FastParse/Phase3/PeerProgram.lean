import FastParse.Locrib.Accesses
import FastParse.Locrib.Concurrent
import FastParse.Routes.Reachable

namespace FastParse

open Framework

/-- The spin locks of the `LOCRIB` entries and `spinlock_lrj`. -/
inductive SpinLock where
  | entry (addrref : Nat)
  | journal
  deriving DecidableEq

abbrev SpinLock.Vars : SpinLock → Type
  | entry _ => LocribEntry
  | journal => JournalVars

/-- `phase3_spinlock`, and what only its holder touches. -/
structure Phase3Vars where
  gate : Gate
  egress : Egress

/-- Where the messages go, and for each block by its number the routes and the tables of prefixes
as the thread that sends it finds them: other threads write them meanwhile. -/
structure Sending where
  outlet : Outlet
  heap : Nat → Ptr → Route
  tables : Nat → Bigtable

/-- The arguments of `locrib`, the tiebreak records as the call finds them, and what its
unassigned local holds. No route lies at `(void*) ~(0LL)`, and `LOCRIB` has `BIG` entries. -/
structure LocribCall where
  tb : Ptr → Tiebreak
  extendedAddrref : Nat
  inside : lrIndexMask &&& extendedAddrref < big
  new : { p : Ptr // p ≠ emptyPtr }
  update : Bool
  junk : Bool

namespace LocribCall

def addrref (c : LocribCall) : Nat := lrIndexMask &&& c.extendedAddrref

def eobFlag (c : LocribCall) : Bool := lrEob &&& c.extendedAddrref ≠ 0

end LocribCall

inductive PeerCall where
  | locrib (c : LocribCall)
  /-- the main thread's last flush -/
  | schedulePhase3

/-- Where a thread stands, with the locals of `schedule_phase3`: the block that is being
collected, newest index last, and the entry read ahead. -/
inductive PeerPc where
  | outside
  /-- before the section of `locrib` -/
  | updating (c : LocribCall)
  /-- before the journal entry -/
  | pushing (addrref : Nat) (eobFlag : Bool)
  /-- before the trylock -/
  | scheduling
  /-- before the first assertion on `phase3_debug` -/
  | entering
  /-- before `locribj_pull` -/
  | draining (block : Option Block)
  /-- before `read_and_clear` -/
  | reading (addrref : Nat) (block : Option Block)
  /-- before `route2 == route1` -/
  | comparing (addrref : Nat) (route2 : Ptr) (block : Option Block)
  /-- before the messages of a block -/
  | emitting (block : Block) (ahead : Option (Nat × Ptr))
  /-- before the second assertion -/
  | leaving
  /-- before the unlock -/
  | unlocking

namespace PeerPc

/-- The places under `phase3_spinlock`. -/
def Holding : PeerPc → Prop
  | outside | updating _ | pushing _ _ | scheduling => False
  | _ => True

/-- Those between the two assertions on `phase3_debug`. -/
def Counted : PeerPc → Prop
  | draining _ | reading _ _ | comparing _ _ _ | emitting _ _ | leaving => True
  | _ => False

instance (pc : PeerPc) : Decidable pc.Counted := by
  cases pc <;> unfold Counted <;> infer_instance

end PeerPc

/-- `if (EBUSY == pthread_spin_trylock(&phase3_spinlock)) return` -/
def trylock (g : Phase3Vars) : Exec (Phase3Vars × PeerPc) :=
  if g.gate.locked then return (g, .outside)
  else return ({ g with gate := { g.gate with locked := true } }, .entering)

/-- `assert(0==phase3_debug++)` -/
def enterPhase3 (g : Phase3Vars) : Exec (Phase3Vars × PeerPc) := do
  assert (0 = g.gate.debug)
  return ({ g with gate := { g.gate with debug := g.gate.debug + 1 } }, .draining none)

/-- The test of the inner loop on the entry just read; `addrreftable` has 4096 places. -/
def compareRoutes (addrref : Nat) (route2 : Ptr) (block : Option Block) (g : Phase3Vars) :
    Exec (Phase3Vars × PeerPc) :=
  match block with
  | none => return (g, .draining (some ⟨route2, [addrref]⟩))
  | some b =>
    if route2 = b.route then do
      assert (b.indices.length < 4096)
      return (g, .draining (some ⟨b.route, b.indices ++ [addrref]⟩))
    else return (g, .emitting b (some (addrref, route2)))

/-- Where the loop goes on behind a block; the next one starts with the entry read ahead. -/
def afterBlock : Option (Nat × Ptr) → PeerPc
  | some (addrref, route2) => .draining (some ⟨route2, [addrref]⟩)
  | none => .leaving

/-- The messages of a block, in one step: building and writing them is up to the holder of
`phase3_spinlock` alone. -/
def emitCollected (w : Sending) (b : Block) (ahead : Option (Nat × Ptr)) (g : Phase3Vars) :
    Exec (Phase3Vars × PeerPc) := do
  let n := g.egress.blocks.length
  let egress ← emitBlock w.outlet (w.heap n) (w.tables n) b.route b.indices g.egress
  return ({ g with egress }, afterBlock ahead)

/-- `assert(1==phase3_debug--)` -/
def leavePhase3 (g : Phase3Vars) : Exec (Phase3Vars × PeerPc) := do
  assert (1 = g.gate.debug)
  return ({ g with gate := { g.gate with debug := g.gate.debug - 1 } }, .unlocking)

def unlockPhase3 (g : Phase3Vars) : Exec (Phase3Vars × PeerPc) :=
  return ({ g with gate := { g.gate with locked := false } }, .outside)

/-- Where a pull leads: `JOURNAL_EMPTY` ends the block and the loop. -/
def afterPull (block : Option Block) (addrref : Nat) : PeerPc :=
  if journalEmpty ≠ addrref then .reading addrref block
  else match block with
    | none => .leaving
    | some b => .emitting b none

def peerEnter : PeerCall → PeerPc
  | .locrib c => .updating c
  | .schedulePhase3 => .scheduling

def peerProgram (w : Sending) :
    ThreadProgram SpinLock SpinLock.Vars Phase3Vars PeerPc PeerCall Halt where
  enter := peerEnter
  code
    | .outside => .rest
    | .updating c => .locked (.entry c.addrref)
        (locribAccesses c.tb c.new.1 c.update c.junk fun pushFlag =>
          if pushFlag then .outside else .pushing c.addrref c.eobFlag)
    | .pushing addrref eobFlag => .locked .journal
        (pushAccesses addrref (if eobFlag then .scheduling else .outside))
    | .scheduling => .atomic trylock
    | .entering => .atomic enterPhase3
    | .draining block => .locked .journal (pullAccesses (afterPull block))
    | .reading addrref block => .locked (.entry addrref)
        (readAndClearAccesses fun route2 => .comparing addrref route2 block)
    | .comparing addrref route2 block => .atomic (compareRoutes addrref route2 block)
    | .emitting b ahead => .atomic (emitCollected w b ahead)
    | .leaving => .atomic leavePhase3
    | .unlocking => .atomic unlockPhase3

section
variable (ι : Type)

/-- The state with one access at a time, and with each section as one step. -/
abbrev PeerAccesses := Accesses ι SpinLock SpinLock.Vars Phase3Vars PeerPc Halt

abbrev PeerSections := Sections ι SpinLock SpinLock.Vars Phase3Vars PeerPc

end

/-- After `reinit`. -/
def peersInit {ι : Type} : PeerSections ι where
  cell
    | .entry _ => (⟨null, false⟩ : LocribEntry)
    | .journal => journalVars locribjInit
  shared := ⟨gateInit, ⟨txInit, 0, []⟩⟩
  pc _ := .outside

end FastParse
