import FastParse.Phase3.Schedule

namespace FastParse

/-- What a run depends on besides its input: where the slab is mapped, what the local
`push_flag` of `locrib` holds when call number `n` has not assigned it, where the messages
go, and the two message counts of the command line. -/
structure Env where
  slab : Ptr
  slab_pos : 0 < slab
  slab_fits : slab + slabSize < 2 ^ 64
  junk : Nat → Bool
  outlet : Outlet
  msgMax : UInt64
  spare : UInt32

/-- The global variables that `update_adj_rib_in` and what it calls read and write.
`headWrites` records the indices whose head was set; no branch of the program reads it. -/
structure Routing where
  slab : Slab (Fin npeers)
  adjRibIn : Fin npeers × Nat → Ptr
  rib : Rib
  gate : Gate
  egress : Egress
  headWrites : List Nat
  receivedPrefixes : Nat

def lrEob : Nat := 0x80000000
def lrIndexMask : Nat := 0x7fffffff

namespace Routing

def tiebreak (s : Routing) (p : Ptr) : Tiebreak := (s.slab.heap p).tiebreak

def head (s : Routing) (a : Nat) : Ptr := s.rib.head a

/-- `update_adj_rib_in` up to the release of the route that was in the slot. -/
def swapSlot (s : Routing) (pn : Fin npeers) (addrindex : Nat) (route : Ptr) : Routing :=
  let oldRoute := s.adjRibIn (pn, addrindex)
  let s := { s with
    receivedPrefixes := s.receivedPrefixes + 1
    adjRibIn := Function.update s.adjRibIn (pn, addrindex) route }
  if oldRoute ≠ null then { s with slab := s.slab.release pn oldRoute } else s

section
variable (env : Env) (t : Bigtable)

def schedulePhase3 (s : Routing) (hard : Bool) : Exec Routing := do
  let (gate, rib, egress) ←
    FastParse.schedulePhase3 env.outlet s.slab.heap t hard s.gate s.rib s.egress
  return { s with gate, rib, egress }

/-- `locrib`: the critical section, the journal entry, and phase 3 at the end of a block. -/
def locrib (s : Routing) (extendedAddrref : Nat) (new : Ptr) (update : Bool) : Exec Routing := do
  let addrref := lrIndexMask &&& extendedAddrref
  let eobFlag := lrEob &&& extendedAddrref ≠ 0
  let headWrites :=
    if Pushes s.tiebreak (s.rib.locrib addrref) new update then addrref :: s.headWrites
    else s.headWrites
  let (rib, pushed) ←
    locribUpdate s.tiebreak s.rib addrref new update (env.junk s.receivedPrefixes)
  let s := { s with rib, headWrites }
  if pushed = true ∧ eobFlag then s.schedulePhase3 env t false else .ok s

/-- `adj_rib_in` and `LOCRIB` have `BIG` elements. -/
def updateAdjRibIn (s : Routing) (pn : Fin npeers) (addrref : Nat) (route : Ptr) :
    Exec Routing := do
  let addrindex := addrref &&& lrIndexMask
  within (addrindex < big)
  let oldRoute := s.adjRibIn (pn, addrindex)
  let s := s.swapSlot pn addrindex route
  if route ≠ null then
    ({ s with slab := s.slab.retain route } : Routing).locrib env t addrref route true
  else if oldRoute ≠ null then s.locrib env t addrref route false
  else .ok s

end

end Routing

/-- All global variables. -/
structure State where
  routing : Routing
  unique : Nat
  msgCount : Nat
  tables : Bigtable
  locribReady : Bool
  updates : Nat
  updatePrefixes : Nat
  tooLong : Nat

namespace State

/-- The route of an UPDATE: `alloc`, `memset`, the copy of the attribute bytes, `phase1` and
`parse_attributes`. -/
def newRoute (env : Env) (m : Mem) (s : State) (pn : Fin npeers) (pathAttributes : Nat)
    (pathattributesLength length : UInt16) : Exec (Ptr × State) := do
  let (route, slab) ← s.routing.slab.alloc env.slab pn (length.toNat + sizeofRoute)
  let attributes :=
    memcpy (slab.heap route).attributes 0 m pathAttributes pathattributesLength.toNat
  let tiebreak := phase1 (peers pn) ⟨0, 0, 0, 0, 0, 0, 0, 0⟩
  let tiebreak ← parseAttributes m pathAttributes pathattributesLength tiebreak
  let slab := slab.setRoute route ⟨s.unique, 0, pathattributesLength, tiebreak, attributes⟩
  return (route, { s with
    routing := { s.routing with slab }
    unique := (s.unique + 1) % 2 ^ 64 })

/-- One round of the NLRI loop; `entry` is a prefix and whether it ends the section. -/
def nlriStep (env : Env) (pn : Fin npeers) (route : Ptr) (s : State) (entry : Nat × Bool) :
    Exec State := do
  let (addrref, tables) ← lookupRib64 s.tables entry.1
  if tooBig = addrref then return { s with tables, tooLong := s.tooLong + 1 }
  else
    let addrref := if entry.2 then addrref ||| lrEob else addrref
    let updates := if entry.2 then s.updates + 1 else s.updates
    let routing ← s.routing.updateAdjRibIn env tables pn addrref route
    return { s with routing, tables, updates, updatePrefixes := s.updatePrefixes + 1 }

def withdrawStep (env : Env) (pn : Fin npeers) (s : State) (entry : Nat × Bool) :
    Exec State := do
  let (addrref, tables) ← lookupRib64 s.tables entry.1
  if tooBig = addrref then return { s with tables, tooLong := s.tooLong + 1 }
  else
    let addrref := if entry.2 then addrref ||| lrEob else addrref
    let routing ← s.routing.updateAdjRibIn env tables pn addrref null
    return { s with routing, tables }

end State

/-- An UPDATE body of `length` bytes at `p`, and the peer it comes from. -/
structure Message where
  peer : Fin npeers
  mem : Mem
  p : Nat
  length : UInt16

namespace Message

variable (msg : Message)

def withdrawLength : UInt16 := getw16 msg.mem msg.p
def pathattributesLength : UInt16 := getw16 msg.mem (msg.p + 2 + msg.withdrawLength.toNat)

def nlriLength : UInt16 := msg.length - msg.withdrawLength - msg.pathattributesLength - 4

def withdrawn : Nat := msg.p + 2
def pathAttributes : Nat := msg.p + 4 + msg.withdrawLength.toNat
def nlri : Nat := msg.p + 4 + msg.withdrawLength.toNat + msg.pathattributesLength.toNat

def announced : List (Nat × Bool) :=
  nlriWalk msg.mem msg.nlri (msg.nlri + msg.nlriLength.toNat)

def withdrawals : List (Nat × Bool) :=
  nlriWalk msg.mem msg.withdrawn (msg.withdrawn + msg.withdrawLength.toNat)

end Message

namespace State

/-- A message with attributes and NLRI gets a route, any other none. -/
def messageRoute (env : Env) (s : State) (msg : Message) : Exec (Ptr × State) :=
  if msg.pathattributesLength ≠ 0 ∧ msg.nlriLength ≠ 0 then
    s.newRoute env msg.mem msg.peer msg.pathAttributes msg.pathattributesLength msg.length
  else .ok (null, s)

def parseUpdate (env : Env) (s : State) (msg : Message) : Exec State := do
  assert (4097 > msg.length)
  if 0 = msg.nlriLength ∧ 0 = msg.withdrawLength then return s
  else
    let (route, s) ← messageRoute env { s with msgCount := s.msgCount + 1 } msg
    let s ← msg.announced.foldlM (nlriStep env msg.peer route) s
    msg.withdrawals.foldlM (withdrawStep env msg.peer) s

end State

end FastParse
