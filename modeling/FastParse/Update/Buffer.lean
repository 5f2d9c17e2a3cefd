import FastParse.Update.Parse

namespace FastParse

/-- The state `init` leaves; fresh pages of the slab are zero. -/
def init (env : Env) : State where
  routing := {
    slab := ⟨fun _ => ⟨0, 0, 0, ⟨0, 0, 0, 0, 0, 0, 0, 0⟩, fun _ => 0⟩, initPools env.slab,
      fun _ => initCache⟩
    adjRibIn := fun _ => null
    rib := locribInit
    gate := gateInit
    egress := ⟨txInit, 0, []⟩
    headWrites := []
    receivedPrefixes := 0 }
  unique := 0
  msgCount := 0
  tables := Bigtable.init
  locribReady := false
  updates := 0
  updatePrefixes := 0
  tooLong := 0

/-- `locrib_init` insists on being called once. -/
def reinit (s : State) : Exec State := do
  assert (s.locribReady = false)
  return { s with
    routing := {
      slab := ⟨s.routing.slab.heap, fun z => reinitPool (s.routing.slab.pools z),
        fun _ => initCache⟩
      adjRibIn := fun _ => null
      rib := locribInit
      gate := s.routing.gate
      egress := ⟨{ s.routing.egress.tx with written := [] }, 0, []⟩
      headWrites := []
      receivedPrefixes := 0 }
    tables := Bigtable.init
    locribReady := true
    updates := 0
    updatePrefixes := 0 }

def start (env : Env) : State := { init env with locribReady := true }

/-- `0 == memcmp(marker, ptr, 16)` -/
def markerAt (m : Mem) (p : Nat) : Bool := (List.range 16).all fun i => m (p + i) = 0xff

/-- Messages too short to carry anything, and the first `spare` ones, are passed over. -/
def takeMessage (env : Env) (s : State) (msgCount : UInt32) (msgLength : UInt16)
    (msg : Message) : Exec State :=
  if msgLength > 23 ∧ env.spare ≤ msgCount then s.parseUpdate env msg else .ok s

/-- The message loop. A message of length zero does not move `ptr`. -/
def messageLoop (env : Env) (m : Mem) (pn : Fin npeers) (limit : Nat) :
    Nat → Nat → UInt32 → State → Exec (UInt32 × State)
  | 0, _, _, _ => .error .loop
  | fuel + 1, ptr, msgCount, s =>
    if ptr < limit ∧ (env.msgMax = 0 ∨ msgCount.toUInt64 < env.msgMax) then do
      assert (markerAt m ptr = true)
      let msgLength := getw16 m (ptr + 16)
      let msgType := getw8 m (ptr + 18)
      assert (2 = msgType)
      let s ← takeMessage env s msgCount msgLength ⟨pn, m, ptr + 19, msgLength - 19⟩
      messageLoop env m pn limit fuel (ptr + msgLength.toNat) (msgCount + 1) s
    else .ok (msgCount, s)

structure Buf where
  base : Nat
  length : Int

def bufParsePeer (env : Env) (m : Mem) (fuel : Nat) (s : State) (pn : Fin npeers) (buf : Buf) :
    Exec (UInt32 × State) :=
  messageLoop env m pn (buf.base + buf.length).toNat fuel buf.base 0 s

/-- Stepping back over `base[offset]` until sixteen bytes `0xff` in a row have been seen, or
`offset` is `limit`, which stays 0. -/
def scanBack (m : Mem) (base : Nat) : Nat → Nat → Nat × Nat
  | 0, markCount => (0, markCount)
  | offset + 1, markCount =>
    let markCount := if 0xff ≠ m (base + (offset + 1)) then 0 else markCount + 1
    if 16 = markCount then (offset + 1, markCount) else scanBack m base offset markCount

/-- Chunks `p` to `n - 1`; `start` is the offset at which chunk `p` begins. -/
def splitFrom (m : Mem) (base length n : Nat) : Nat → Nat → Nat → Exec (List Buf)
  | 0, _, _ => .ok []
  | todo + 1, p, start => do
    let (offset, markCount) := scanBack m base ((p + 1) * length / n) 0
    assert (16 = markCount)
    let rest ← splitFrom m base length n todo (p + 1) offset
    return ⟨base + start, (offset : Int) - start⟩ :: rest

def splitBuf (m : Mem) (n base length : Nat) : Exec (List Buf) :=
  splitFrom m base length n n 0 0

/-- `buf_parse`: one thread after the other, then the last flush. `fuel` bounds the rounds of
each message loop. -/
def bufParse (env : Env) (m : Mem) (fuel : Nat) (s : State) (base length : Nat) :
    Exec (UInt32 × State) := do
  let s ← reinit s
  let bufs ← splitBuf m npeers base length
  let (msgCount, s) ← ((List.finRange npeers).zip bufs).foldlM
    (fun (_, s) (pn, buf) => bufParsePeer env m fuel s pn buf) ((0 : UInt32), s)
  let routing ← s.routing.schedulePhase3 env s.tables true
  return (msgCount, { s with routing })

end FastParse
