import FastParse.Slab.Alloc

namespace FastParse

/-- The loop of `as_path_count` over its 16-bit offset and count. -/
def asPathLoop (m : Mem) (p : Nat) (length : UInt16) :
    Nat → UInt16 → UInt16 → Exec (UInt16 × UInt16)
  | 0, _, _ => .error .loop
  | fuel + 1, offset, pathCount =>
    if offset < length then do
      let segType := m (p + offset.toNat)
      let segLength := m (p + offset.toNat + 1)
      let pathCount ←
        if segType = 1 then pure (pathCount + 1)
        else if segType = 2 then pure (pathCount + segLength.toUInt16)
        else do
          assert (segType < 3)
          pure pathCount
      asPathLoop m p length fuel (offset + (2 + 4 * segLength.toUInt16)) pathCount
    else return (offset, pathCount)

/-- A loop that has taken more rounds than there are offsets never ends. -/
def asPathCount (m : Mem) (p : Nat) (length : UInt16) : Exec UInt8 := do
  let (offset, pathCount) ← asPathLoop m p length (2 ^ 16 + 1) 0 0
  assert (offset = length)
  assert (pathCount < 256)
  return pathCount.toUInt8

namespace Attr

def origin : UInt8 := 1
def asPath : UInt8 := 2
def nextHop : UInt8 := 3
def multiExitDisc : UInt8 := 4
def localPref : UInt8 := 5
def atomicAggregate : UInt8 := 6
def aggregator : UInt8 := 7
def community : UInt8 := 8
def extendedCommunities : UInt8 := 16
def asPathlimit : UInt8 := 21
def largeCommunity : UInt8 := 32
def attrSet : UInt8 := 128

end Attr

open Attr in
/-- The attribute at `p`; only the tiebreak record is filled in. Types that are only
reported on the terminal, or not even that, fall through. -/
def parseAttribute (m : Mem) (typeCode : UInt8) (p : Nat) (length : UInt16)
    (tb : Tiebreak) : Exec Tiebreak := do
  if typeCode > 64 ∧ attrSet ≠ typeCode then return tb
  else if typeCode = origin then return { tb with origin := m p }
  else if typeCode = asPath then
    let count ← asPathCount m p length
    return { tb with pathLength := count }
  else if typeCode = nextHop then
    assert (4 = length)
    return tb
  else if typeCode = multiExitDisc then
    assert (4 = length)
    return { tb with med := load32 m p }
  else if typeCode = localPref then
    assert (4 = length)
    return { tb with localPref := load32 m p }
  else if typeCode = community then
    assert (0 = length % 4)
    return tb
  else if typeCode = extendedCommunities then
    assert (0 = length % 8)
    return tb
  else if typeCode = largeCommunity then
    assert (0 = length % 12)
    return tb
  else if typeCode = atomicAggregate then
    assert (0 = length)
    return tb
  else if typeCode = aggregator then
    assert (8 = length)
    return tb
  else if typeCode = asPathlimit then
    assert (5 = length)
    return tb
  else return tb

/-- The header of an attribute at `p`: type, value length and where the value starts. -/
def attrHeader (m : Mem) (p : Nat) : UInt8 × UInt16 × Nat :=
  let flags := m p
  let attrLength := (m (p + 2)).toUInt16
  if 0x10 &&& flags ≠ 0 then
    (m (p + 1), attrLength <<< 8 ||| (m (p + 3)).toUInt16, p + 4)
  else (m (p + 1), attrLength, p + 3)

/-- `do … while (p < limit)` of `parse_attributes`, with the cursor it ends on. -/
def parseLoop (m : Mem) (limit : Nat) : Nat → Nat → Tiebreak → Exec (Nat × Tiebreak)
  | 0, _, _ => .error .loop
  | fuel + 1, p, tb => do
    let (typeCode, attrLength, value) := attrHeader m p
    let tb ← parseAttribute m typeCode value attrLength tb
    let p := value + attrLength.toNat
    if p < limit then parseLoop m limit fuel p tb
    else return (p, tb)

theorem attrHeader_value (m : Mem) (p : Nat) : p + 3 ≤ (attrHeader m p).2.2 := by
  rw [attrHeader]
  split_ifs
  · exact Nat.le_succ _
  · exact Nat.le_refl _

/-- Every round takes at least three bytes, so one more than the bytes left is fuel enough. -/
theorem parseLoop_rounds {m : Mem} {limit f g p : Nat} {tb : Tiebreak} (hf : limit - p < f)
    (hg : limit - p < g) : parseLoop m limit f p tb = parseLoop m limit g p tb := by
  induction f generalizing g p tb with
  | zero => exact absurd hf (Nat.not_lt_zero _)
  | succ f ih =>
    obtain ⟨g, rfl⟩ : ∃ k, g = k + 1 := ⟨g - 1, by omega⟩
    have hvalue := attrHeader_value m p
    rw [parseLoop, parseLoop]
    generalize attrHeader m p = header at hvalue
    obtain ⟨typeCode, attrLength, value⟩ := header
    cases ht : parseAttribute m typeCode value attrLength tb with
    | error halt => simp only [ht, bind, Except.bind]
    | ok tb' =>
      simp only [ht, bind, Except.bind] at hvalue ⊢
      split_ifs
      · exact ih (by omega) (by omega)
      · rfl

def parseAttributes (m : Mem) (p : Nat) (length : UInt16) (tb : Tiebreak) : Exec Tiebreak := do
  let limit := p + length.toNat
  let (p, tb) ← parseLoop m limit (length.toNat + 1) p tb
  assert (p = limit)
  return tb

structure Peer where
  staticLocalPref : UInt32
  ebgp : Bool
  bgpid : UInt32
  peerAddress : UInt32

abbrev npeers : Nat := 2

/-- In the form that numerals of `Fin npeers` ask for. -/
instance : @NeZero Nat Zero.ofOfNat0 npeers := ⟨Nat.succ_ne_zero 1⟩

/-- The table `init_peers` fills, 192.168.1.1 and 192.168.2.1. -/
def peers : Fin npeers → Peer
  | 0 => ⟨42, true, 0xc0a80101, 0xc0a80101⟩
  | 1 => ⟨43, false, 0xc0a80201, 0xc0a80201⟩

def phase1 (peer : Peer) (tb : Tiebreak) : Tiebreak :=
  { tb with
    ebgp := if peer.ebgp then 1 else 0
    peerAddress := peer.peerAddress
    localPref := peer.staticLocalPref
    bgpid := peer.bgpid }

end FastParse
