import FastParse.Phase3.Serialize

namespace FastParse

/-- Undo `encode`; the shift is the 32-bit shift of the processor. -/
def decode (ref : Nat) : Nat :=
  let l := Nat.log2 ref
  let a := shl32 ref (32 - (l : Int))
  (l <<< 32) ||| a

def lookupBigtable (t : Bigtable) (index : Nat) : Exec Nat := do
  assert (index < t.bigtableIndex ∨ tooBig = index)
  return decode (t.bigtable index)

/-- The loop of `build_nlri`. -/
def nlriBytes (address : UInt32) : Nat → List UInt8
  | 0 => []
  | chunk + 1 => (0xff &&& address).toUInt8 :: nlriBytes (address >>> 8) chunk

def buildNlri (out : Mem) (p : Nat) (la : Nat) : Mem × Nat :=
  let address := bswap32 (UInt32.ofNat (addressOf la))
  let length := UInt8.ofNat (lengthOf la)
  putBytes out p (length :: nlriBytes address (chunkSize length.toNat))

/-- `build_nlri(&txp, lookup_bigtable(addrreftable[index]))` over the whole table. -/
def buildNlris (t : Bigtable) (out : Mem) (txp : Nat) : List Nat → Exec (Mem × Nat)
  | [] => return (out, txp)
  | addrref :: rest => do
    let la ← lookupBigtable t addrref
    let (out, txp) := buildNlri out txp la
    buildNlris t out txp rest

def putw16 (out : Mem) (p : Nat) (w : UInt16) : Mem :=
  (putBytes out p [(w >>> 8).toUInt8, w.toUInt8]).1

/-- `sizeof(tx_buffer)` -/
def txBufferSize : Nat := 8192

structure Peergroup where
  serialize : Serializer
  file : Bool

/-- The table `init_peergroups` fills. -/
def peergroups : List Peergroup := [⟨serializeIbgp, false⟩]

/-- `tx_buffer`, of which no message uses more than the first `txBufferSize` bytes, the messages
handed to `fwrite` with the peer group each went to, newest first, and the flag of the one-time
report. -/
structure Tx where
  buffer : Mem
  written : List (Nat × List UInt8)
  overLengthDetected : Bool

/-- The 16-byte marker at the start of `tx_buffer`. -/
def txInit : Tx := ⟨fun i => if i < 16 then 0xff else 0, [], false⟩

/-- `if (file) assert(1 == fwrite(…))`; `disk k` tells whether write number `k` succeeds. -/
def writeFile (disk : Nat → Bool) (pix : Nat) (pg : Peergroup) (length : UInt16) (tx : Tx) :
    Exec Tx := do
  if pg.file then
    assert (disk tx.written.length = true)
    return { tx with written := (pix, (List.range length.toNat).map tx.buffer) :: tx.written }
  else return tx

/-- The branch for `NULL` heads: one message for all peer groups. -/
def emitWithdraw (disk : Nat → Bool) (pgs : List Peergroup) (t : Bigtable) (indices : List Nat)
    (tx : Tx) : Exec Tx := do
  let (out, txp) ← buildNlris t (Function.update tx.buffer 18 2) 23 indices
  within (txp + 2 ≤ txBufferSize)
  let withdrawLength := UInt16.ofNat (txp - 21)
  let updateLength := withdrawLength + 23
  let out := putw16 out 16 updateLength
  let out := putw16 out 19 withdrawLength
  let out := putw16 out txp 0
  pgs.zipIdx.foldlM (fun tx (pg, pix) => writeFile disk pix pg updateLength tx)
    { tx with buffer := out }

/-- One round of the loop over the peer groups in the branch for routes. -/
def emitUpdateTo (disk : Nat → Bool) (t : Bigtable) (route : Route) (indices : List Nat)
    (tx : Tx) (pg : Peergroup) (pix : Nat) : Exec Tx := do
  let (out, txp) ← pg.serialize route tx.buffer 23 4064
  let attributeLength := UInt16.ofNat (txp - 23)
  let out := putw16 out 21 attributeLength
  let (out, txp) ← buildNlris t out txp indices
  within (txp ≤ txBufferSize)
  let updateLength := UInt16.ofNat txp
  let out := putw16 out 16 updateLength
  let tx ← writeFile disk pix pg updateLength { tx with buffer := out }
  return { tx with overLengthDetected := tx.overLengthDetected || decide (4096 < updateLength) }

def emitUpdate (disk : Nat → Bool) (pgs : List Peergroup) (t : Bigtable) (route : Route)
    (indices : List Nat) (tx : Tx) : Exec Tx :=
  pgs.zipIdx.foldlM (fun tx (pg, pix) => emitUpdateTo disk t route indices tx pg pix)
    { tx with buffer := putw16 (Function.update tx.buffer 18 2) 19 0 }

end FastParse
