import FastParse.Framework.Run
import Mathlib.Algebra.Group.Nat.Defs

namespace FastParse

/-- Why the process does not get past a point of the program. -/
inductive Halt where
  /-- a failed `assert` -/
  | assertion
  /-- an access through a pointer that does not point into the slab -/
  | segv
  /-- an access past the end of an array of a fixed size -/
  | bounds
  /-- the fuel of a loop is used up -/
  | loop
  deriving DecidableEq, Repr

abbrev Exec := Except Halt

def assert (p : Prop) [Decidable p] : Exec Unit :=
  if p then .ok () else .error .assertion

@[simp] theorem assert_bind_ok {α : Type} {p : Prop} [Decidable p] {f : Unit → Exec α} {a : α} :
    assert p >>= f = .ok a ↔ p ∧ f () = .ok a := by
  by_cases h : p <;> simp [assert, h, bind, Except.bind]

/-- What the program does past the end of an array is not modelled. -/
def within (p : Prop) [Decidable p] : Exec Unit :=
  if p then .ok () else .error .bounds

@[simp] theorem within_bind_ok {α : Type} {p : Prop} [Decidable p] {f : Unit → Exec α} {a : α} :
    within p >>= f = .ok a ↔ p ∧ f () = .ok a := by
  by_cases h : p <;> simp [within, h, bind, Except.bind]

theorem within_bind {α : Type} {p : Prop} [Decidable p] {f : Unit → Exec α} (h : p) :
    within p >>= f = f () := by
  rw [within, if_pos h]
  rfl

/-- A 64-bit pointer; only buffers of the slab are ever dereferenced. -/
abbrev Ptr := Nat

abbrev null : Ptr := 0

/-- `(void*) ~(0LL)`, the same value as `NULL-1`. -/
def emptyPtr : Ptr := 2 ^ 64 - 1

/-- Memory as bytes by offset: the mapped input file, or what follows a `struct route`. -/
abbrev Mem := Nat → UInt8

def bswap16 (w : UInt16) : UInt16 := (w <<< 8) ||| (w >>> 8)

def bswap32 (w : UInt32) : UInt32 :=
  (w <<< 24) ||| ((w &&& (0xff00 : UInt32)) <<< 8) ||| ((w >>> 8) &&& (0xff00 : UInt32)) |||
    (w >>> 24)

def getw8 (m : Mem) (p : Nat) : UInt8 := m p

/-- A little-endian load, swapped. -/
def getw16 (m : Mem) (p : Nat) : UInt16 :=
  bswap16 ((m p).toUInt16 ||| ((m (p + 1)).toUInt16 <<< 8))

/-- `*(uint32_t *)p` on a little-endian host. -/
def load32 (m : Mem) (p : Nat) : UInt32 :=
  (m p).toUInt32 ||| ((m (p + 1)).toUInt32 <<< 8) ||| ((m (p + 2)).toUInt32 <<< 16) |||
    ((m (p + 3)).toUInt32 <<< 24)

/-- `memcpy` of `n` bytes from `src` at `p` to `out` at `q`. -/
def memcpy (out : Mem) (q : Nat) (src : Mem) (p n : Nat) : Mem :=
  fun i => if q ≤ i ∧ i < q + n then src (p + (i - q)) else out i

/-- A 32-bit left shift as x86 does it: the count is taken modulo 32. -/
def shl32 (x : Nat) (count : Int) : Nat := (x <<< (count % 32).toNat) % 2 ^ 32

theorem update_if_cases {α β : Type} [DecidableEq α] {f f' : α → β} {a : α} {v : β} {p : Prop}
    [Decidable p] (h : f' = if p then Function.update f a v else f) (b : α) :
    b = a ∧ p ∧ f' b = v ∨ (p → b ≠ a) ∧ f' b = f b := by
  rw [h]
  split_ifs with hp
  · by_cases e : b = a
    · left
      rw [e, Function.update_self]
      exact ⟨rfl, hp, rfl⟩
    · right
      rw [Function.update_of_ne e]
      exact ⟨fun _ => e, rfl⟩
  · exact .inr ⟨fun h => absurd h hp, rfl⟩

end FastParse
