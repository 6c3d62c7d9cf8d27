import Disassembly.Memory.ByteSource

namespace Disassembly

/-- One flat buffer, mapped at a base address. -/
structure LinearMemory where
  bytes : Array UInt8
  base : Address
deriving DecidableEq, Repr

namespace LinearMemory

/-- Zeroed memory at address zero. -/
def zeroed (size : Nat) : LinearMemory :=
  ⟨Array.replicate size 0, 0⟩

/-- The place of an address in the buffer. -/
def offset? (m : LinearMemory) (a : Address) : Option Nat :=
  if m.base ≤ a ∧ a.toNat - m.base.toNat < m.bytes.size then some (a.toNat - m.base.toNat)
  else none

def read (m : LinearMemory) : ByteSource := fun a =>
  (m.offset? a).bind fun i => m.bytes[i]?

/-- Puts `new` over the part of `bytes` that starts at `i`. -/
def overwrite (bytes : Array UInt8) (i : Nat) : List UInt8 → Array UInt8
  | [] => bytes
  | b :: new => overwrite (bytes.setIfInBounds i b) (i + 1) new

theorem size_overwrite (bytes : Array UInt8) (i : Nat) (new : List UInt8) :
    (overwrite bytes i new).size = bytes.size := by
  induction new generalizing bytes i with
  | nil => rfl
  | cons b new ih => rw [overwrite, ih, Array.size_setIfInBounds]

/-- Writes all of `new` at `a`, or nothing if some of it would fall outside. -/
def write? (m : LinearMemory) (a : Address) (new : List UInt8) : Option LinearMemory :=
  match m.offset? a with
  | none => none
  | some i =>
    if i + new.length ≤ m.bytes.size then some { m with bytes := overwrite m.bytes i new }
    else none

end LinearMemory

/-- Bytes that are to be put at an address and the ones behind it. -/
structure Write where
  address : Address
  bytes : List UInt8
deriving DecidableEq, Repr

/-- Carries out a write and tells whether it did. One that fails leaves the memory as it is. -/
def LinearMemory.write (m : LinearMemory) (w : Write) : Bool × LinearMemory :=
  match m.write? w.address w.bytes with
  | some written => (true, written)
  | none => (false, m)

end Disassembly
