import Disassembly.Isa.Operand

namespace Disassembly

/-- The bytes that an address space holds, none where an address is not mapped. -/
abbrev ByteSource := Address → Option UInt8

namespace ByteSource

/-- The mapped bytes from `a` on, at most `count` and up to the first gap. Addresses wrap. -/
def take (m : ByteSource) (a : Address) : Nat → List UInt8
  | 0 => []
  | count + 1 =>
    match m a with
    | none => []
    | some b => b :: take m (a + 1) count

theorem length_take_le (m : ByteSource) (a : Address) (count : Nat) :
    (take m a count).length ≤ count := by
  induction count generalizing a with
  | zero => simp [take]
  | succ count ih =>
    rw [take]
    split
    · simp
    · simpa using ih (a + 1)

/-- A buffer of `count` bytes, filled from `a` on and zero behind the first gap. -/
def fill (m : ByteSource) (a : Address) (count : Nat) : List UInt8 :=
  let bytes := m.take a count
  bytes ++ List.replicate (count - bytes.length) 0

end ByteSource

end Disassembly
