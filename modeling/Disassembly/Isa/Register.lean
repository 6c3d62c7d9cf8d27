import Disassembly.Text.Digits

namespace Disassembly

/-- A register, by its position in a register table. -/
structure Register where
  id : UInt8
deriving DecidableEq, Repr

namespace Register

/-- The byte that an unused optional register slot holds. -/
def absent : UInt8 := 0xff

/-- Stands in for a register that has no name. -/
def placeholder (r : Register) : String :=
  "r#" ++ decimalText r.id.toNat

end Register

/-- The names of the registers in the order of their ids. -/
structure RegisterTable where
  names : List String
deriving DecidableEq, Repr

namespace RegisterTable

/-- Eight general-purpose registers, four special ones, then the segment registers with the
code segment first and the data segment last. -/
def standard : RegisterTable :=
  ⟨["r0", "r1", "r2", "r3", "r4", "r5", "r6", "r7", "sp", "bp", "ip", "flags", "CS", "DS"]⟩

def size (t : RegisterTable) : Nat :=
  t.names.length

def name? (t : RegisterTable) (r : Register) : Option String :=
  t.names[r.id.toNat]?

def contains (t : RegisterTable) (r : Register) : Bool :=
  r.id.toNat < t.size

theorem isSome_name? (t : RegisterTable) (r : Register) :
    (t.name? r).isSome = t.contains r := by
  rw [Bool.eq_iff_iff, contains, decide_eq_true_eq]
  simp [name?, size]

/-- The first register of that name. Ids are bytes, so a position past 255 wraps around. -/
def lookup? (t : RegisterTable) (name : String) : Option Register :=
  (t.names.idxOf? name).map fun i => ⟨UInt8.ofNat i⟩

def codeSegment? (t : RegisterTable) : Option Register :=
  t.lookup? "CS"

def dataSegment? (t : RegisterTable) : Option Register :=
  t.lookup? "DS"

end RegisterTable

end Disassembly
