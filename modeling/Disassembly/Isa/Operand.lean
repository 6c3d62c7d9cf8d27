import Disassembly.Isa.Register

namespace Disassembly

/-- A place in the 32-bit address space; arithmetic on addresses wraps. -/
abbrev Address := UInt32

/-- Below another address the next one does not wrap. -/
theorem toNat_succ_of_lt {a b : Address} (h : a < b) : (a + 1).toNat = a.toNat + 1 := by
  have hlt := UInt32.lt_iff_toNat_lt.mp h
  have hb := b.toNat_lt
  rw [UInt32.toNat_add, UInt32.toNat_one]
  omega

/-- The size qualifier of a memory operand. -/
inductive Width
  | unspecified
  | byte
  | word
  | dword
deriving DecidableEq, Repr

namespace Width

def ofTag? : UInt8 → Option Width
  | 0 => some .unspecified
  | 1 => some .byte
  | 2 => some .word
  | 4 => some .dword
  | _ => none

def tag : Width → UInt8
  | .unspecified => 0
  | .byte => 1
  | .word => 2
  | .dword => 4

theorem ofTag?_eq_some {b : UInt8} {w : Width} : ofTag? b = some w ↔ b = w.tag := by
  constructor
  · unfold ofTag?
    split <;> simp_all <;> rintro rfl <;> rfl
  · rintro rfl
    cases w <;> rfl

/-- What stands in front of the brackets. -/
def qualifier : Width → String
  | .unspecified => ""
  | .byte => "byte ptr "
  | .word => "word ptr "
  | .dword => "dword ptr "

end Width

inductive Operand
  | imm (value : UInt32)
  | reg (r : Register)
  /-- Memory at a base register, an optional index register and an offset. -/
  | displ (base : Register) (index : Option Register) (offset : UInt32)
  /-- Code or memory at a fixed address. -/
  | direct (target : Address)
  /-- Memory at the sum of one to four registers and an offset. -/
  | sum (width : Width) (base : Register) (second third fourth : Option Register) (offset : UInt32)
deriving DecidableEq, Repr

namespace Operand

def target? : Operand → Option Address
  | direct target => some target
  | _ => none

/-- The registers that an operand names, in order. -/
def registers : Operand → List Register
  | imm _ => []
  | reg r => [r]
  | displ base index _ => base :: index.toList
  | direct _ => []
  | sum _ base second third fourth _ => base :: (second.toList ++ third.toList ++ fourth.toList)

end Operand

end Disassembly
