import Disassembly.Isa.Operand

namespace Disassembly

/-- How one operand is laid out in bytes. Numbers are little-endian. -/
inductive Form
  | imm8
  | imm32
  | reg
  /-- A base register, an optional index register and a 16-bit offset. -/
  | displ
  /-- A 32-bit memory address. -/
  | memory
  /-- A 16-bit code address. -/
  | near
  /-- A 32-bit code address. -/
  | far
  /-- A width tag, a base register, three optional registers and a 32-bit offset. -/
  | sum
deriving DecidableEq, Repr

namespace Form

/-- The number of bytes of an operand. -/
def size : Form → Nat
  | imm8 => 1
  | imm32 => 4
  | reg => 1
  | displ => 4
  | memory => 4
  | near => 2
  | far => 4
  | sum => 9

/-- The number of bytes of operands one after another. -/
def totalSize : List Form → Nat
  | [] => 0
  | f :: fs => f.size + totalSize fs

def isCodeAddress : Form → Bool
  | near => true
  | far => true
  | _ => false

end Form

/-- The operand layouts of instructions. -/
inductive Encoding
  | none
  | imm8
  | imm32
  | reg
  | regReg
  | regImm8
  | regImm32
  | regDispl
  | displReg
  | regMem
  | memReg
  | near16
  | far32
  | regSum
  | sumReg
deriving DecidableEq, Repr

namespace Encoding

/-- The forms of the operands, which follow the opcode byte in this order. -/
def layout : Encoding → List Form
  | none => []
  | imm8 => [.imm8]
  | imm32 => [.imm32]
  | reg => [.reg]
  | regReg => [.reg, .reg]
  | regImm8 => [.reg, .imm8]
  | regImm32 => [.reg, .imm32]
  | regDispl => [.reg, .displ]
  | displReg => [.displ, .reg]
  | regMem => [.reg, .memory]
  | memReg => [.memory, .reg]
  | near16 => [.near]
  | far32 => [.far]
  | regSum => [.reg, .sum]
  | sumReg => [.sum, .reg]

def operandCount (e : Encoding) : Nat :=
  e.layout.length

theorem operandCount_eq (e : Encoding) :
    e.operandCount = match e with
      | none => 0
      | imm8 | imm32 | reg | near16 | far32 => 1
      | regReg | regImm8 | regImm32 | regDispl | displReg | regMem | memReg | regSum
      | sumReg => 2 := by
  cases e <;> rfl

/-- The length of an instruction, opcode included. -/
def size (e : Encoding) : Nat :=
  1 + Form.totalSize e.layout

/-- The longest instruction. -/
def maxSize : Nat := 11

theorem size_eq (e : Encoding) :
    e.size = match e with
      | none => 1
      | imm8 | reg => 2
      | regReg | regImm8 | near16 => 3
      | imm32 | far32 => 5
      | regImm32 | regDispl | displReg | regMem | memReg => 6
      | regSum | sumReg => 11 := by
  cases e <;> rfl

theorem size_le_maxSize (e : Encoding) : e.size ≤ maxSize := by
  cases e <;> decide

theorem size_pos (e : Encoding) : 0 < e.size := by
  cases e <;> decide

def firstIsAddress (e : Encoding) : Bool :=
  e.layout.head?.any Form.isCodeAddress

theorem firstIsAddress_iff {e : Encoding} : e.firstIsAddress ↔ e = near16 ∨ e = far32 := by
  cases e <;> decide

end Encoding

end Disassembly
