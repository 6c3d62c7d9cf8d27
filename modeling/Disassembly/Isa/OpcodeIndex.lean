import Disassembly.Isa.Definition

namespace Disassembly

/-- A slot for every opcode with the position of its definition. Positions are kept in sixteen
bits. -/
structure OpcodeIndex where
  slots : Vector (Option UInt16) UInt8.size
deriving DecidableEq, Repr

namespace OpcodeIndex

def empty : OpcodeIndex :=
  ⟨.replicate UInt8.size none⟩

def slot (x : OpcodeIndex) (opcode : UInt8) : Option UInt16 :=
  x.slots.get opcode.toFin

/-- Gives the slot of an opcode to position `i`, unless an earlier position has it. -/
def add (x : OpcodeIndex) (i : Nat) (opcode : UInt8) : OpcodeIndex :=
  match x.slot opcode with
  | none => ⟨x.slots.set opcode.toNat (some (UInt16.ofNat i)) opcode.toNat_lt⟩
  | some _ => x

/-- Adds the definitions of `table`, the first of which stands at position `i`. -/
def addAll (x : OpcodeIndex) (i : Nat) : InstructionTable → OpcodeIndex
  | [] => x
  | d :: table => (x.add i d.opcode).addAll (i + 1) table

def ofTable (table : InstructionTable) : OpcodeIndex :=
  empty.addAll 0 table

/-- The index of a table that passes validation. -/
def ofValid (table : InstructionTable) : Except TableError OpcodeIndex := do
  table.validate
  return ofTable table

/-- The position that the slot of an opcode holds. -/
def lookup? (x : OpcodeIndex) (opcode : UInt8) : Option Nat :=
  (x.slot opcode).map UInt16.toNat

end OpcodeIndex

end Disassembly
