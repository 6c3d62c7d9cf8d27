import Disassembly.Isa.Encoding
import Disassembly.Isa.Feature

namespace Disassembly

/-- One instruction of the machine. -/
structure Definition where
  opcode : UInt8
  mnemonic : String
  feature : Feature
  encoding : Encoding
deriving DecidableEq, Repr

namespace Definition

def isJump (d : Definition) : Bool :=
  d.feature.contains .jump

def isStop (d : Definition) : Bool :=
  d.feature.contains .stop

def isUncond (d : Definition) : Bool :=
  d.feature.contains .uncond

def isCall (d : Definition) : Bool :=
  d.feature.contains .call

def arity (d : Definition) : Nat :=
  d.feature.arity

/-- The mnemonics of jumps that never fall through. -/
def uncondMnemonics : List String := ["jmp", "vm_jmp"]

def isUncondMnemonic (d : Definition) : Bool :=
  uncondMnemonics.contains d.mnemonic

end Definition

/-- Definitions in matching order. -/
abbrev InstructionTable := List Definition

/-- Why a table is refused. -/
inductive TableError
  | duplicateOpcode (opcode : UInt8) (first second : String)
  | arityMismatch (mnemonic : String) (declared encoded : Nat)
  | jumpWithoutTarget (mnemonic : String)
  | uncondMismatch (mnemonic : String)
deriving DecidableEq, Repr

def TableError.message : TableError → String
  | duplicateOpcode opcode first second =>
    "opcode " ++ byteText opcode ++ " defined by both `" ++ first ++ "` and `" ++ second ++ "`"
  | arityMismatch mnemonic declared encoded =>
    "`" ++ mnemonic ++ "` declares " ++ decimalText declared ++
      " operand(s) but its encoding yields " ++ decimalText encoded
  | jumpWithoutTarget mnemonic =>
    "`" ++ mnemonic ++ "` is a jump but its first operand is not an address"
  | uncondMismatch mnemonic =>
    "`" ++ mnemonic ++ "` disagrees with the legacy unconditional-jump list"

/-- A slot for every opcode with the mnemonic of the definition that has taken it. -/
structure TakenOpcodes where
  slots : Vector (Option String) UInt8.size

namespace TakenOpcodes

def empty : TakenOpcodes :=
  ⟨.replicate UInt8.size none⟩

def mnemonic? (x : TakenOpcodes) (opcode : UInt8) : Option String :=
  x.slots.get opcode.toFin

def add (x : TakenOpcodes) (d : Definition) : TakenOpcodes :=
  ⟨x.slots.set d.opcode.toNat (some d.mnemonic) d.opcode.toNat_lt⟩

end TakenOpcodes

namespace Definition

/-- What is wrong with a definition that follows those which have taken their opcodes. -/
def fault? (taken : TakenOpcodes) (d : Definition) : Option TableError :=
  match taken.mnemonic? d.opcode with
  | some first => some (.duplicateOpcode d.opcode first d.mnemonic)
  | none =>
    if d.arity ≠ d.encoding.operandCount then
      some (.arityMismatch d.mnemonic d.arity d.encoding.operandCount)
    else if d.isJump && !d.encoding.firstIsAddress then some (.jumpWithoutTarget d.mnemonic)
    else if d.isJump && d.isUncondMnemonic != d.isUncond then some (.uncondMismatch d.mnemonic)
    else none

end Definition

namespace InstructionTable

/-- The first fault of `table`, where the opcodes `taken` are those of the definitions before it. -/
def firstFault? (taken : TakenOpcodes) : InstructionTable → Option TableError
  | [] => none
  | d :: table => (d.fault? taken).or (firstFault? (taken.add d) table)

/-- Refuses a table on which decoding, successors and rendering would not agree. -/
def validate (table : InstructionTable) : Except TableError Unit :=
  match firstFault? .empty table with
  | some e => .error e
  | none => .ok ()

theorem validate_eq_ok_iff (table : InstructionTable) :
    validate table = .ok () ↔ firstFault? .empty table = none := by
  unfold validate
  cases firstFault? .empty table <;> simp

/-- The position of the first definition of an opcode. Positions are kept in sixteen bits. -/
def lookup? (table : InstructionTable) (opcode : UInt8) : Option Nat :=
  (table.findIdx? (·.opcode == opcode)).map (· % UInt16.size)

/-- The definition of an opcode, with its position. -/
def resolve? (table : InstructionTable) (opcode : UInt8) : Option (Nat × Definition) := do
  let i ← lookup? table opcode
  let d ← table[i]?
  return (i, d)

/-- The instruction set of the machine. -/
def standard : InstructionTable := [
  ⟨0x00, "nop", .empty, .none⟩,
  ⟨0x01, "halt", .stop, .none⟩,
  ⟨0x02, "ret", .stop, .none⟩,
  -- data movement
  ⟨0x10, "mov", .binary, .regReg⟩,
  ⟨0x11, "mov", .binary, .regImm32⟩,
  ⟨0x12, "ld", .binary, .regDispl⟩,
  ⟨0x13, "st", .binary, .displReg⟩,
  ⟨0x14, "ldm", .binary, .regMem⟩,
  ⟨0x15, "stm", .binary, .memReg⟩,
  ⟨0x16, "vm_ld", .binary, .regSum⟩,
  ⟨0x17, "vm_st", .binary, .sumReg⟩,
  ⟨0x18, "lea", .binary, .regSum⟩,
  -- arithmetic and logic
  ⟨0x20, "add", .binary, .regReg⟩,
  ⟨0x21, "sub", .binary, .regReg⟩,
  ⟨0x22, "xor", .binary, .regReg⟩,
  ⟨0x23, "and", .binary, .regReg⟩,
  ⟨0x24, "or", .binary, .regReg⟩,
  ⟨0x25, "shl", .binary, .regImm8⟩,
  ⟨0x26, "shr", .binary, .regImm8⟩,
  ⟨0x27, "not", .use1, .reg⟩,
  ⟨0x28, "inc", .use1, .reg⟩,
  ⟨0x29, "dec", .use1, .reg⟩,
  ⟨0x2A, "addi", .binary, .regImm32⟩,
  ⟨0x2B, "cmp", .binary, .regReg⟩,
  ⟨0x2C, "cmpi", .binary, .regImm32⟩,
  -- stack
  ⟨0x30, "push", .use1, .imm8⟩,
  ⟨0x31, "push", .use1, .reg⟩,
  ⟨0x32, "pop", .use1, .reg⟩,
  ⟨0x33, "pushd", .use1, .imm32⟩,
  -- control flow
  ⟨0x40, "jmp", .goto, .near16⟩,
  ⟨0x41, "jz", .branch, .near16⟩,
  ⟨0x42, "jnz", .branch, .near16⟩,
  ⟨0x43, "jl", .branch, .near16⟩,
  ⟨0x44, "jg", .branch, .near16⟩,
  ⟨0x45, "call", .invoke, .near16⟩,
  ⟨0x46, "vm_jmp", .goto, .far32⟩,
  ⟨0x47, "vm_call", .invoke, .far32⟩,
  -- host interface
  ⟨0x50, "vmcall", .use1, .imm8⟩,
  ⟨0x51, "vm_exit", .stop, .none⟩]

theorem validate_standard : validate standard = .ok () := by
  rw [validate_eq_ok_iff]
  decide +kernel

end InstructionTable

end Disassembly
