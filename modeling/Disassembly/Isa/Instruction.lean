import Disassembly.Isa.Definition
import Disassembly.Isa.Field
import Disassembly.Memory.ByteSource

namespace Disassembly

/-- A decoded instruction. Its definition is named by the position in the table. -/
structure Instruction where
  address : Address
  definition : Nat
  size : UInt8
  operands : List Operand
deriving DecidableEq, Repr

namespace Instruction

/-- The address behind the instruction. -/
def next (i : Instruction) : Address :=
  i.address + i.size.toUInt32

/-- The address that the first operand gives. -/
def target? (i : Instruction) : Option Address :=
  i.operands[0]?.bind Operand.target?

end Instruction

/-- Why an address holds no instruction. -/
inductive DecodeError
  | unmapped (address : Address)
  | unrecognizedOpcode (address : Address) (byte : UInt8)
  | truncated (address : Address) (mnemonic : String) (needed available : Nat)
  | badRegister (address : Address) (byte : UInt8)
  | badWidth (address : Address) (byte : UInt8)
deriving DecidableEq, Repr

namespace DecodeError

def message : DecodeError → String
  | unmapped a => "no byte mapped at " ++ addressText a
  | unrecognizedOpcode a b => "unrecognized opcode " ++ byteText b ++ " at " ++ addressText a
  | truncated a mnemonic needed available =>
    "`" ++ mnemonic ++ "` at " ++ addressText a ++ " needs " ++ decimalText needed ++
      " bytes, only " ++ decimalText available ++ " available"
  | badRegister a b =>
    "invalid register byte " ++ byteText b ++ " in instruction at " ++ addressText a
  | badWidth a b => "invalid width tag " ++ byteText b ++ " in instruction at " ++ addressText a

def address : DecodeError → Address
  | unmapped a => a
  | unrecognizedOpcode a _ => a
  | truncated a _ _ _ => a
  | badRegister a _ => a
  | badWidth a _ => a

/-- Whether the byte at the address can be shown as data. -/
def isData : DecodeError → Bool
  | unmapped _ => false
  | _ => true

/-- The failure of a field of an instruction of `d` at `a`. -/
def ofField (a : Address) (d : Definition) : FieldError → DecodeError
  | .register b => badRegister a b
  | .width b => badWidth a b
  | .overrun => truncated a d.mnemonic d.encoding.size d.encoding.size

end DecodeError

namespace InstructionTable

/-- The instruction of definition `d`, which stands at position `i`, in the bytes from `a` on. -/
def decodeAs (registers : RegisterTable) (m : ByteSource) (a : Address) (i : Nat) (d : Definition) :
    Except DecodeError Instruction :=
  let bytes := m.take a d.encoding.size
  if bytes.length < d.encoding.size then
    .error (.truncated a d.mnemonic d.encoding.size bytes.length)
  else
    match d.encoding.decode registers bytes with
    | .error e => .error (.ofField a d e)
    | .ok operands => .ok ⟨a, i, UInt8.ofNat d.encoding.size, operands⟩

/-- The instruction at `a`. -/
def decode (table : InstructionTable) (registers : RegisterTable) (m : ByteSource) (a : Address) :
    Except DecodeError Instruction :=
  match m a with
  | none => .error (.unmapped a)
  | some opcode =>
    match table.resolve? opcode with
    | none => .error (.unrecognizedOpcode a opcode)
    | some (i, d) => decodeAs registers m a i d

end InstructionTable

end Disassembly
