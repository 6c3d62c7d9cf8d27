import Disassembly.Isa.Encoding

namespace Disassembly

/-- Why the bytes of an instruction hold no operands. -/
inductive FieldError
  | register (byte : UInt8)
  | width (byte : UInt8)
  | overrun
deriving DecidableEq, Repr

/-- The number whose little-endian bytes are `bs`. -/
def ofLittleEndian (bs : List UInt8) : Nat :=
  bs.foldr (fun b n => b.toNat + 256 * n) 0

/-- The lowest `count` bytes of `n`, lowest first. -/
def toLittleEndian : Nat → Nat → List UInt8
  | 0, _ => []
  | count + 1, n => UInt8.ofNat n :: toLittleEndian count (n / 256)

/-- Reads from the front of a byte string and leaves the rest. -/
abbrev FieldReader := StateT (List UInt8) (Except FieldError)

namespace FieldReader

def byte : FieldReader UInt8
  | [] => .error .overrun
  | b :: bs => .ok (b, bs)

/-- The next `count` bytes as a little-endian number. -/
def number (count : Nat) : FieldReader UInt32 := fun bs =>
  if count ≤ bs.length then .ok (UInt32.ofNat (ofLittleEndian (bs.take count)), bs.drop count)
  else .error .overrun

def register (table : RegisterTable) : FieldReader Register := do
  let b ← byte
  if table.contains ⟨b⟩ then return ⟨b⟩ else throw (.register b)

/-- A register slot that may be unused. -/
def register? (table : RegisterTable) : FieldReader (Option Register) := do
  let b ← byte
  if b = Register.absent then return none
  else if table.contains ⟨b⟩ then return some ⟨b⟩
  else throw (.register b)

def width : FieldReader Width := do
  let b ← byte
  match Width.ofTag? b with
  | some w => return w
  | none => throw (.width b)

def operand (table : RegisterTable) : Form → FieldReader Operand
  | .imm8 => do
    let value ← number 1
    return .imm value
  | .imm32 => do
    let value ← number 4
    return .imm value
  | .reg => do
    let r ← register table
    return .reg r
  | .displ => do
    let base ← register table
    let index ← register? table
    let offset ← number 2
    return .displ base index offset
  | .memory => do
    let target ← number 4
    return .direct target
  | .near => do
    let target ← number 2
    return .direct target
  | .far => do
    let target ← number 4
    return .direct target
  | .sum => do
    let w ← width
    let base ← register table
    let second ← register? table
    let third ← register? table
    let fourth ← register? table
    let offset ← number 4
    return .sum w base second third fourth offset

def operands (table : RegisterTable) : List Form → FieldReader (List Operand)
  | [] => return []
  | form :: forms => do
    let o ← operand table form
    let os ← operands table forms
    return o :: os

end FieldReader

namespace Encoding

/-- The operands in the bytes of an instruction, opcode included. Fields are read from left
to right and the first that fails decides. -/
def decode (e : Encoding) (table : RegisterTable) (bytes : List UInt8) :
    Except FieldError (List Operand) :=
  (FieldReader.operands table e.layout (bytes.drop 1)).map Prod.fst

end Encoding

def Register.slot : Option Register → UInt8
  | none => Register.absent
  | some r => r.id

namespace Form

/-- The bytes of an operand of this form, if it is one. -/
def encode? : Form → Operand → Option (List UInt8)
  | imm8, .imm value => some (toLittleEndian 1 value.toNat)
  | imm32, .imm value => some (toLittleEndian 4 value.toNat)
  | reg, .reg r => some [r.id]
  | displ, .displ base index offset =>
    some (base.id :: Register.slot index :: toLittleEndian 2 offset.toNat)
  | memory, .direct target => some (toLittleEndian 4 target.toNat)
  | near, .direct target => some (toLittleEndian 2 target.toNat)
  | far, .direct target => some (toLittleEndian 4 target.toNat)
  | sum, .sum width base second third fourth offset =>
    some (width.tag :: base.id :: Register.slot second :: Register.slot third ::
      Register.slot fourth :: toLittleEndian 4 offset.toNat)
  | _, _ => none

/-- The bytes of operands one after another, if they are of these forms. -/
def encodeAll? : List Form → List Operand → Option (List UInt8)
  | [], [] => some []
  | f :: fs, o :: os => do
    let bytes ← f.encode? o
    let rest ← encodeAll? fs os
    return bytes ++ rest
  | _, _ => none

end Form

namespace Encoding

/-- The bytes that follow the opcode, if the operands fit the layout. -/
def encode? (e : Encoding) (operands : List Operand) : Option (List UInt8) :=
  Form.encodeAll? e.layout operands

end Encoding

end Disassembly
