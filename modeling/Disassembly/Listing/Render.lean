import Disassembly.Isa.Instruction
import Disassembly.Listing.Line
import Disassembly.Listing.Style

namespace Disassembly

/-- The names that are known for addresses. -/
abbrev Names := Address → Option String

/-- What rendering looks things up in. -/
structure Renderer where
  registers : RegisterTable
  style : Style
  names : Names

namespace Renderer

def register (r : Renderer) (reg : Register) : Token :=
  match r.registers.name? reg with
  | some name => ⟨.register, name⟩
  | none => ⟨.error, reg.placeholder⟩

/-- The registers of a sum, each followed by a plus sign. -/
def terms (r : Renderer) (regs : List Register) : Line :=
  regs.flatMap fun reg => [r.register reg, ⟨.punct, " + "⟩]

def number (r : Renderer) (v : UInt32) : Token :=
  ⟨.number, r.style.number v⟩

/-- A memory reference in brackets. -/
def bracketed (r : Renderer) (regs : List Register) (offset : UInt32) : Line :=
  ⟨.punct, r.style.openBracket⟩ ::
    (r.terms regs ++ [r.number offset, ⟨.punct, r.style.closeBracket⟩])

/-- An address by its name, or as an error if it has none. -/
def address (r : Renderer) (a : Address) : Token :=
  match r.names a with
  | some name => ⟨.symbol, name⟩
  | none => ⟨.error, r.style.number a⟩

def operand (r : Renderer) : Operand → Line
  | .imm value => [r.number value]
  | .reg reg => [r.register reg]
  | .displ base index offset => r.bracketed (base :: index.toList) offset
  | .direct target => [r.address target]
  | .sum width base second third fourth offset =>
    (if width.qualifier.isEmpty then [] else [⟨.punct, width.qualifier⟩]) ++
      r.bracketed (base :: (second.toList ++ third.toList ++ fourth.toList)) offset

/-- A slot of an instruction behind its separator, if the slot is filled. -/
def slot (r : Renderer) (separator : String) (o : Option Operand) : Line :=
  match o with
  | some o => ⟨.punct, separator⟩ :: r.operand o
  | none => []

/-- The mnemonic and the operands that the definition declares. -/
def instruction (r : Renderer) (d : Definition) (i : Instruction) : Line :=
  ⟨.mnemonic, d.mnemonic⟩ ::
    if d.feature.contains .use1 then
      r.slot " " i.operands[0]? ++
        if d.feature.contains .use2 then r.slot ", " i.operands[1]? else []
    else []

end Renderer

namespace InstructionTable

/-- The line of `i`: empty if the table has no such definition. -/
def line (table : InstructionTable) (r : Renderer) (i : Instruction) : Line :=
  (table[i.definition]?.map fun d => r.instruction d i).getD []

end InstructionTable

end Disassembly
