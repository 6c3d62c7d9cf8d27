import Disassembly.Flow.Edge
import Disassembly.Listing.Render

namespace Disassembly

/-- A machine description whose parts agree with each other, with the user's configuration. -/
structure Processor where
  table : InstructionTable
  registers : RegisterTable
  config : Config
  valid : table.validate = .ok ()

namespace Processor

def ofTables (table : InstructionTable) (registers : RegisterTable) (config : Config) :
    Except TableError Processor :=
  match h : table.validate with
  | .ok () => .ok ⟨table, registers, config, h⟩
  | .error e => .error e

/-- The machine itself. -/
def standard (config : Config) : Processor :=
  ⟨.standard, .standard, config, InstructionTable.validate_standard⟩

def definition? (p : Processor) (i : Instruction) : Option Definition :=
  p.table[i.definition]?

def decode (p : Processor) (m : ByteSource) (a : Address) : Except DecodeError Instruction :=
  p.table.decode p.registers m a

def edges (p : Processor) (i : Instruction) : List Edge :=
  p.table.edges i

def renderer (p : Processor) (names : Names) : Renderer :=
  ⟨p.registers, p.config.style, names⟩

def operandLine (p : Processor) (names : Names) (o : Operand) : Line :=
  (p.renderer names).operand o

def line (p : Processor) (names : Names) (i : Instruction) : Line :=
  p.table.line (p.renderer names) i

end Processor

end Disassembly
