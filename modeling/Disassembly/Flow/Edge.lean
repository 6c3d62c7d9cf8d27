import Disassembly.Isa.Instruction

namespace Disassembly

inductive EdgeKind
  /-- On to the instruction behind. -/
  | flow
  /-- To the target of a jump. -/
  | jump
deriving DecidableEq, Repr

/-- One way in which control leaves an instruction. -/
structure Edge where
  source : Address
  target : Address
  kind : EdgeKind
deriving DecidableEq, Repr

/-- The two ends. -/
def Edge.link (e : Edge) : Address × Address :=
  (e.source, e.target)

namespace Definition

/-- Where control goes from an instruction of this definition, a jump's target first.
Memory operands lead nowhere. -/
def edges (d : Definition) (i : Instruction) : List Edge :=
  let flow : Edge := ⟨i.address, i.next, .flow⟩
  if d.isJump then
    (i.target?.map fun t => ⟨i.address, t, .jump⟩).toList ++ if d.isUncond then [] else [flow]
  else if d.isStop then []
  else [flow]

theorem length_edges_le (d : Definition) (i : Instruction) : (d.edges i).length ≤ 2 := by
  unfold edges
  cases i.target? <;> split <;> (try split) <;> simp

end Definition

namespace InstructionTable

/-- Where control goes from `i`: nowhere if the table has no such definition. -/
def edges (table : InstructionTable) (i : Instruction) : List Edge :=
  (table[i.definition]?.map fun d => d.edges i).getD []

theorem length_edges_le (table : InstructionTable) (i : Instruction) :
    (table.edges i).length ≤ 2 := by
  unfold edges
  cases table[i.definition]? with
  | none => simp
  | some d => simpa using d.length_edges_le i

end InstructionTable

end Disassembly
