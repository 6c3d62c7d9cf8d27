import Disassembly.Flow.Label

namespace Disassembly

/-- All that is derived from an exploration. -/
structure Graph where
  found : Exploration
  roots : List Address
  starts : AddressSet
  blocks : List Block
  owners : AddressMap Address
  edges : List Edge
  routines : List Routine

namespace Graph

/-- The graph for the given entries, with blocks that begin at `starts` if that is given. -/
def ofExploration (x : Exploration) (entries : List Address) (starts : Option AddressSet) : Graph :=
  let roots := x.roots entries
  let starts := starts.getD (x.blockStarts roots)
  let blocks := x.blocks starts
  let owners := Block.owners blocks
  let edges := x.blockEdges owners
  { found := x, roots, starts, blocks, owners, edges, routines := Routine.along (edges.map Edge.link) roots }

def labels (g : Graph) (known : Labels) : Labels :=
  known.complete g.roots g.blocks g.found

end Graph

/-- The graph of the code that control reaches from the entries. -/
def Processor.graph (p : Processor) (img : Image) (limit : Nat) (entries : List Address) : Graph :=
  .ofExploration (p.explore img limit entries) entries none

end Disassembly
