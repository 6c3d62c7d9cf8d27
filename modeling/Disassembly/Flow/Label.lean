import Disassembly.Flow.Routine

namespace Disassembly

/-- Names of addresses. -/
abbrev Labels := AddressMap String

namespace Labels

/-- A later name for an address replaces the earlier. -/
def ofList (pairs : List (Address × String)) : Labels :=
  pairs.foldl (fun labels pair => labels.insert pair.1 pair.2) ∅

def names (labels : Labels) : Names := fun a =>
  labels[a]?

/-- The name of a routine that nobody named. -/
def routineName (a : Address) : String :=
  "sub_" ++ hexText 8 a.toNat

/-- The name of any other place in the code that nobody named. -/
def placeName (a : Address) : String :=
  "loc_" ++ hexText 8 a.toNat

/-- Names the addresses that have no name yet. -/
def nameAll (nameOf : Address → String) (labels : Labels) (as : List Address) : Labels :=
  as.foldl (fun labels a => labels.insertIfNew a (nameOf a)) labels

/-- The decoded targets of jumps. -/
def jumpTargets (x : Exploration) : List Address :=
  (x.edges.toList.filter fun e => e.kind == .jump && x.instructions.contains e.target).map Edge.target

/-- Names the roots as routines, and then the blocks and the decoded jump targets as places.
A name that exists stays. -/
def complete (labels : Labels) (roots : List Address) (blocks : List Block) (x : Exploration) :
    Labels :=
  let named := nameAll routineName labels roots
  let named := nameAll placeName named (blocks.map Block.start)
  nameAll placeName named (jumpTargets x)

end Labels

end Disassembly
