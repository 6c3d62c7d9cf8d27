import Disassembly.Flow.Exploration

namespace Disassembly

namespace Exploration

/-- The entries in the given order, then the decoded call targets that are none of them. -/
def roots (x : Exploration) (entries : List Address) : List Address :=
  entries ++ x.callTargets.toList.filter fun t => x.instructions.contains t && !entries.contains t

/-- Where blocks begin: at the decoded ones among the given seeds, the targets of jumps, and
the addresses behind jumps. -/
def blockStarts (x : Exploration) (seeds : List Address) : AddressSet :=
  let leaders := x.edges.toList.filter fun e => e.kind == .jump || x.isJumpSource e.source
  (Std.ExtTreeSet.ofList (seeds ++ leaders.map Edge.target) compare).filter
    fun a => x.instructions.contains a

end Exploration

/-- A run of instructions, each of which falls through to the next. -/
structure Block where
  start : Address
  /-- The addresses of the instructions in order. -/
  body : List Address
  /-- The address behind the last instruction. -/
  stop : Address
deriving DecidableEq, Repr

namespace Exploration

/-- The instruction that continues the block of the instruction `i` at `a`: the one behind it,
if control only falls through to it and no block begins there. -/
def continuation? (x : Exploration) (starts : AddressSet) (a : Address) (i : Instruction) :
    Option Instruction :=
  if x.fallsThrough a && !x.isJumpSource a && !starts.contains i.next && a < i.next then
    x.instructions[i.next]?
  else none

theorem lt_next_of_continuation? {x : Exploration} {starts : AddressSet} {a : Address}
    {i j : Instruction} (h : x.continuation? starts a i = some j) : a < i.next := by
  unfold continuation? at h
  split at h
  · next hc =>
    simp only [Bool.and_eq_true, decide_eq_true_eq] at hc
    exact hc.2
  · simp at h

/-- The block from `start` on, of which `body` is known, latest first, and that goes on with the
instruction `i` at `a`. -/
def blockFrom (x : Exploration) (starts : AddressSet) (start : Address) (body : List Address)
    (a : Address) (i : Instruction) : Block :=
  match _h : x.continuation? starts a i with
  | some j => x.blockFrom starts start (a :: body) i.next j
  | none => ⟨start, (a :: body).reverse, i.next⟩
termination_by UInt32.size - a.toNat
decreasing_by
  have := UInt32.lt_iff_toNat_lt.mp (lt_next_of_continuation? _h)
  have := i.next.toNat_lt_size
  omega

def block? (x : Exploration) (starts : AddressSet) (start : Address) : Option Block :=
  x.instructions[start]?.map (x.blockFrom starts start [] start)

/-- One block for each decoded start, in ascending order. -/
def blocks (x : Exploration) (starts : AddressSet) : List Block :=
  starts.toList.filterMap (x.block? starts)

end Exploration

namespace Block

/-- Makes `b` the block of its instructions. -/
def claim (owners : AddressMap Address) (b : Block) : AddressMap Address :=
  b.body.foldl (fun m a => m.insert a b.start) owners

/-- The start of the block of each instruction. Where blocks share instructions the last of
them counts. -/
def owners (bs : List Block) : AddressMap Address :=
  bs.foldl claim ∅

end Block

/-- The block of an address, or the address itself if it is in none. -/
def blockOf (owners : AddressMap Address) (a : Address) : Address :=
  owners.getD a a

/-- The edge between the blocks of the ends, unless it only falls through inside one block. -/
def Edge.betweenBlocks? (owners : AddressMap Address) (e : Edge) : Option Edge :=
  let source := blockOf owners e.source
  if owners[e.target]? = some source ∧ e.kind = .flow then none
  else some ⟨source, blockOf owners e.target, e.kind⟩

/-- The edges between blocks in the order of discovery. -/
def Exploration.blockEdges (x : Exploration) (owners : AddressMap Address) : List Edge :=
  x.edges.toList.filterMap (Edge.betweenBlocks? owners)

end Disassembly
