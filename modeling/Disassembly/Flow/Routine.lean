import Disassembly.Flow.Block

namespace Disassembly

/-- A routine: all blocks that control can reach from its entry. -/
structure Routine where
  entry : Address
  /-- The blocks in ascending order. -/
  blocks : List Address
deriving DecidableEq, Repr

/-- What each address leads to, in the order of the links. -/
def successors (links : List (Address × Address)) : AddressMap (List Address) :=
  links.foldr (fun link m => m.insert link.1 (link.2 :: m.getD link.1 [])) ∅

/-- Adds to `seen` what can be reached from `todo` without passing through `seen`. The search goes
depth first: a queue would take the addresses in another order and find the same set. -/
def reach (next : Address → List Address) (seen : AddressSet) (todo : List Address) : AddressSet :=
  match todo with
  | [] => seen
  | a :: todo =>
    if _h : seen.contains a then reach next seen todo
    else reach next (seen.insert a) (next a ++ todo)
termination_by (UInt32.size - seen.size, todo.length)
decreasing_by
  · exact Prod.Lex.right _ (by simp)
  · apply Prod.Lex.left
    have hsize : (seen.insert a).size = seen.size + 1 := by
      simp [Std.ExtTreeSet.size_insert, _h]
    have := AddressSet.size_le (seen.insert a)
    omega

namespace Routine

/-- One routine per entry, along the given links. -/
def along (links : List (Address × Address)) (entries : List Address) : List Routine :=
  let next := successors links
  entries.map fun entry => ⟨entry, (reach (fun a => next.getD a []) ∅ [entry]).toList⟩

end Routine

end Disassembly
