import Disassembly.Memory.Image

namespace Disassembly

/-- Which bytes of a segment belong to a decoded instruction. -/
structure Coverage where
  base : Address
  marked : Array Bool
deriving DecidableEq, Repr

namespace Coverage

def ofSegment (s : Segment) : Coverage :=
  ⟨s.base, Array.replicate s.bytes.size false⟩

/-- Sets the `count` entries from `i` on. -/
def setRange (marked : Array Bool) (i : Nat) : Nat → Array Bool
  | 0 => marked
  | count + 1 => setRange (marked.setIfInBounds i true) (i + 1) count

/-- Marks `length` bytes from `a` on, as far as they lie in the segment. A range that starts
below the segment marks nothing. -/
def mark (c : Coverage) (a : Address) (length : Nat) : Coverage :=
  if c.base ≤ a then
    let start := a.toNat - c.base.toNat
    { c with marked := setRange c.marked start (min (start + length) c.marked.size - start) }
  else c

def covers (c : Coverage) (a : Address) : Bool :=
  c.base ≤ a && c.marked[a.toNat - c.base.toNat]? == some true

def count (c : Coverage) : Nat :=
  c.marked.count true

end Coverage

end Disassembly
