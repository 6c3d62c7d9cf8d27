import Disassembly.Flow.Label
import Disassembly.Memory.Coverage

namespace Disassembly

/-- One line of a listing. -/
inductive Row
  | code (i : Instruction)
  | data (a : Address) (b : UInt8)
  | label (a : Address) (name : String)
  | unmapped (a : Address)
deriving DecidableEq, Repr

namespace Row

/-- The rows of the addresses from `a` up to `stop` before `rows`, latest first: one per
instruction, and one per byte that does not start one. The first gap ends the sweep. -/
def sweepFrom (p : Processor) (img : Image) (stop : Address) (rows : List Row) (a : Address) :
    List Row :=
  if _ha : a < stop then
    match p.decode img.read a with
    | .ok i =>
      if _h : a < i.next then sweepFrom p img stop (code i :: rows) i.next else code i :: rows
    | .error (.unmapped _) => unmapped a :: rows
    | .error _ =>
      let row := data a ((img.read a).getD 0)
      if a + 1 = 0 then row :: rows else sweepFrom p img stop (row :: rows) (a + 1)
  else rows
termination_by UInt32.size - a.toNat
decreasing_by
  · have := UInt32.lt_iff_toNat_lt.mp _h
    have := i.next.toNat_lt_size
    omega
  · have := UInt32.lt_iff_toNat_lt.mp _ha
    have := stop.toNat_lt_size
    have := toNat_succ_of_lt _ha
    omega

def sweep (p : Processor) (img : Image) (start stop : Address) : List Row :=
  (sweepFrom p img stop [] start).reverse

/-- What a listing of one segment walks over. -/
structure Extent where
  coverage : Coverage
  first : Address
  stop : Address

/-- From the first instruction in the segment to the farthest end of one, cut at the end of the
segment. -/
def extent? (x : Exploration) (s : Segment) : Option Extent :=
  match x.instructions.toList.filter fun entry => s.contains entry.1 with
  | [] => none
  | (first, i) :: entries =>
    let is := i :: entries.map Prod.snd
    some {
      coverage := is.foldl (fun c j => c.mark j.address j.size.toNat) (.ofSegment s)
      first
      stop := is.foldl (fun e j => max e (min j.next s.stop)) first }

/-- The rows of the addresses from `a` up to the end of the extent before `rows`, latest first.
A byte inside an instruction that control passes over has no row of its own. -/
def walkFrom (img : Image) (x : Exploration) (labels : Labels) (extent : Extent)
    (rows : List Row) (a : Address) : List Row :=
  if _ha : a < extent.stop then
    let rows := (labels[a]?.map (label a)).toList ++ rows
    match x.instructions[a]? with
    | some i =>
      if _h : a < i.next then walkFrom img x labels extent (code i :: rows) i.next
      else code i :: rows
    | none =>
      let rows := if extent.coverage.covers a then rows else data a ((img.read a).getD 0) :: rows
      walkFrom img x labels extent rows (a + 1)
  else rows
termination_by UInt32.size - a.toNat
decreasing_by
  · have := UInt32.lt_iff_toNat_lt.mp _h
    have := i.next.toNat_lt_size
    omega
  · have := UInt32.lt_iff_toNat_lt.mp _ha
    have := extent.stop.toNat_lt_size
    have := toNat_succ_of_lt _ha
    omega

/-- The explored instructions of a segment in address order, with the bytes between them. -/
def ofSegment (img : Image) (x : Exploration) (labels : Labels) (s : Segment) : List Row :=
  match extent? x s with
  | none => []
  | some extent => (walkFrom img x labels extent [] extent.first).reverse

def listing (img : Image) (x : Exploration) (labels : Labels) : List Row :=
  img.segments.flatMap (ofSegment img x labels)

end Row

end Disassembly
