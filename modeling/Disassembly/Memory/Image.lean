import Disassembly.Memory.ByteSource

namespace Disassembly

/-- A run of bytes that is loaded at a base address. -/
structure Segment where
  name : String
  base : Address
  bytes : Array UInt8
  permissions : String
  kind : String
deriving DecidableEq, Repr

namespace Segment

/-- A segment of plain code bytes. -/
def raw (name : String) (base : Address) (bytes : Array UInt8) : Segment :=
  ⟨name, base, bytes, "r-x", "raw"⟩

/-- The address behind the last byte. It wraps for a segment that reaches the end of the
address space, and such a segment contains no address. -/
def stop (s : Segment) : Address :=
  s.base + UInt32.ofNat s.bytes.size

def contains (s : Segment) (a : Address) : Bool :=
  s.base ≤ a && a < s.stop

end Segment

/-- The loaded program. Where segments overlap, the earlier one counts. -/
structure Image where
  segments : List Segment
deriving DecidableEq, Repr

namespace Image

def segment? (img : Image) (a : Address) : Option Segment :=
  img.segments.find? (·.contains a)

def isMapped (img : Image) (a : Address) : Bool :=
  (img.segment? a).isSome

def read (img : Image) : ByteSource := fun a =>
  (img.segment? a).bind fun s => s.bytes[(a - s.base).toNat]?

/-- The segments at the given bases, named by their position. -/
def ofParts (parts : List (Address × Array UInt8)) : Image :=
  ⟨parts.mapIdx fun i part => .raw ("segment" ++ decimalText i) part.1 part.2⟩

def single (base : Address) (bytes : Array UInt8) : Image :=
  ofParts [(base, bytes)]

end Image

/-- Why a file cannot be loaded. -/
inductive LoadError
  | skipTooLong
  | lengthTooLong
  | doesNotFit (base : Address)
deriving DecidableEq, Repr

def LoadError.message : LoadError → String
  | skipTooLong => "--skip exceeds file size"
  | lengthTooLong => "--len exceeds remaining file size after skip"
  | doesNotFit base => "image does not fit in the 32-bit address space at " ++ addressText base

namespace Image

/-- How many of the `size` bytes of a file are loaded at `base`: all behind the first `skip`, or
`length` of them. Whether they fit below the end of the address space is told from their number
modulo its size. -/
def loadSize (size : Nat) (base : Address) (skip : Nat) (length : Option Nat) :
    Except LoadError Nat :=
  if size < skip then .error .skipTooLong
  else
    let available := size - skip
    if length.any (available < ·) then .error .lengthTooLong
    else
      let count := length.getD available
      if UInt32.size ≤ base.toNat + count % UInt32.size then .error (.doesNotFit base)
      else .ok count

/-- The part of `file` behind `skip` bytes, cut to `length` if one is given, at `base`. -/
def load (file : Array UInt8) (base : Address) (skip : Nat) (length : Option Nat) :
    Except LoadError Image :=
  (loadSize file.size base skip length).map fun count =>
    single base (file.extract skip (skip + count))

end Image

end Disassembly
