import Disassembly.Text.Digits
import Disassembly.Text.Number

namespace Disassembly

/-- A set of properties of an instruction. Bits without a name are kept as they are. -/
structure Feature where
  bits : UInt16
deriving DecidableEq, Repr

namespace Feature

def empty : Feature := ⟨0⟩

/-- The first operand slot is used. -/
def use1 : Feature := ⟨1⟩

/-- The second operand slot is used. -/
def use2 : Feature := ⟨2⟩

/-- Control goes to the first operand. -/
def jump : Feature := ⟨4⟩

/-- Control does not fall through. -/
def stop : Feature := ⟨8⟩

/-- A jump that never falls through. -/
def uncond : Feature := ⟨16⟩

/-- A jump that returns to the instruction after it. -/
def call : Feature := ⟨32⟩

def union (f g : Feature) : Feature :=
  ⟨f.bits ||| g.bits⟩

/-- Two operands. -/
def binary : Feature := use1.union use2

/-- A jump that may fall through. -/
def branch : Feature := use1.union jump

/-- A jump that is always taken. -/
def goto : Feature := branch.union uncond

/-- A call of a routine. -/
def invoke : Feature := branch.union call

def contains (f g : Feature) : Bool :=
  f.bits &&& g.bits == g.bits

/-- The named flags in the order in which they are written. -/
def named : List (String × Feature) :=
  [("USE1", use1), ("USE2", use2), ("JUMP", jump), ("STOP", stop), ("UNCOND", uncond), ("CALL", call)]

def ofName? (name : List Char) : Option Feature :=
  (named.find? fun flag => flag.1.toList == name).map Prod.snd

/-- One part of a written set: a flag's name, or `0x` and a number of sixteen bits. -/
def parsePart? : List Char → Option Feature
  | '0' :: 'x' :: digits => (readNumber 16 UInt16.size digits).toOption.map fun n => ⟨UInt16.ofNat n⟩
  | name => ofName? name

/-- Reads flags joined by bars, with blanks around each. A blank text is the empty set; an
empty part between bars is refused. -/
def parse? (s : String) : Option Feature :=
  if (trimBlanks s.toList).isEmpty then some empty
  else (s.toList.splitOn '|').foldlM (fun f part => (parsePart? (trimBlanks part)).map f.union) empty

/-- What is left of the set without the named flags. -/
def unnamed (f : Feature) : Feature :=
  ⟨named.foldl (fun bits flag => bits &&& ~~~flag.2.bits) f.bits⟩

/-- Writes the named flags, lowest bit first, and then the other bits as one number. -/
def text (f : Feature) : String :=
  let names := (named.filter fun flag => f.contains flag.2).map Prod.fst
  let rest := f.unnamed
  " | ".intercalate (names ++ if rest = empty then [] else ["0x" ++ hexText 1 rest.bits.toNat])

/-- The number of operands: the second slot counts only behind the first. -/
def arity (f : Feature) : Nat :=
  if f.contains use1 then if f.contains use2 then 2 else 1 else 0

end Feature

end Disassembly
