import Disassembly.Listing.Row

namespace Disassembly

/-- How a listing is shown. -/
structure Page where
  processor : Processor
  image : Image
  names : Names
  showBytes : Bool
  color : Bool

namespace Page

/-- The column of instruction bytes, as wide as for the longest instruction. -/
def byteColumn (bytes : List UInt8) : String :=
  String.join (bytes.map fun b => hexText 2 b.toNat ++ " ") ++
    String.ofList (List.replicate ((Encoding.maxSize - bytes.length) * 3) ' ') ++ "  "

/-- The bytes of an instruction. -/
def bytes (p : Page) (i : Instruction) : List UInt8 :=
  (List.range i.size.toNat).map fun k => (p.image.read (i.address + UInt32.ofNat k)).getD 0

def instruction (p : Page) (i : Instruction) : String :=
  let line := p.processor.line p.names i
  addressText i.address ++ ": " ++ (if p.showBytes then byteColumn (p.bytes i) else "") ++
    (if p.color then line.ansi else line.text)

def data (p : Page) (a : Address) (b : UInt8) : String :=
  addressText a ++ ": " ++ (if p.showBytes then byteColumn [b] else "") ++
    p.processor.config.style.data b

def row (p : Page) : Row → String
  | .code i => p.instruction i
  | .data a b => p.data a b
  | .label a name => addressText a ++ " <" ++ name ++ ">:"
  | .unmapped a => addressText a ++ ": " ++ p.processor.config.style.remark "unmapped"

/-- Each text with a line end behind it. -/
def lines (texts : List String) : String :=
  texts.foldl (fun text line => text ++ line ++ "\n") ""

/-- The bytes from `start` up to `stop` one after another. -/
def sweep (p : Page) (start stop : Address) : String :=
  lines ((Row.sweep p.processor p.image start stop).map p.row)

/-- A row of a listing: what stands under labels is indented. -/
def indented (p : Page) (r : Row) : String :=
  match r with
  | .label _ _ => p.row r
  | _ => "  " ++ p.row r

/-- The explored instructions in address order under their labels. -/
def listing (p : Page) (x : Exploration) (labels : Labels) : String :=
  lines ((Row.listing p.image x labels).map p.indented)

end Page

end Disassembly
