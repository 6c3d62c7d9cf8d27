import Disassembly.Flow.Graph
import Disassembly.Flow.LabelText
import Disassembly.Listing.Page

namespace Disassembly

/-- How a report names an edge between blocks. -/
def EdgeKind.abbreviation : EdgeKind → String
  | flow => "ft"
  | jump => "br"

/-- What there is to say about an explored program. -/
structure Report where
  page : Page
  entries : List Address
  graph : Graph
  labels : Labels

namespace Report

def entriesText (r : Report) : String :=
  "[" ++ ", ".intercalate (r.entries.map fun a => "\"" ++ addressText a ++ "\"") ++ "]"

def edgeText (e : Edge) : String :=
  "  " ++ addressText e.source ++ " -> " ++ addressText e.target ++
    " (" ++ e.kind.abbreviation ++ ")"

def summary (r : Report) : List String :=
  [ "Analysis summary:",
    "  entries   : " ++ r.entriesText,
    "  insts     : " ++ decimalText r.graph.found.instructions.size,
    "  data      : " ++ decimalText r.graph.found.data.size,
    "  blocks    : " ++ decimalText r.graph.blocks.length,
    "  edges     : " ++ decimalText r.graph.found.edges.size,
    "  functions : " ++ decimalText r.graph.routines.length,
    "Edges:" ]

/-- The report as text, with the listing behind it if that is wanted. -/
def text (r : Report) (withListing : Bool) : String :=
  Page.lines (r.summary ++ r.graph.edges.map edgeText) ++
    if withListing then
      "\nListing (analyzed PCs):\n" ++ r.page.listing r.graph.found r.labels
    else ""

/-- The instructions at the addresses from the start of a block to its end. Where blocks overlap
these can be more than the block's own. -/
def blockInstructions (r : Report) (b : Block) : List Instruction :=
  (List.range (b.stop.toNat - b.start.toNat)).filterMap fun k =>
    r.graph.found.instructions[b.start + UInt32.ofNat k]?

def addressJson (a : Address) : Json :=
  .ofNat a.toNat

def blockJson (r : Report) (b : Block) : Json :=
  .record [
    ("start", addressJson b.start),
    ("end", addressJson b.stop),
    ("insns", .array ((r.blockInstructions b).map fun i => .ofString (r.page.instruction i)))]

def edgeJson (e : Edge) : Json :=
  .record [
    ("from", addressJson e.source),
    ("to", addressJson e.target),
    ("kind", .ofString e.kind.abbreviation)]

def routineJson (f : Routine) : Json :=
  .record [("entry", addressJson f.entry), ("blocks", .array (f.blocks.map addressJson))]

def toJson (r : Report) : Json :=
  .record [
    ("entries", .array (r.entries.map addressJson)),
    ("blocks", .array (r.graph.blocks.map r.blockJson)),
    ("edges", .array (r.graph.edges.map edgeJson)),
    ("functions", .array (r.graph.routines.map routineJson)),
    ("labels", r.labels.toJson)]

end Report

end Disassembly
