import Disassembly.CommandLine.Arguments
import Disassembly.CommandLine.Files
import Disassembly.Listing.Report
import Disassembly.Listing.StyleText

namespace Disassembly.CommandLine

/-- Why the program ends without a result. -/
inductive Failure
  | usage
  | file (e : FileError)
  /-- A configuration or label file has the wrong content. -/
  | content
  | load (e : LoadError)
  | number (e : NumberError)
  | emptyRange
deriving DecidableEq, Repr

namespace Failure

def message : Failure → String
  | usage => "usage: [--base N] [--skip N] [--len N] [--config FILE] [--color] BINFILE COMMAND ..."
  | file e => e.message
  | content => "the file does not have the expected JSON content"
  | load e => e.message
  | number e => e.message
  | emptyRange => "end must be >= start"

def exitCode : Failure → UInt32
  | usage => 2
  | _ => 1

end Failure

/-- A program that works on files and ends with what it prints. -/
abbrev Program (m : Type → Type) := ExceptT Failure m

variable {m : Type → Type} [Monad m]

def orFail {α : Type} (r : Except Failure α) : Program m α :=
  ExceptT.mk (pure r)

def readBytes (fs : FileSystem m) (path : String) : Program m ByteArray :=
  ExceptT.mk do return (← fs.read path).mapError .file

def readText (fs : FileSystem m) (path : String) : Program m String := do
  match String.fromUTF8? (← readBytes fs path) with
  | some text => return text
  | none => throw (.file .notText)

def writeText (fs : FileSystem m) (path : String) (text : String) : Program m Unit :=
  ExceptT.mk do return (← fs.write path text).mapError .file

/-- Writes the result to a file if one is given, and prints it otherwise. -/
def emit (fs : FileSystem m) (out : Option String) (text : String) : Program m String := do
  match out with
  | some path =>
    writeText fs path text
    return ""
  | none => return text

/-- What a JSON file holds. -/
def readParsed {α : Type} (fs : FileSystem m) (parse? : String → Option α) (path : String) :
    Program m α := do
  match parse? (← readText fs path) with
  | some v => return v
  | none => throw .content

def readConfig (fs : FileSystem m) : Option String → Program m Config
  | none => return {}
  | some path => readParsed fs Config.parse? path

def readLabels (fs : FileSystem m) : Option String → Program m Labels
  | none => return ∅
  | some path => readParsed fs Labels.parse? path

def address (text : String) : Except Failure Address :=
  (readAddress text).mapError .number

def sectionRow (name start stop permissions kind : String) : String :=
  padRight 10 name ++ " " ++ start ++ " " ++ stop ++ " " ++ padRight 6 permissions ++ " " ++
    padRight 6 kind

/-- The row of a segment that ends before `stop`. -/
def segmentRow (s : Segment) (stop : Address) : String :=
  sectionRow s.name (addressText s.base) (addressText stop) s.permissions s.kind

def sectionTable (rows : List String) : String :=
  let header := sectionRow "name" (padRight 12 "start") (padRight 12 "end") "perms" "kind"
  Page.lines (header :: rows)

/-- The table of segments for `size` bytes at `base`, none of which shows in it. -/
def sections (base : Address) (size : Nat) : String :=
  sectionTable ((Image.single base #[]).segments.map fun s =>
    segmentRow s (s.base + UInt32.ofNat size))

def range (page : Page) (start stop : String) : Except Failure String := do
  let start ← address start
  let stop ← address stop
  if stop < start then throw .emptyRange
  return page.sweep start stop

/-- The entries in ascending order, each once. Without any, the program starts with its first
segment. -/
def entries (img : Image) (given : List String) : Except Failure (List Address) := do
  let given ← given.mapM address
  let chosen := if given.isEmpty then (img.segments.head?.map Segment.base).toList else given
  return (Std.ExtTreeSet.ofList chosen compare : AddressSet).toList

def analyze (fs : FileSystem m) (page : Page) (a : Analysis) : Program m String := do
  let entries ← orFail (entries page.image a.entries)
  let graph := page.processor.graph page.image a.limit entries
  let labels := graph.labels (← readLabels fs a.labelsIn)
  if let some path := a.labelsOut then writeText fs path labels.text
  let report : Report := ⟨{ page with names := labels.names }, entries, graph, labels⟩
  match a.format with
  | .text => emit fs a.out (report.text a.listing)
  | .json => emit fs a.out (report.toJson.pretty ++ "\n")

/-- Loads the configuration and then the image, and carries the command out. -/
def Invocation.perform (fs : FileSystem m) (i : Invocation) : Program m String := do
  let processor := Processor.standard (← readConfig fs i.config)
  let file ← readBytes fs i.input
  let page (showBytes : Bool) : Program m Page := do
    let image ← orFail ((Image.load file.data i.base i.skip i.length).mapError .load)
    return ⟨processor, image, fun _ => none, showBytes, i.color⟩
  match i.command with
  | .sections =>
    -- The file may be far larger than the address space, so its bytes stay packed here.
    let size ← orFail ((Image.loadSize file.size i.base i.skip i.length).mapError .load)
    return sections i.base size
  | .range start stop showBytes out => emit fs out (← orFail (range (← page showBytes) start stop))
  | .analyze a => analyze fs (← page a.showBytes) a

/-- Runs the program with the given arguments. -/
def run (fs : FileSystem m) (args : List String) : Program m String := do
  match Invocation.ofArguments? args with
  | some i => i.perform fs
  | none => throw .usage

end Disassembly.CommandLine
