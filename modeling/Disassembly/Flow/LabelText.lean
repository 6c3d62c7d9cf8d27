import Disassembly.Flow.Label
import Disassembly.Json.Record

namespace Disassembly.Labels

def entryOfJson? (v : Json) : Option (Address × String) := do
  match ← v.values? ["addr", "name"] with
  | [some addr, some name] => return (← addr.toAddress?, ← name.toString?)
  | _ => none

def ofJson? : Json → Option Labels
  | .array entries => (entries.mapM entryOfJson?).map ofList
  | _ => none

/-- The labels of a label file. -/
def parse? (text : String) : Option Labels :=
  (Json.parse? text).bind ofJson?

/-- The labels by ascending address. -/
def toJson (labels : Labels) : Json :=
  .array (labels.toList.map fun entry =>
    .record [("addr", .ofNat entry.1.toNat), ("name", .ofString entry.2)])

/-- The text of a label file. -/
def text (labels : Labels) : String :=
  labels.toJson.pretty

end Disassembly.Labels
