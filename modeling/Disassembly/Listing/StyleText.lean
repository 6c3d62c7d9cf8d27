import Disassembly.Json.Record
import Disassembly.Listing.Style

namespace Disassembly

namespace HexStyle

def name : HexStyle → String
  | bare => "bare"
  | cstyle => "cstyle"
  | suffix => "suffix"

def ofName? : String → Option HexStyle
  | "bare" => some bare
  | "cstyle" => some cstyle
  | "suffix" => some suffix
  | _ => none

theorem ofName?_name (h : HexStyle) : ofName? h.name = some h := by
  cases h <;> rfl

/-- A style is named by a string, or by the only key of an object whose value is null. -/
def ofJson? : Json → Option HexStyle
  | .string (some name) => ofName? name
  | .object [(some name, .null)] => ofName? name
  | _ => none

end HexStyle

namespace Style

def keys : List String :=
  ["hex", "uppercase", "lbracket", "rbracket", "comment", "data_byte"]

/-- What is not given keeps its default. -/
def ofJson? (v : Json) : Option Style := do
  match ← v.values? keys with
  | [hex, uppercase, openBracket, closeBracket, comment, dataByte] =>
    let d : Style := {}
    let hex ← Json.valueOr? d.hex HexStyle.ofJson? hex
    let uppercase ← Json.valueOr? d.uppercase Json.toBool? uppercase
    let openBracket ← Json.valueOr? d.openBracket Json.toString? openBracket
    let closeBracket ← Json.valueOr? d.closeBracket Json.toString? closeBracket
    let comment ← Json.valueOr? d.comment Json.toString? comment
    let dataByte ← Json.valueOr? d.dataByte Json.toString? dataByte
    return { hex, uppercase, openBracket, closeBracket, comment, dataByte }
  | _ => none

def toJson (s : Style) : Json :=
  .record [
    ("hex", .ofString s.hex.name),
    ("uppercase", .bool s.uppercase),
    ("lbracket", .ofString s.openBracket),
    ("rbracket", .ofString s.closeBracket),
    ("comment", .ofString s.comment),
    ("data_byte", .ofString s.dataByte)]

end Style

namespace Config

def ofJson? (v : Json) : Option Config := do
  match ← v.values? ["syntax"] with
  | [style] => return { style := ← Json.valueOr? {} Style.ofJson? style }
  | _ => none

def toJson (c : Config) : Json :=
  .record [("syntax", c.style.toJson)]

def parse? (text : String) : Option Config :=
  (Json.parse? text).bind ofJson?

end Config

end Disassembly
