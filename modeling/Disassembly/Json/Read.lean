import Disassembly.Json.Lexeme

namespace Disassembly.Json

/-- An array or object of which a part has been read, latest first. -/
inductive Frame
  | element (before : List Json)
  | field (before : List (Option String × Json)) (key : Option String)

/-- What has been read of a document and what has to come next. The frames are the arrays and
objects around, innermost first, so that nesting needs no recursion. -/
inductive Reading
  | value (around : List Frame)
  /-- Behind the opening bracket of an array. -/
  | firstElement (around : List Frame)
  /-- Behind the opening brace of an object. -/
  | firstKey (around : List Frame)
  /-- Behind the comma after a field. -/
  | nextKey (before : List (Option String × Json)) (around : List Frame)
  | colon (before : List (Option String × Json)) (key : Option String) (around : List Frame)
  /-- A value has just ended. -/
  | done (v : Json) (around : List Frame)

namespace Reading

/-- Reads the first lexeme of a value. -/
def start? (around : List Frame) : Lexeme → Option Reading
  | .null => some (done .null around)
  | .bool b => some (done (.bool b) around)
  | .number spelling => some (done (.number spelling) around)
  | .string text => some (done (.string text) around)
  | .openArray => some (firstElement around)
  | .openObject => some (firstKey around)
  | _ => none

/-- Reads one lexeme. -/
def step? : Reading → Lexeme → Option Reading
  | value around, l => start? around l
  | firstElement around, .closeArray => some (done (.array []) around)
  | firstElement around, l => start? (.element [] :: around) l
  | firstKey around, .closeObject => some (done (.object []) around)
  | firstKey around, .string key => some (colon [] key around)
  | nextKey before around, .string key => some (colon before key around)
  | colon before key around, .colon => some (value (.field before key :: around))
  | done v (.element before :: around), .comma => some (value (.element (v :: before) :: around))
  | done v (.element before :: around), .closeArray =>
    some (done (.array (v :: before).reverse) around)
  | done v (.field before key :: around), .comma => some (nextKey ((key, v) :: before) around)
  | done v (.field before key :: around), .closeObject =>
    some (done (.object ((key, v) :: before).reverse) around)
  | _, _ => none

def finish? : Reading → Option Json
  | done v [] => some v
  | _ => none

end Reading

def ofLexemes? (ls : List Lexeme) : Option Json :=
  (ls.foldlM Reading.step? (.value [])).bind Reading.finish?

/-- The document that a text spells, with nothing but space around it. -/
def parse? (text : String) : Option Json :=
  (lexemes? text.toList).bind ofLexemes?

end Disassembly.Json
