import Disassembly.Json.Basic
import Disassembly.Text.Digits

namespace Disassembly.Json

/-- The characters of a string literal that stand for `c`. -/
def escape (c : Char) : List Char :=
  match c with
  | '"' => ['\\', '"']
  | '\\' => ['\\', '\\']
  | '\x08' => ['\\', 'b']
  | '\x0c' => ['\\', 'f']
  | '\n' => ['\\', 'n']
  | '\x0d' => ['\\', 'r']
  | '\t' => ['\\', 't']
  | c => if c.toNat < 0x20 then '\\' :: 'u' :: padZeros 4 (hexDigits c.toNat) else [c]

def quote (s : String) : String :=
  "\"" ++ String.ofList (s.toList.flatMap escape) ++ "\""

/-- The start of a line at the given depth: two blanks for each level. -/
def newline (depth : Nat) : String :=
  "\n" ++ String.ofList (List.replicate (2 * depth) ' ')

mutual

/-- Writes a document behind `out`, one element or field to a line. -/
def write (depth : Nat) (out : String) : Json → String
  | null => out ++ "null"
  | bool true => out ++ "true"
  | bool false => out ++ "false"
  | number spelling => out ++ spelling
  | string text => out ++ quote (text.getD "")
  | array [] => out ++ "[]"
  | array (v :: vs) =>
    writeElements depth (write (depth + 1) (out ++ "[" ++ newline (depth + 1)) v) vs ++
      newline depth ++ "]"
  | object [] => out ++ "\x7b\x7d"
  | object ((key, v) :: fields) =>
    writeFields depth
      (write (depth + 1) (out ++ "\x7b" ++ newline (depth + 1) ++ quote (key.getD "") ++ ": ") v)
      fields ++ newline depth ++ "\x7d"

/-- Writes the further elements of an array. -/
def writeElements (depth : Nat) (out : String) : List Json → String
  | [] => out
  | v :: vs => writeElements depth (write (depth + 1) (out ++ "," ++ newline (depth + 1)) v) vs

/-- Writes the further fields of an object. -/
def writeFields (depth : Nat) (out : String) : List (Option String × Json) → String
  | [] => out
  | (key, v) :: fields =>
    writeFields depth
      (write (depth + 1) (out ++ "," ++ newline (depth + 1) ++ quote (key.getD "") ++ ": ") v)
      fields

end

/-- The document as text, indented by two blanks for each level. -/
def pretty (v : Json) : String :=
  write 0 "" v

def ofNat (n : Nat) : Json :=
  number (decimalText n)

def ofString (s : String) : Json :=
  string (some s)

/-- An object with the given fields. -/
def record (fields : List (String × Json)) : Json :=
  object (fields.map fun field => (some field.1, field.2))

end Disassembly.Json
