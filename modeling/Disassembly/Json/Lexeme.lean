import Disassembly.Json.Basic
import Disassembly.Text.Number

namespace Disassembly.Json

/-- The words of a JSON text. -/
inductive Lexeme
  | openArray
  | closeArray
  | openObject
  | closeObject
  | comma
  | colon
  | null
  | bool (value : Bool)
  | number (spelling : String)
  | string (text : Option String)
deriving DecidableEq, Repr

/-- A string literal of which a part has been read, its characters latest first. -/
inductive Spelled
  | text (chars : List Char)
  /-- The first half of a surrogate pair stands behind the text. -/
  | half (unit : Nat) (chars : List Char)
  /-- Half of a pair stands alone. -/
  | broken
deriving DecidableEq, Repr

namespace Spelled

def isHigh (unit : Nat) : Bool :=
  0xd800 ≤ unit && unit ≤ 0xdbff

def isLow (unit : Nat) : Bool :=
  0xdc00 ≤ unit && unit ≤ 0xdfff

def addChar (c : Char) : Spelled → Spelled
  | text chars => text (c :: chars)
  | _ => broken

/-- Adds the UTF-16 unit of a numeric escape. -/
def addUnit (unit : Nat) : Spelled → Spelled
  | text chars =>
    if isHigh unit then half unit chars
    else if isLow unit then broken
    else text (Char.ofNat unit :: chars)
  | half high chars =>
    if isLow unit then
      text (Char.ofNat (0x10000 + (high - 0xd800) * 0x400 + (unit - 0xdc00)) :: chars)
    else broken
  | broken => broken

def value : Spelled → Option String
  | text chars => some (String.ofList chars.reverse)
  | _ => none

end Spelled

/-- How much of a number has been read. -/
inductive NumberPart
  | minus
  | zero
  | whole
  | point
  | fraction
  | exponentMark
  | exponentSign
  | exponent
deriving DecidableEq, Repr

namespace NumberPart

def start? (c : Char) : Option NumberPart :=
  if c = '-' then some minus
  else if c = '0' then some zero
  else if c.isDigit then some whole
  else none

/-- The part that `c` goes on with. -/
def step? (part : NumberPart) (c : Char) : Option NumberPart :=
  let isMark := c = 'e' ∨ c = 'E'
  match part with
  | minus => if c = '0' then some zero else if c.isDigit then some whole else none
  | zero => if c = '.' then some point else if isMark then some exponentMark else none
  | whole =>
    if c.isDigit then some whole
    else if c = '.' then some point
    else if isMark then some exponentMark
    else none
  | point => if c.isDigit then some fraction else none
  | fraction => if c.isDigit then some fraction else if isMark then some exponentMark else none
  | exponentMark =>
    if c.isDigit then some exponent else if c = '+' ∨ c = '-' then some exponentSign else none
  | exponentSign => if c.isDigit then some exponent else none
  | exponent => if c.isDigit then some exponent else none

/-- Whether a number can end here. -/
def isComplete : NumberPart → Bool
  | zero => true
  | whole => true
  | fraction => true
  | exponent => true
  | _ => false

end NumberPart

/-- Where in the text a reader stands. -/
inductive Place
  | between
  /-- Inside a word of letters, of which `rest` is missing. -/
  | word (rest : List Char) (lexeme : Lexeme)
  /-- Inside a number with the given characters, latest first. -/
  | number (part : NumberPart) (chars : List Char)
  | string (spelled : Spelled)
  /-- Behind a backslash. -/
  | escape (spelled : Spelled)
  /-- Inside a numeric escape that lacks `missing` more digits. -/
  | unit (spelled : Spelled) (missing : Nat) (value : Nat)
deriving DecidableEq, Repr

/-- The lexemes read so far, latest first, and the place behind them. -/
structure Scan where
  done : List Lexeme := []
  place : Place := .between
deriving DecidableEq, Repr

namespace Scan

def isSpace (c : Char) : Bool :=
  c = ' ' || c = '\t' || c = '\n' || c = '\x0d'

/-- Reads `c` at the start of a lexeme or between two. -/
def start? (done : List Lexeme) (c : Char) : Option Scan :=
  if isSpace c then some ⟨done, .between⟩
  else
    match c with
    | '[' => some ⟨.openArray :: done, .between⟩
    | ']' => some ⟨.closeArray :: done, .between⟩
    | '\x7b' => some ⟨.openObject :: done, .between⟩
    | '\x7d' => some ⟨.closeObject :: done, .between⟩
    | ',' => some ⟨.comma :: done, .between⟩
    | ':' => some ⟨.colon :: done, .between⟩
    | '"' => some ⟨done, .string (.text [])⟩
    | 'n' => some ⟨done, .word ['u', 'l', 'l'] .null⟩
    | 't' => some ⟨done, .word ['r', 'u', 'e'] (.bool true)⟩
    | 'f' => some ⟨done, .word ['a', 'l', 's', 'e'] (.bool false)⟩
    | c => (NumberPart.start? c).map fun part => ⟨done, .number part [c]⟩

/-- The character that a one-letter escape stands for. -/
def escaped? : Char → Option Char
  | '"' => some '"'
  | '\\' => some '\\'
  | '/' => some '/'
  | 'b' => some '\x08'
  | 'f' => some '\x0c'
  | 'n' => some '\n'
  | 'r' => some '\x0d'
  | 't' => some '\t'
  | _ => none

/-- Reads one character. -/
def step? (s : Scan) (c : Char) : Option Scan :=
  match s.place with
  | .between => start? s.done c
  | .word [] _ => none
  | .word [d] lexeme => if c = d then some ⟨lexeme :: s.done, .between⟩ else none
  | .word (d :: rest) lexeme => if c = d then some ⟨s.done, .word rest lexeme⟩ else none
  | .number part chars =>
    match part.step? c with
    | some part => some ⟨s.done, .number part (c :: chars)⟩
    | none =>
      if part.isComplete then start? (.number (String.ofList chars.reverse) :: s.done) c else none
  | .string spelled =>
    if c = '"' then some ⟨.string spelled.value :: s.done, .between⟩
    else if c = '\\' then some ⟨s.done, .escape spelled⟩
    else if c.toNat < 0x20 then none
    else some ⟨s.done, .string (spelled.addChar c)⟩
  | .escape spelled =>
    if c = 'u' then some ⟨s.done, .unit spelled 4 0⟩
    else (escaped? c).map fun e => ⟨s.done, .string (spelled.addChar e)⟩
  | .unit spelled missing value =>
    match digitValue? 16 c with
    | none => none
    | some d =>
      if missing ≤ 1 then some ⟨s.done, .string (spelled.addUnit (value * 16 + d))⟩
      else some ⟨s.done, .unit spelled (missing - 1) (value * 16 + d)⟩

/-- The lexemes, if the text may end here. -/
def finish? (s : Scan) : Option (List Lexeme) :=
  match s.place with
  | .between => some s.done.reverse
  | .number part chars =>
    if part.isComplete then some (.number (String.ofList chars.reverse) :: s.done).reverse else none
  | _ => none

end Scan

/-- The lexemes of a text. -/
def lexemes? (text : List Char) : Option (List Lexeme) :=
  (text.foldlM Scan.step? {}).bind Scan.finish?

end Disassembly.Json
