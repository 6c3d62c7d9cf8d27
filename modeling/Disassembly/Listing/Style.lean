import Disassembly.Text.Digits

namespace Disassembly

/-- How numbers are marked as hexadecimal. -/
inductive HexStyle
  /-- Not at all. -/
  | bare
  /-- By a leading `0x`. -/
  | cstyle
  /-- By a trailing `h`, with a zero in front of a first digit that is a letter. -/
  | suffix
deriving DecidableEq, Repr

/-- The conventions of a listing. -/
structure Style where
  hex : HexStyle := .bare
  uppercase : Bool := false
  openBracket : String := "["
  closeBracket : String := "]"
  /-- Starts a remark. -/
  comment : String := ";"
  /-- Stands before a byte that is shown as data. -/
  dataByte : String := "db"
deriving DecidableEq, Repr

namespace Style

def digits (s : Style) (n : Nat) : List Char :=
  if s.uppercase then upperHexDigits n else hexDigits n

def number (s : Style) (v : UInt32) : String :=
  let ds := s.digits v.toNat
  match s.hex with
  | .bare => String.ofList ds
  | .cstyle => "0x" ++ String.ofList ds
  | .suffix => String.ofList (if ds.head?.any Char.isAlpha then '0' :: ds else ds) ++ "h"

def data (s : Style) (b : UInt8) : String :=
  s.dataByte ++ " " ++ s.number b.toUInt32

def remark (s : Style) (text : String) : String :=
  s.comment ++ " " ++ text

end Style

/-- What a user can configure. -/
structure Config where
  style : Style := {}
deriving DecidableEq, Repr

end Disassembly
