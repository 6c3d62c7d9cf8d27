import Disassembly.Text.Blank

namespace Disassembly

/-- Why a text is not a number of the wanted size. -/
inductive NumberError
  | empty
  | invalidDigit
  | tooLarge
deriving DecidableEq, Repr

def NumberError.message : NumberError → String
  | .empty => "cannot parse integer from empty string"
  | .invalidDigit => "invalid digit found in string"
  | .tooLarge => "number too large to fit in target type"

/-- The value of `c` as a digit of the given base, up to base sixteen. -/
def digitValue? (base : Nat) (c : Char) : Option Nat :=
  let value :=
    if c.isDigit then some (c.toNat - '0'.toNat)
    else if 'a' ≤ c ∧ c ≤ 'f' then some (c.toNat - 'a'.toNat + 10)
    else if 'A' ≤ c ∧ c ≤ 'F' then some (c.toNat - 'A'.toNat + 10)
    else none
  value.filter (· < base)

/-- Reads digits from the left and stops at the first that is none or that takes the value
to `limit`. A character can fail in both ways only by being no digit. -/
def readDigits (base limit : Nat) : Nat → List Char → Except NumberError Nat
  | n, [] => .ok n
  | n, c :: cs =>
    match digitValue? base c with
    | none => .error .invalidDigit
    | some d =>
      if n * base + d < limit then readDigits base limit (n * base + d) cs
      else .error .tooLarge

/-- A number below `limit`: at least one digit, behind at most one plus sign. -/
def readNumber (base limit : Nat) : List Char → Except NumberError Nat
  | [] => .error .empty
  | ['+'] => .error .invalidDigit
  | '+' :: cs => readDigits base limit 0 cs
  | cs => readDigits base limit 0 cs

/-- The body of an address text and its base: sixteen behind `0x` or `0X`, ten otherwise. -/
def addressBody : List Char → Nat × List Char
  | '0' :: 'x' :: cs => (16, cs)
  | '0' :: 'X' :: cs => (16, cs)
  | cs => (10, cs)

/-- An address as it is written on the command line, with blanks around it allowed. -/
def readAddress (s : String) : Except NumberError UInt32 :=
  let body := addressBody (trimBlanks s.toList)
  (readNumber body.1 UInt32.size body.2).map UInt32.ofNat

end Disassembly
