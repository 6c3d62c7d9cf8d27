namespace Disassembly

/-- Puts as many zeros before `cs` as it takes to make `width` characters. -/
def padZeros (width : Nat) (cs : List Char) : List Char :=
  List.replicate (width - cs.length) '0' ++ cs

theorem length_padZeros (width : Nat) (cs : List Char) :
    (padZeros width cs).length = max width cs.length := by
  simp [padZeros]
  omega

/-- Puts as many blanks behind `s` as it takes to make `width` characters. -/
def padRight (width : Nat) (s : String) : String :=
  s ++ String.ofList (List.replicate (width - s.length) ' ')

def hexDigits (n : Nat) : List Char :=
  Nat.toDigits 16 n

def upperHexDigits (n : Nat) : List Char :=
  (hexDigits n).map Char.toUpper

/-- Lower-case hexadecimal text of at least `width` digits. -/
def hexText (width n : Nat) : String :=
  String.ofList (padZeros width (hexDigits n))

/-- An address as every listing line and message shows it: `0x` and eight digits. -/
def addressText (a : UInt32) : String :=
  "0x" ++ hexText 8 a.toNat

/-- A byte inside a message: `0x` and two digits. -/
def byteText (b : UInt8) : String :=
  "0x" ++ hexText 2 b.toNat

def decimalText (n : Nat) : String :=
  String.ofList (Nat.toDigits 10 n)

end Disassembly
