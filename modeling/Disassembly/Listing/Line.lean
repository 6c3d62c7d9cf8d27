namespace Disassembly

inductive TokenKind
  | mnemonic
  | register
  | punct
  | number
  | symbol
  /-- Something that a listing should point out, such as an address without a name. -/
  | error
deriving DecidableEq, Repr

structure Token where
  kind : TokenKind
  text : String
deriving DecidableEq, Repr

/-- The text as a terminal shows it, errors in red. -/
def Token.ansi (t : Token) : String :=
  if t.kind = .error then "\x1b[31m" ++ t.text ++ "\x1b[0m" else t.text

/-- A rendered instruction or operand. -/
abbrev Line := List Token

namespace Line

def text (l : Line) : String :=
  String.join (l.map Token.text)

def ansi (l : Line) : String :=
  String.join (l.map Token.ansi)

def hasErrors (l : Line) : Bool :=
  l.any (·.kind == .error)

end Line

end Disassembly
