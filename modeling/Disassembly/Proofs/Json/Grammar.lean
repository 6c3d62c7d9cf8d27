import Disassembly.Proofs.Json.Reading
import Disassembly.Proofs.Text.AddressGrammar

namespace Disassembly.Json

/-- The digits of a number in front of its fraction. -/
inductive IsWhole : List Char → Prop
  | zero : IsWhole ['0']
  | digits {c : Char} {cs : List Char} (first : c.isDigit) (nonzero : c ≠ '0')
    (rest : ∀ d ∈ cs, d.isDigit) : IsWhole (c :: cs)

inductive IsFraction : List Char → Prop
  | none : IsFraction []
  | digits {cs : List Char} (nonempty : cs ≠ []) (digits : ∀ d ∈ cs, d.isDigit) :
    IsFraction ('.' :: cs)

inductive IsExponent : List Char → Prop
  | none : IsExponent []
  | digits {mark : Char} {sign cs : List Char} (mark_eq : mark = 'e' ∨ mark = 'E')
    (sign_mem : sign ∈ [[], ['+'], ['-']]) (nonempty : cs ≠ []) (digits : ∀ d ∈ cs, d.isDigit) :
    IsExponent (mark :: (sign ++ cs))

/-- A number with its optional parts. -/
inductive IsNumberText : List Char → Prop
  | mk {sign whole fraction exponent : List Char} (sign_mem : sign ∈ [[], ['-']])
    (whole_text : IsWhole whole) (fraction_text : IsFraction fraction)
    (exponent_text : IsExponent exponent) :
    IsNumberText (sign ++ (whole ++ (fraction ++ exponent)))

/-- What a piece of a string literal stands for: a character, or a UTF-16 unit by its number. -/
inductive Piece
  | char (c : Char)
  | unit (n : Nat)

namespace Piece

/-- The letters of the short escapes and what they stand for. -/
def shortEscapes : List (Char × Char) :=
  [('"', '"'), ('\\', '\\'), ('/', '/'), ('b', '\x08'), ('f', '\x0c'), ('n', '\n'),
    ('r', '\x0d'), ('t', '\t')]

/-- The ways to write a piece. -/
inductive IsText : Piece → List Char → Prop
  | plain {c : Char} (quote : c ≠ '"') (backslash : c ≠ '\\') (control : 0x20 ≤ c.toNat) :
    IsText (char c) [c]
  | short {letter c : Char} (escape : (letter, c) ∈ shortEscapes) :
    IsText (char c) ['\\', letter]
  | unit {ds : List Char} {n : Nat} (length_eq : ds.length = 4) (value : Denotes 16 ds n) :
    IsText (unit n) ('\\' :: 'u' :: ds)

/-- The characters that pieces spell. The first half of a surrogate pair has to be followed by the
second, which may not stand anywhere else. -/
def chars? : List Piece → Option (List Char)
  | [] => some []
  | char c :: ps => (chars? ps).map (c :: ·)
  | unit n :: ps =>
    if 0xd800 ≤ n ∧ n ≤ 0xdbff then
      match ps with
      | unit m :: ps =>
        if 0xdc00 ≤ m ∧ m ≤ 0xdfff then
          (chars? ps).map (Char.ofNat (0x10000 + (n - 0xd800) * 0x400 + (m - 0xdc00)) :: ·)
        else none
      | _ => none
    else if 0xdc00 ≤ n ∧ n ≤ 0xdfff then none
    else (chars? ps).map (Char.ofNat n :: ·)

theorem chars?_unit {n : Nat} (hhigh : ¬ (0xd800 ≤ n ∧ n ≤ 0xdbff))
    (hlow : ¬ (0xdc00 ≤ n ∧ n ≤ 0xdfff)) (ps : List Piece) :
    chars? (unit n :: ps) = (chars? ps).map (Char.ofNat n :: ·) := by
  conv_lhs => unfold chars?
  rw [if_neg hhigh, if_neg hlow]

end Piece

/-- The ways to write a lexeme. -/
inductive Lexeme.IsText : Lexeme → List Char → Prop
  | openArray : IsText .openArray ['[']
  | closeArray : IsText .closeArray [']']
  | openObject : IsText .openObject ['\x7b']
  | closeObject : IsText .closeObject ['\x7d']
  | comma : IsText .comma [',']
  | colon : IsText .colon [':']
  | null : IsText .null ['n', 'u', 'l', 'l']
  | true : IsText (.bool true) ['t', 'r', 'u', 'e']
  | false : IsText (.bool false) ['f', 'a', 'l', 's', 'e']
  | number {cs : List Char} (text : IsNumberText cs) : IsText (.number (String.ofList cs)) cs
  | string {ps : List Piece} {texts : List (List Char)}
    (pieces : List.Forall₂ Piece.IsText ps texts) :
    IsText (.string ((Piece.chars? ps).map String.ofList)) ('"' :: (texts.flatten ++ ['"']))

/-- Characters that may stand between lexemes. -/
def IsSpace (cs : List Char) : Prop :=
  ∀ c ∈ cs, c ∈ [' ', '\t', '\n', '\x0d']

/-- The text consists of the lexemes, with any space around them. -/
inductive ConsistOf : List Lexeme → List Char → Prop
  | nil {space : List Char} (blank : IsSpace space) : ConsistOf [] space
  | cons {space cs rest : List Char} {l : Lexeme} {ls : List Lexeme} (blank : IsSpace space)
    (text : l.IsText cs) (others : ConsistOf ls rest) : ConsistOf (l :: ls) (space ++ (cs ++ rest))

theorem consistOf_nil : ConsistOf [] [] :=
  .nil (by simp [IsSpace])

namespace ConsistOf

variable {ls : List Lexeme} {cs : List Char}

theorem concat (h : ConsistOf ls cs) {l : Lexeme} {text : List Char} (htext : l.IsText text) :
    ConsistOf (ls ++ [l]) (cs ++ text) := by
  induction h with
  | nil hblank => simpa using ConsistOf.cons hblank htext consistOf_nil
  | cons hblank hfirst _ ih => simpa using ConsistOf.cons hblank hfirst ih

theorem space (h : ConsistOf ls cs) {blanks : List Char} (hblanks : IsSpace blanks) :
    ConsistOf ls (cs ++ blanks) := by
  induction h with
  | nil hblank => exact .nil (List.forall_mem_append.mpr ⟨hblank, hblanks⟩)
  | cons hblank hfirst _ ih => simpa using ConsistOf.cons hblank hfirst ih

end ConsistOf

/-- The text is a JSON text of the document. -/
def IsText (v : Json) (text : String) : Prop :=
  ConsistOf v.lexemes text.toList

end Disassembly.Json
