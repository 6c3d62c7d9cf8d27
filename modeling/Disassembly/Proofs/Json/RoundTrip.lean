import Disassembly.Json.Record
import Disassembly.Proofs.Json.Acceptance
import Disassembly.Proofs.Text.Numeral

namespace Disassembly.Json

theorem isDigit_digitChar {d : Nat} (hd : d < 10) : d.digitChar.isDigit := by
  decide +revert

theorem digitChar_ne_zero {d : Nat} (hd : d < 10) (hpos : 0 < d) : d.digitChar ≠ '0' := by
  decide +revert

/-- Every decimal number is spelled as a number: a zero stands in front only if nothing stands
behind it. -/
theorem isWhole_toDigits (n : Nat) : IsWhole (Nat.toDigits 10 n) := by
  have hbase : 1 < 10 := by decide
  by_cases hn : n = 0
  · subst hn
    exact .zero
  · obtain ⟨d, rest, hpos, hd, hdigits⟩ := exists_toDigits_eq_cons hbase (Nat.pos_of_ne_zero hn)
    rw [hdigits]
    refine .digits (isDigit_digitChar hd) (digitChar_ne_zero hd hpos) fun c hc => ?_
    have hmem : c ∈ Nat.toDigits 10 n := hdigits ▸ List.mem_cons_of_mem _ hc
    obtain ⟨e, he, rfl⟩ := exists_digit_of_mem_toDigits hbase hmem
    exact isDigit_digitChar he

theorem isNumberText_toDigits (n : Nat) : IsNumberText (Nat.toDigits 10 n) := by
  have hsign : [] ∈ [[], ['-']] := List.mem_cons_self
  simpa using IsNumberText.mk hsign (isWhole_toDigits n) .none .none

/-- A control character is written by the four digits of its number. -/
theorem isText_control {n : Nat} (h : n < 0x20) :
    (Piece.unit n).IsText ('\\' :: 'u' :: padZeros 4 (hexDigits n)) := by
  have hlength : (hexDigits n).length ≤ 2 :=
    (Nat.length_toDigits_le_iff (by decide) (by decide)).mpr (h.trans (by decide))
  have hread : readDigits 16 0x20 0 (padZeros 4 (hexDigits n)) = .ok n := by
    rw [readDigits_padZeros (by decide) (by decide)]
    exact readDigits_toDigits (by decide) le_rfl h
  refine .unit ?_ (denotes_of_readDigits (by decide) le_rfl (by decide) hread)
  rw [length_padZeros]
  omega

/-- Every character is written as a piece that stands for it. -/
theorem exists_isText_escape (c : Char) :
    ∃ p : Piece, p.IsText (escape c) ∧
      ∀ ps, Piece.chars? (p :: ps) = (Piece.chars? ps).map (c :: ·) := by
  unfold escape
  split
  -- The named escapes are short ones. What is left is written by number or as it is.
  case h_8 hquote hbackslash _ _ _ _ _ =>
    split
    · next hcontrol =>
      refine ⟨.unit c.toNat, isText_control hcontrol, fun ps => ?_⟩
      rw [Piece.chars?_unit (by omega) (by omega), Char.ofNat_toNat]
    · next hplain =>
      exact ⟨.char c, .plain hquote hbackslash (Nat.not_lt.mp hplain), fun _ => rfl⟩
  all_goals exact ⟨.char _, .short (by decide), fun _ => rfl⟩

theorem exists_pieces (cs : List Char) :
    ∃ ps texts, List.Forall₂ Piece.IsText ps texts ∧ texts.flatten = cs.flatMap escape ∧
      Piece.chars? ps = some cs := by
  induction cs with
  | nil => exact ⟨[], [], .nil, rfl, rfl⟩
  | cons c cs ih =>
    obtain ⟨p, hp, hchars⟩ := exists_isText_escape c
    obtain ⟨ps, texts, hps, htexts, hrest⟩ := ih
    refine ⟨p :: ps, escape c :: texts, .cons hp hps, ?_, ?_⟩
    · rw [List.flatten_cons, htexts, List.flatMap_cons]
    · rw [hchars, hrest]
      rfl

theorem isText_quote (s : String) : (Lexeme.string (some s)).IsText (quote s).toList := by
  obtain ⟨ps, texts, hps, htexts, hchars⟩ := exists_pieces s.toList
  have hquote : (quote s).toList = '"' :: (texts.flatten ++ ['"']) := by
    rw [htexts]
    simp [quote]
  have hstring := Lexeme.IsText.string hps
  rw [hchars, Option.map_some, String.ofList_toList] at hstring
  rwa [hquote]

/-- The lexeme can be written. -/
def Lexeme.IsSpelled : Lexeme → Prop
  | number spelling => IsNumberText spelling.toList
  | string text => text.isSome
  | _ => True

/-- The document can be written. -/
def IsSpelled (v : Json) : Prop :=
  ∀ l ∈ v.lexemes, l.IsSpelled

section

variable {out : String} {ls : List Lexeme}

theorem consistOf_append (h : ConsistOf ls out.toList) {l : Lexeme} {text : String}
    (htext : l.IsText text.toList) : ConsistOf (ls ++ [l]) (out ++ text).toList := by
  rw [String.toList_append]
  exact h.concat htext

theorem consistOf_newline (h : ConsistOf ls out.toList) (depth : Nat) :
    ConsistOf ls (out ++ newline depth).toList := by
  have hblanks : IsSpace (newline depth).toList := by
    simp [IsSpace, newline]
  rw [String.toList_append]
  exact h.space hblanks

theorem consistOf_key (h : ConsistOf ls out.toList) {key : Option String} (hkey : key.isSome) :
    ConsistOf (ls ++ [.string key, .colon]) (out ++ quote (key.getD "") ++ ": ").toList := by
  obtain ⟨s, rfl⟩ := Option.isSome_iff_exists.mp hkey
  have hblank : IsSpace [' '] := by simp [IsSpace]
  have hcolon := ((consistOf_append h (isText_quote s)).concat .colon).space hblank
  simpa using hcolon

end

mutual

/-- A document is written as its lexemes. -/
theorem consistOf_write (depth : Nat) {out : String} {ls : List Lexeme} (v : Json)
    (hv : v.IsSpelled) (h : ConsistOf ls out.toList) :
    ConsistOf (ls ++ v.lexemes) (write depth out v).toList := by
  cases v with
  | null => exact consistOf_append h .null
  | bool b =>
    cases b with
    | true => exact consistOf_append h .true
    | false => exact consistOf_append h .false
  | number spelling =>
    have htext := Lexeme.IsText.number (hv _ List.mem_cons_self)
    rw [String.ofList_toList] at htext
    exact consistOf_append h htext
  | string text =>
    obtain ⟨s, rfl⟩ := Option.isSome_iff_exists.mp (hv _ List.mem_cons_self)
    exact consistOf_append h (isText_quote s)
  | array vs =>
    have hopen : ConsistOf (ls ++ [.openArray]) (out ++ "[").toList :=
      consistOf_append h .openArray
    cases vs with
    | nil => simpa [lexemes, write] using hopen.concat .closeArray
    | cons v vs =>
      simp only [IsSpelled, lexemes, List.forall_mem_cons, List.forall_mem_append] at hv
      have hfirst := consistOf_write (depth + 1) v hv.2.1 (consistOf_newline hopen (depth + 1))
      have hrest := consistOf_writeElements depth vs hv.2.2.1 hfirst
      have hclose : ConsistOf _ (write depth out (array (v :: vs))).toList :=
        consistOf_append (consistOf_newline hrest depth) .closeArray
      simpa [lexemes] using hclose
  | object fields =>
    have hopen : ConsistOf (ls ++ [.openObject]) (out ++ "\x7b").toList :=
      consistOf_append h .openObject
    cases fields with
    | nil => simpa [lexemes, write] using hopen.concat .closeObject
    | cons field fields =>
      obtain ⟨key, v⟩ := field
      simp only [IsSpelled, lexemes, List.forall_mem_cons, List.forall_mem_append] at hv
      have hkey := consistOf_key (consistOf_newline hopen (depth + 1)) hv.2.1
      have hfirst := consistOf_write (depth + 1) v hv.2.2.2.1 hkey
      have hrest := consistOf_writeFields depth fields hv.2.2.2.2.1 hfirst
      have hclose : ConsistOf _ (write depth out (object ((key, v) :: fields))).toList :=
        consistOf_append (consistOf_newline hrest depth) .closeObject
      simpa [lexemes] using hclose

theorem consistOf_writeElements (depth : Nat) {out : String} {ls : List Lexeme} (vs : List Json)
    (hvs : ∀ l ∈ elementLexemes vs, l.IsSpelled) (h : ConsistOf ls out.toList) :
    ConsistOf (ls ++ elementLexemes vs) (writeElements depth out vs).toList := by
  cases vs with
  | nil => simpa [elementLexemes, writeElements] using h
  | cons v vs =>
    simp only [elementLexemes, List.forall_mem_cons, List.forall_mem_append] at hvs
    have hcomma : ConsistOf (ls ++ [.comma]) (out ++ ",").toList := consistOf_append h .comma
    have hfirst := consistOf_write (depth + 1) v hvs.2.1 (consistOf_newline hcomma (depth + 1))
    simpa [elementLexemes, writeElements] using consistOf_writeElements depth vs hvs.2.2 hfirst

theorem consistOf_writeFields (depth : Nat) {out : String} {ls : List Lexeme}
    (fields : List (Option String × Json)) (hfields : ∀ l ∈ fieldLexemes fields, l.IsSpelled)
    (h : ConsistOf ls out.toList) :
    ConsistOf (ls ++ fieldLexemes fields) (writeFields depth out fields).toList := by
  cases fields with
  | nil => simpa [fieldLexemes, writeFields] using h
  | cons field fields =>
    obtain ⟨key, v⟩ := field
    simp only [fieldLexemes, List.forall_mem_cons, List.forall_mem_append] at hfields
    have hcomma : ConsistOf (ls ++ [.comma]) (out ++ ",").toList := consistOf_append h .comma
    have hkey := consistOf_key (consistOf_newline hcomma (depth + 1)) hfields.2.1
    have hfirst := consistOf_write (depth + 1) v hfields.2.2.2.1 hkey
    simpa [fieldLexemes, writeFields] using
      consistOf_writeFields depth fields hfields.2.2.2.2 hfirst

end

/-- What is written for a document is a JSON text of it. -/
theorem isText_pretty {v : Json} (hv : v.IsSpelled) : v.IsText v.pretty := by
  have hempty : ConsistOf [] "".toList := consistOf_nil
  exact consistOf_write 0 v hv hempty

theorem forall_elementLexemes {vs : List Json} :
    (∀ l ∈ elementLexemes vs, l.IsSpelled) ↔ ∀ v ∈ vs, v.IsSpelled := by
  induction vs with
  | nil => simp [elementLexemes]
  | cons v vs ih =>
    simp only [elementLexemes, List.forall_mem_cons, List.forall_mem_append, ih]
    exact and_iff_right trivial

theorem isSpelled_array {vs : List Json} : (array vs).IsSpelled ↔ ∀ v ∈ vs, v.IsSpelled := by
  cases vs with
  | nil => simp [IsSpelled, lexemes, Lexeme.IsSpelled]
  | cons v vs =>
    have hopen : Lexeme.openArray.IsSpelled := trivial
    have hclose : Lexeme.closeArray.IsSpelled := trivial
    simp only [IsSpelled, lexemes, List.forall_mem_cons, List.forall_mem_append,
      forall_elementLexemes, List.not_mem_nil, IsEmpty.forall_iff, implies_true, hopen, hclose,
      true_and, and_true]

theorem forall_fieldLexemes {fields : List (Option String × Json)} :
    (∀ l ∈ fieldLexemes fields, l.IsSpelled) ↔
      ∀ field ∈ fields, field.1.isSome ∧ field.2.IsSpelled := by
  induction fields with
  | nil => simp [fieldLexemes]
  | cons field fields ih =>
    have hcomma : Lexeme.comma.IsSpelled := trivial
    have hcolon : Lexeme.colon.IsSpelled := trivial
    simp only [fieldLexemes, List.forall_mem_cons, List.forall_mem_append, ih, hcomma, hcolon,
      true_and, and_assoc]
    rfl

theorem isSpelled_object {fields : List (Option String × Json)} :
    (object fields).IsSpelled ↔ ∀ field ∈ fields, field.1.isSome ∧ field.2.IsSpelled := by
  cases fields with
  | nil => simp [IsSpelled, lexemes, Lexeme.IsSpelled]
  | cons field fields =>
    have hopen : Lexeme.openObject.IsSpelled := trivial
    have hclose : Lexeme.closeObject.IsSpelled := trivial
    have hcolon : Lexeme.colon.IsSpelled := trivial
    simp only [IsSpelled, lexemes, List.forall_mem_cons, List.forall_mem_append,
      forall_fieldLexemes, List.not_mem_nil, IsEmpty.forall_iff, implies_true, hopen, hclose,
      hcolon, true_and, and_true, and_assoc]
    rfl

theorem isSpelled_record {fields : List (String × Json)} :
    (record fields).IsSpelled ↔ ∀ field ∈ fields, field.2.IsSpelled := by
  rw [record, isSpelled_object, List.forall_mem_map]
  simp only [Option.isSome_some, true_and]

theorem isSpelled_ofString (s : String) : (ofString s).IsSpelled := by
  simp [ofString, IsSpelled, lexemes, Lexeme.IsSpelled]

theorem isSpelled_ofNat (n : Nat) : (ofNat n).IsSpelled := by
  have hnumber : IsNumberText (decimalText n).toList := by
    rw [decimalText, String.toList_ofList]
    exact isNumberText_toDigits n
  simpa [ofNat, IsSpelled, lexemes, Lexeme.IsSpelled] using hnumber

/-- A document that is written is read again. -/
theorem parse?_pretty {v : Json} (hv : v.IsSpelled) : parse? v.pretty = some v :=
  parse?_of_isText (isText_pretty hv)

theorem toAddress?_ofNat (a : UInt32) : (ofNat a.toNat).toAddress? = some a := by
  have hread : readNumber 10 UInt32.size (Nat.toDigits 10 a.toNat) = .ok a.toNat :=
    readNumber_toDigits (by decide) (by decide) a.toNat_lt
  rw [ofNat, toAddress?, decimalText, String.toList_ofList, hread]
  exact congrArg some UInt32.ofNat_toNat

end Disassembly.Json
