import Disassembly.Proofs.Json.Number
import Mathlib.Data.List.Chain

namespace Disassembly.Json

theorem Spelled.isHigh_iff {n : Nat} : isHigh n ↔ 0xd800 ≤ n ∧ n ≤ 0xdbff := by
  simp [isHigh]

theorem Spelled.isLow_iff {n : Nat} : isLow n ↔ 0xdc00 ≤ n ∧ n ≤ 0xdfff := by
  simp [isLow]

namespace Piece

open Spelled

/-- Adds a piece to what has been read of a string literal. -/
def addTo (spelled : Spelled) : Piece → Spelled
  | char c => spelled.addChar c
  | unit n => spelled.addUnit n

theorem foldl_addTo_broken (ps : List Piece) : ps.foldl addTo .broken = .broken := by
  induction ps with
  | nil => rfl
  | cons p ps ih => cases p <;> exact ih

/-- What the pieces of a literal leave is the text that they spell. -/
theorem value_foldl_addTo (ps : List Piece) (chars : List Char) :
    (ps.foldl addTo (.text chars)).value =
      (chars? ps).map fun cs => String.ofList (chars.reverse ++ cs) := by
  induction ps using chars?.induct generalizing chars with
  | case1 => simp [chars?, Spelled.value]
  | case2 c ps ih =>
    rw [List.foldl_cons, addTo, addChar, ih, chars?, Option.map_map]
    simp [Function.comp_def]
  | case3 n hhigh m ps hlow ih =>
    rw [List.foldl_cons, addTo, addUnit, if_pos (isHigh_iff.mpr hhigh), List.foldl_cons, addTo,
      addUnit, if_pos (isLow_iff.mpr hlow), ih, chars?, if_pos hhigh]
    simp [hlow, Function.comp_def]
  | case4 n hhigh m ps hlow =>
    rw [List.foldl_cons, addTo, addUnit, if_pos (isHigh_iff.mpr hhigh), List.foldl_cons, addTo,
      addUnit, if_neg (mt isLow_iff.mp hlow), foldl_addTo_broken, chars?, if_pos hhigh]
    simp [hlow, Spelled.value]
  | case5 n ps hhigh hnext =>
    -- A first half is never finished: nothing or the wrong piece follows it.
    have hvalue : (ps.foldl addTo (.half n chars)).value = none := by
      cases ps with
      | nil => rfl
      | cons p ps =>
        cases p with
        | char c =>
          change (ps.foldl addTo .broken).value = none
          rw [foldl_addTo_broken]
          rfl
        | unit m => exact absurd rfl (hnext m ps)
    rw [List.foldl_cons, addTo, addUnit, if_pos (isHigh_iff.mpr hhigh), hvalue, chars?,
      if_pos hhigh]
    · rfl
    · exact hnext
  | case6 n ps hhigh hlow =>
    rw [List.foldl_cons, addTo, addUnit, if_neg (mt isHigh_iff.mp hhigh),
      if_pos (isLow_iff.mpr hlow), foldl_addTo_broken]
    unfold chars?
    rw [if_neg hhigh, if_pos hlow]
    rfl
  | case7 n ps hhigh hlow ih =>
    rw [List.foldl_cons, addTo, addUnit, if_neg (mt isHigh_iff.mp hhigh),
      if_neg (mt isLow_iff.mp hlow), ih, chars?_unit hhigh hlow, Option.map_map]
    simp [Function.comp_def]

end Piece

def Lexeme.isNumber : Lexeme → Bool
  | number _ => true
  | _ => false

/-- The lexemes do not run together where nothing stands between them. -/
def Lexeme.Apart (l l' : Lexeme) : Prop :=
  l.isNumber → l'.isNumber = false

namespace Scan

variable {done : List Lexeme} {spelled : Spelled}

theorem escaped?_of_mem {letter c : Char} (h : (letter, c) ∈ Piece.shortEscapes) :
    letter ≠ 'u' ∧ escaped? letter = some c := by
  simp only [Piece.shortEscapes, List.mem_cons, Prod.mk.injEq, List.not_mem_nil, or_false] at h
  rcases h with h | h | h | h | h | h | h | h <;> obtain ⟨rfl, rfl⟩ := h <;> decide

/-- The digits of an escape are read as any number is. -/
theorem foldlM_unit_digits {ds : List Char} {value n limit : Nat} (hne : ds ≠ [])
    (h : readDigits 16 limit value ds = .ok n) :
    ds.foldlM step? ⟨done, .unit spelled ds.length value⟩ =
      some ⟨done, .string (spelled.addUnit n)⟩ := by
  induction ds generalizing value with
  | nil => exact absurd rfl hne
  | cons c ds ih =>
    rw [readDigits] at h
    cases hc : digitValue? 16 c with
    | none => rw [hc] at h; cases h
    | some d =>
      simp only [hc] at h
      split at h
      · cases ds with
        | nil =>
          obtain rfl := Except.ok.inj h
          simp [step?, hc]
        | cons c' ds =>
          have hstep : step? ⟨done, .unit spelled (c :: c' :: ds).length value⟩ c =
              some ⟨done, .unit spelled (c' :: ds).length (value * 16 + d)⟩ := by
            simp [step?, hc]
          rw [List.foldlM_cons, hstep]
          exact ih (by simp) h
      · cases h

theorem foldlM_piece {p : Piece} {cs : List Char} (h : p.IsText cs) :
    cs.foldlM step? ⟨done, .string spelled⟩ = some ⟨done, .string (p.addTo spelled)⟩ := by
  cases h with
  | plain hquote hbackslash hcontrol =>
    simp [step?, hquote, hbackslash, Nat.not_lt.mpr hcontrol, Piece.addTo]
  | short hescape =>
    obtain ⟨hu, hc⟩ := escaped?_of_mem hescape
    simp [step?, hu, hc, Piece.addTo]
  | @unit ds n hlength hvalue =>
    have hne : ds ≠ [] := by
      rintro rfl
      cases hlength
    have hread : readDigits 16 (n + 1) 0 ds = .ok n :=
      (readDigits_eq_ok_iff (by decide) le_rfl (Nat.succ_pos n)).mpr ⟨hvalue, Nat.lt_succ_self n⟩
    calc
      _ = ds.foldlM step? ⟨done, .unit spelled 4 0⟩ := rfl
      _ = some ⟨done, .string (spelled.addUnit n)⟩ := by
        rw [← hlength]
        exact foldlM_unit_digits hne hread

theorem foldlM_pieces {ps : List Piece} {texts : List (List Char)}
    (h : List.Forall₂ Piece.IsText ps texts) :
    texts.flatten.foldlM step? ⟨done, .string spelled⟩ =
      some ⟨done, .string (ps.foldl Piece.addTo spelled)⟩ := by
  induction h generalizing spelled with
  | nil => rfl
  | cons hp _ ih =>
    rw [List.flatten_cons, List.foldlM_append, foldlM_piece hp]
    exact ih

theorem foldlM_string {ps : List Piece} {texts : List (List Char)}
    (h : List.Forall₂ Piece.IsText ps texts) :
    ('"' :: (texts.flatten ++ ['"'])).foldlM step? ⟨done, .between⟩ =
      some ⟨.string ((Piece.chars? ps).map String.ofList) :: done, .between⟩ := by
  calc
    _ = (texts.flatten ++ ['"']).foldlM step? ⟨done, .string (.text [])⟩ := rfl
    _ = ['"'].foldlM step? ⟨done, .string (ps.foldl Piece.addTo (.text []))⟩ := by
      rw [List.foldlM_append, foldlM_pieces h]; rfl
    _ = some ⟨.string (ps.foldl Piece.addTo (.text [])).value :: done, .between⟩ := rfl
    _ = _ := by rw [Piece.value_foldl_addTo]; rfl

/-- The lexemes have been read, latest first. The last of them may be a number that could still
go on. -/
inductive Has : Scan → List Lexeme → Prop
  | between (ls : List Lexeme) : Has ⟨ls, .between⟩ ls
  | number {part : NumberPart} (complete : part.isComplete) (chars : List Char)
      (ls : List Lexeme) :
      Has ⟨ls, .number part chars⟩ (.number (String.ofList chars.reverse) :: ls)

namespace Has

variable {s : Scan} {ls : List Lexeme}

theorem finish?_eq (h : s.Has ls) : s.finish? = some ls.reverse := by
  cases h with
  | between => rfl
  | number complete => simp [finish?, complete]

theorem step?_eq (h : s.Has ls) {c : Char} (hc : ∀ part : NumberPart, part.step? c = none) :
    s.step? c = start? ls c := by
  cases h with
  | between => rfl
  | number complete => simp [step?, hc, complete]

end Has

/-- No number goes on with the first character of a lexeme that is none. -/
theorem step?_of_not_number {l : Lexeme} {c : Char} {cs : List Char} (h : l.IsText (c :: cs))
    (hl : l.isNumber = false) (part : NumberPart) : part.step? c = none := by
  cases h with
  | number => cases hl
  | _ => cases part <;> rfl

theorem foldlM_number_text {cs : List Char} (h : IsNumberText cs) :
    ∃ s, cs.foldlM step? ⟨done, .between⟩ = some s ∧
      s.Has (.number (String.ofList cs) :: done) := by
  obtain ⟨c, rest, first, last, rfl, hfirst, hrest, hlast⟩ := isNumber_iff_isNumberText.mpr h
  refine ⟨⟨done, .number last (rest.reverse ++ [c])⟩, ?_, ?_⟩
  · change (start? done c >>= rest.foldlM step?) = _
    rw [start?_of_number hfirst]
    exact foldlM_number hrest
  · have hchars : (rest.reverse ++ [c]).reverse = c :: rest := by simp
    rw [← hchars]
    exact .number hlast _ done

theorem Has.foldlM_cons {s : Scan} {c : Char} {cs : List Char} (hs : s.Has done)
    (hc : ∀ part : NumberPart, part.step? c = none) :
    (c :: cs).foldlM step? s = (c :: cs).foldlM step? ⟨done, .between⟩ := by
  rw [List.foldlM_cons, hs.step?_eq hc]
  rfl

/-- A lexeme is read behind others, a number only where no number stands before it. -/
theorem Has.foldlM_lexeme {s : Scan} {l : Lexeme} {cs : List Char} (hs : s.Has done)
    (h : l.IsText cs) (hl : ∀ before ∈ done.head?, before.Apart l) :
    ∃ s', cs.foldlM step? s = some s' ∧ s'.Has (l :: done) := by
  have htext := h
  cases h with
  | number hnumber =>
    cases hs with
    | between => exact foldlM_number_text hnumber
    | number => cases hl _ rfl rfl
  | string hpieces =>
    have hquote := step?_of_not_number htext rfl
    exact ⟨_, (hs.foldlM_cons hquote).trans (foldlM_string hpieces), .between _⟩
  | _ => exact ⟨_, hs.foldlM_cons (step?_of_not_number htext rfl), .between _⟩

theorem isSpace_of_mem {c : Char} (h : c ∈ [' ', '\t', '\n', '\x0d']) :
    isSpace c ∧ ∀ part : NumberPart, part.step? c = none := by
  simp only [List.mem_cons, List.not_mem_nil, or_false] at h
  rcases h with rfl | rfl | rfl | rfl <;> exact ⟨rfl, fun part => by cases part <;> rfl⟩

theorem foldlM_space {cs : List Char} (h : IsSpace cs) :
    cs.foldlM step? ⟨done, .between⟩ = some ⟨done, .between⟩ := by
  induction cs with
  | nil => rfl
  | cons c cs ih =>
    obtain ⟨hc, hcs⟩ := List.forall_mem_cons.mp h
    have hstep : step? ⟨done, .between⟩ c = some ⟨done, .between⟩ := if_pos (isSpace_of_mem hc).1
    rw [List.foldlM_cons, hstep]
    exact ih hcs

theorem Has.foldlM_space {s : Scan} {cs : List Char} (hs : s.Has done) (h : IsSpace cs) :
    ∃ s', cs.foldlM step? s = some s' ∧ s'.Has done := by
  cases cs with
  | nil => exact ⟨s, rfl, hs⟩
  | cons c cs =>
    have hc := isSpace_of_mem (h c List.mem_cons_self)
    exact ⟨_, (hs.foldlM_cons hc.2).trans (Scan.foldlM_space h), .between _⟩

/-- A text of lexemes is read as them, if no number stands next to another. -/
theorem Has.foldlM_consistOf {s : Scan} {ls : List Lexeme} {cs : List Char} (hs : s.Has done)
    (h : ConsistOf ls cs) (hfirst : ∀ before ∈ done.head?, ∀ l ∈ ls.head?, before.Apart l)
    (hls : ls.IsChain Lexeme.Apart) :
    ∃ s', cs.foldlM step? s = some s' ∧ s'.Has (ls.reverse ++ done) := by
  induction h generalizing s done with
  | nil hblank => exact hs.foldlM_space hblank
  | @cons space text rest l ls hblank htext _ ih =>
    obtain ⟨hnext, hrest⟩ := List.isChain_cons.mp hls
    obtain ⟨s₁, hs₁, hhas₁⟩ := hs.foldlM_space hblank
    obtain ⟨s₂, hs₂, hhas₂⟩ := hhas₁.foldlM_lexeme htext fun before hbefore =>
      hfirst before hbefore l rfl
    have hbehind : ∀ before ∈ (l :: done).head?, ∀ l' ∈ ls.head?, before.Apart l' := by
      rintro before hbefore l' hl'
      obtain rfl := Option.some_inj.mp hbefore
      exact hnext l' hl'
    obtain ⟨s₃, hs₃, hhas₃⟩ := ih hhas₂ hbehind hrest
    refine ⟨s₃, ?_, by simpa using hhas₃⟩
    calc
      _ = (text ++ rest).foldlM step? s₁ := by rw [List.foldlM_append, hs₁]; rfl
      _ = rest.foldlM step? s₂ := by rw [List.foldlM_append, hs₂]; rfl
      _ = some s₃ := hs₃

end Scan

theorem lexemes?_of_consistOf {ls : List Lexeme} {cs : List Char} (h : ConsistOf ls cs)
    (hls : ls.IsChain Lexeme.Apart) : lexemes? cs = some ls := by
  have hstart : Scan.Has {} [] := .between []
  obtain ⟨s, hs, hhas⟩ := hstart.foldlM_consistOf h (by simp) hls
  rw [lexemes?, hs, Option.bind_some, hhas.finish?_eq]
  simp

/-- The lexemes may stand behind any value. -/
def Follow (ls : List Lexeme) : Prop :=
  ls.IsChain Lexeme.Apart ∧ ∀ l ∈ ls.head?, l.isNumber = false

theorem Follow.cons {l : Lexeme} {ls : List Lexeme} (hl : l.isNumber = false)
    (hls : ls.IsChain Lexeme.Apart) : Follow (l :: ls) := by
  refine ⟨List.isChain_cons.mpr ⟨fun l' _ hnumber => ?_, hls⟩, fun l' hl' => ?_⟩
  · cases hl.symm.trans hnumber
  · obtain rfl := Option.some_inj.mp hl'
    exact hl

mutual

/-- In a document something stands between any two numbers. -/
theorem isChain_lexemes (v : Json) {rest : List Lexeme} (h : Follow rest) :
    (v.lexemes ++ rest).IsChain Lexeme.Apart := by
  cases v with
  | null | bool | string => exact (Follow.cons rfl h.1).1
  | number => exact List.isChain_cons.mpr ⟨fun l hl _ => h.2 l hl, h.1⟩
  | array vs =>
    cases vs with
    | nil => exact (Follow.cons rfl (Follow.cons rfl h.1).1).1
    | cons v vs =>
      have hclose : Follow (.closeArray :: rest) := .cons rfl h.1
      have hv := isChain_lexemes v (follow_elementLexemes vs hclose)
      have hopen : Follow (.openArray :: _) := .cons rfl hv
      simpa [lexemes] using hopen.1
  | object fields =>
    cases fields with
    | nil => exact (Follow.cons rfl (Follow.cons rfl h.1).1).1
    | cons field fields =>
      obtain ⟨key, v⟩ := field
      have hclose : Follow (.closeObject :: rest) := .cons rfl h.1
      have hv := isChain_lexemes v (follow_fieldLexemes fields hclose)
      have hcolon : Follow (.colon :: _) := .cons rfl hv
      have hkey : Follow (.string key :: _) := .cons rfl hcolon.1
      have hopen : Follow (.openObject :: _) := .cons rfl hkey.1
      simpa [lexemes] using hopen.1

theorem follow_elementLexemes (vs : List Json) {rest : List Lexeme} (h : Follow rest) :
    Follow (elementLexemes vs ++ rest) := by
  cases vs with
  | nil => exact h
  | cons v vs =>
    have hv := isChain_lexemes v (follow_elementLexemes vs h)
    have hcomma : Follow (.comma :: _) := .cons rfl hv
    simpa [elementLexemes] using hcomma

theorem follow_fieldLexemes (fields : List (Option String × Json)) {rest : List Lexeme}
    (h : Follow rest) : Follow (fieldLexemes fields ++ rest) := by
  cases fields with
  | nil => exact h
  | cons field fields =>
    obtain ⟨key, v⟩ := field
    have hv := isChain_lexemes v (follow_fieldLexemes fields h)
    have hcolon : Follow (.colon :: _) := .cons rfl hv
    have hkey : Follow (.string key :: _) := .cons rfl hcolon.1
    have hcomma : Follow (.comma :: _) := .cons rfl hkey.1
    simpa [fieldLexemes] using hcomma

end

/-- Every JSON text of a document is read as the document. -/
theorem parse?_of_isText {v : Json} {text : String} (h : v.IsText text) :
    parse? text = some v := by
  have hnil : Follow [] := ⟨.nil, by simp⟩
  have hchain : v.lexemes.IsChain Lexeme.Apart := by simpa using isChain_lexemes v hnil
  rw [parse?, lexemes?_of_consistOf h hchain]
  exact ofLexemes?_lexemes v

end Disassembly.Json
