import Disassembly.Proofs.Json.Acceptance

namespace Disassembly.Json

/-- The characters read of the lexeme that a place is inside of. -/
inductive Place.Unfinished : Place → List Char → Prop
  | between : Unfinished .between []
  | word {d : Char} {rest cs : List Char} {l : Lexeme} (text : l.IsText (cs ++ d :: rest)) :
    Unfinished (.word (d :: rest) l) cs
  | number {c : Char} {rest : List Char} {first part : NumberPart}
    (start : NumberPart.start? c = some first)
    (steps : rest.foldlM NumberPart.step? first = some part) :
    Unfinished (.number part (c :: rest).reverse) (c :: rest)
  | string {ps : List Piece} {texts : List (List Char)}
    (pieces : List.Forall₂ Piece.IsText ps texts) :
    Unfinished (.string (ps.foldl Piece.addTo (.text []))) ('"' :: texts.flatten)
  | escape {ps : List Piece} {texts : List (List Char)}
    (pieces : List.Forall₂ Piece.IsText ps texts) :
    Unfinished (.escape (ps.foldl Piece.addTo (.text []))) ('"' :: (texts.flatten ++ ['\\']))
  | unit {ps : List Piece} {texts : List (List Char)} {ds : List Char} {missing value : Nat}
    (pieces : List.Forall₂ Piece.IsText ps texts) (length_eq : ds.length + missing = 4)
    (positive : 0 < missing) (denotes : Denotes 16 ds value) :
    Unfinished (.unit (ps.foldl Piece.addTo (.text [])) missing value)
      ('"' :: (texts.flatten ++ '\\' :: 'u' :: ds))

namespace Scan

/-- The characters are those of the lexemes read and of the unfinished one. -/
def Reads (s : Scan) (cs : List Char) : Prop :=
  ∃ before last, cs = before ++ last ∧ ConsistOf s.done.reverse before ∧ s.place.Unfinished last

variable {done : List Lexeme} {s : Scan} {cs : List Char} {c : Char}

theorem reads_between (h : ConsistOf done.reverse cs) : Reads ⟨done, .between⟩ cs :=
  ⟨cs, [], (List.append_nil cs).symm, h, .between⟩

theorem reads_concat (h : ConsistOf done.reverse cs) {l : Lexeme} {text : List Char}
    (htext : l.IsText text) : Reads ⟨l :: done, .between⟩ (cs ++ text) :=
  reads_between (by simpa using h.concat htext)

theorem mem_of_isSpace (h : isSpace c) : c ∈ [' ', '\t', '\n', '\x0d'] := by
  simpa [isSpace, or_assoc] using h

/-- A lexeme has begun. -/
theorem reads_unfinished (h : ConsistOf done.reverse cs) {place : Place} {last : List Char}
    (hlast : place.Unfinished last) : Reads ⟨done, place⟩ (cs ++ last) :=
  ⟨cs, last, rfl, h, hlast⟩

theorem reads_start? (h : ConsistOf done.reverse cs) (hs : start? done c = some s) :
    s.Reads (cs ++ [c]) := by
  unfold start? at hs
  split at hs
  · next hspace =>
    obtain rfl := Option.some_inj.mp hs
    have hblanks : IsSpace [c] := List.forall_mem_singleton.mpr (mem_of_isSpace hspace)
    exact reads_between (h.space hblanks)
  · split at hs
    case h_11 =>
      obtain ⟨part, hpart, rfl⟩ := Option.map_eq_some_iff.mp hs
      have hlast : (Place.number part [c].reverse).Unfinished [c] := .number hpart rfl
      exact reads_unfinished h hlast
    all_goals obtain rfl := Option.some_inj.mp hs
    case h_1 => exact reads_concat h .openArray
    case h_2 => exact reads_concat h .closeArray
    case h_3 => exact reads_concat h .openObject
    case h_4 => exact reads_concat h .closeObject
    case h_5 => exact reads_concat h .comma
    case h_6 => exact reads_concat h .colon
    case h_7 => exact reads_unfinished h (.string .nil)
    case h_8 => exact reads_unfinished h (.word .null)
    case h_9 => exact reads_unfinished h (.word .true)
    case h_10 => exact reads_unfinished h (.word .false)

theorem mem_of_escaped? {letter : Char} (h : escaped? letter = some c) :
    (letter, c) ∈ Piece.shortEscapes := by
  unfold escaped? at h
  split at h <;> cases h <;> decide

theorem isText_number {c : Char} {rest : List Char} {first part : NumberPart}
    (hstart : NumberPart.start? c = some first)
    (hsteps : rest.foldlM NumberPart.step? first = some part) (hcomplete : part.isComplete) :
    (Lexeme.number (String.ofList (c :: rest).reverse.reverse)).IsText (c :: rest) := by
  have hnumber : IsNumber (c :: rest) := ⟨c, rest, first, part, rfl, hstart, hsteps, hcomplete⟩
  rw [List.reverse_reverse]
  exact .number (isNumber_iff_isNumberText.mp hnumber)

theorem isText_string {ps : List Piece} {texts : List (List Char)}
    (hpieces : List.Forall₂ Piece.IsText ps texts) :
    (Lexeme.string (ps.foldl Piece.addTo (.text [])).value).IsText
      ('"' :: (texts.flatten ++ ['"'])) := by
  rw [Piece.value_foldl_addTo]
  exact .string hpieces

theorem unfinished_string_concat {ps : List Piece} {texts : List (List Char)} {p : Piece}
    {text : List Char} (hpieces : List.Forall₂ Piece.IsText ps texts) (hp : p.IsText text) :
    (Place.string (p.addTo (ps.foldl Piece.addTo (.text [])))).Unfinished
      ('"' :: (texts.flatten ++ text)) := by
  have hall : List.Forall₂ Piece.IsText (ps ++ [p]) (texts ++ [text]) :=
    List.rel_append hpieces (.cons hp .nil)
  simpa using Place.Unfinished.string hall

theorem reads_step? {s' : Scan} (hs : s.Reads cs) (h : s.step? c = some s') :
    s'.Reads (cs ++ [c]) := by
  obtain ⟨before, last, rfl, hbefore, hlast⟩ := hs
  obtain ⟨done, place⟩ := s
  rw [List.append_assoc]
  cases hlast with
  | between => exact reads_start? (by simpa using hbefore) h
  | @word d rest cs l htext =>
    cases rest with
    | nil =>
      obtain ⟨rfl, hs'⟩ := Option.ite_none_right_eq_some.mp h
      obtain rfl := Option.some_inj.mp hs'
      exact reads_concat hbefore htext
    | cons e rest =>
      obtain ⟨rfl, hs'⟩ := Option.ite_none_right_eq_some.mp h
      obtain rfl := Option.some_inj.mp hs'
      exact reads_unfinished hbefore (.word (by simpa using htext))
  | @number c' rest first part hstart hsteps =>
    simp only [step?] at h
    cases hstep : part.step? c with
    | some next =>
      rw [hstep] at h
      obtain rfl := Option.some_inj.mp h
      have hsteps' : (rest ++ [c]).foldlM NumberPart.step? first = some next := by
        rw [List.foldlM_append, hsteps]
        simpa using hstep
      exact reads_unfinished hbefore (by simpa using Place.Unfinished.number hstart hsteps')
    | none =>
      rw [hstep] at h
      obtain ⟨hcomplete, hs'⟩ := Option.ite_none_right_eq_some.mp h
      rw [← List.append_assoc]
      refine reads_start? ?_ hs'
      simpa using hbefore.concat (isText_number hstart hsteps hcomplete)
  | @string ps texts hpieces =>
    simp only [step?, ite_eq_iff, reduceCtorEq, and_false, false_or] at h
    obtain ⟨rfl, hs'⟩ | ⟨hquote, ⟨rfl, hs'⟩ | ⟨hbackslash, hcontrol, hs'⟩⟩ := h
    · obtain rfl := Option.some_inj.mp hs'
      exact reads_concat hbefore (isText_string hpieces)
    · obtain rfl := Option.some_inj.mp hs'
      exact reads_unfinished hbefore (.escape hpieces)
    · obtain rfl := Option.some_inj.mp hs'
      have hplain : (Piece.char c).IsText [c] := .plain hquote hbackslash (Nat.not_lt.mp hcontrol)
      exact reads_unfinished hbefore (unfinished_string_concat hpieces hplain)
  | @escape ps texts hpieces =>
    rw [List.cons_append, List.append_assoc]
    simp only [step?, ite_eq_iff] at h
    obtain ⟨rfl, hs'⟩ | ⟨-, hs'⟩ := h
    · obtain rfl := Option.some_inj.mp hs'
      exact reads_unfinished hbefore (.unit hpieces rfl (by decide) (denotes_nil.mpr rfl))
    · obtain ⟨e, he, rfl⟩ := Option.map_eq_some_iff.mp hs'
      have hshort : (Piece.char e).IsText ['\\', c] := .short (mem_of_escaped? he)
      exact reads_unfinished hbefore (unfinished_string_concat hpieces hshort)
  | @unit ps texts ds missing value hpieces hlength hpos hvalue =>
    simp only [step?] at h
    cases hc : digitValue? 16 c with
    | none => rw [hc] at h; cases h
    | some d =>
      have hdigit := (digitValue?_eq_some_iff le_rfl).mp hc
      have hdenotes : Denotes 16 (ds ++ [c]) (value * 16 + d) :=
        denotes_concat.mpr ⟨value, d, hvalue, hdigit, rfl⟩
      have hlast : '"' :: (texts.flatten ++ '\\' :: 'u' :: ds) ++ [c] =
          '"' :: (texts.flatten ++ '\\' :: 'u' :: (ds ++ [c])) := by simp
      rw [hlast]
      simp only [hc, ite_eq_iff, Option.some.injEq] at h
      obtain ⟨hone, rfl⟩ | ⟨hmore, rfl⟩ := h
      · have hunit : (Piece.unit (value * 16 + d)).IsText ('\\' :: 'u' :: (ds ++ [c])) :=
          .unit (by rw [List.length_append, List.length_singleton]; omega) hdenotes
        exact reads_unfinished hbefore (unfinished_string_concat hpieces hunit)
      · refine reads_unfinished hbefore (.unit hpieces ?_ (by omega) hdenotes)
        rw [List.length_append, List.length_singleton]
        omega

theorem reads_of_foldlM {s' : Scan} {text : List Char} (hs : s.Reads cs)
    (h : text.foldlM step? s = some s') : s'.Reads (cs ++ text) := by
  induction text generalizing s cs with
  | nil =>
    obtain rfl := Option.some_inj.mp h
    simpa using hs
  | cons c text ih =>
    obtain ⟨next, hnext, hrest⟩ := Option.bind_eq_some_iff.mp h
    simpa using ih (reads_step? hs hnext) hrest

theorem consistOf_of_finish? {ls : List Lexeme} (hs : s.Reads cs) (h : s.finish? = some ls) :
    ConsistOf ls cs := by
  obtain ⟨before, last, rfl, hbefore, hlast⟩ := hs
  obtain ⟨done, place⟩ := s
  cases hlast with
  | between =>
    obtain rfl := Option.some_inj.mp h
    simpa using hbefore
  | number hstart hsteps =>
    obtain ⟨hcomplete, hls⟩ := Option.ite_none_right_eq_some.mp h
    obtain rfl := Option.some_inj.mp hls
    simpa using hbefore.concat (isText_number hstart hsteps hcomplete)
  | _ => cases h

end Scan

/-- A text that is read as lexemes consists of them. -/
theorem consistOf_of_lexemes? {ls : List Lexeme} {cs : List Char} (h : lexemes? cs = some ls) :
    ConsistOf ls cs := by
  obtain ⟨s, hs, hfinish⟩ := Option.bind_eq_some_iff.mp h
  have hstart : Scan.Reads {} [] := Scan.reads_between consistOf_nil
  exact Scan.consistOf_of_finish? (Scan.reads_of_foldlM hstart hs) hfinish

/-- The reader accepts the JSON texts, each as the one document that it spells. -/
theorem parse?_eq_some_iff {text : String} {v : Json} : parse? text = some v ↔ v.IsText text := by
  constructor
  · intro h
    obtain ⟨ls, hls, hv⟩ := Option.bind_eq_some_iff.mp h
    obtain rfl := ofLexemes?_eq_some_iff.mp hv
    exact consistOf_of_lexemes? hls
  · exact parse?_of_isText

end Disassembly.Json
