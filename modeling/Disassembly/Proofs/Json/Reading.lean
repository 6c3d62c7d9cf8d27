import Disassembly.Json.Read

namespace Disassembly.Json

mutual

/-- The lexemes that spell a document. -/
def lexemes : Json → List Lexeme
  | null => [.null]
  | bool b => [.bool b]
  | number spelling => [.number spelling]
  | string text => [.string text]
  | array [] => [.openArray, .closeArray]
  | array (v :: vs) => .openArray :: (v.lexemes ++ (elementLexemes vs ++ [.closeArray]))
  | object [] => [.openObject, .closeObject]
  | object ((key, v) :: fields) =>
    .openObject :: .string key :: .colon :: (v.lexemes ++ (fieldLexemes fields ++ [.closeObject]))

/-- The lexemes of the further elements of an array. -/
def elementLexemes : List Json → List Lexeme
  | [] => []
  | v :: vs => .comma :: (v.lexemes ++ elementLexemes vs)

/-- The lexemes of the further fields of an object. -/
def fieldLexemes : List (Option String × Json) → List Lexeme
  | [] => []
  | (key, v) :: fields => .comma :: .string key :: .colon :: (v.lexemes ++ fieldLexemes fields)

end

namespace Reading

/-- Behind an opening bracket an element is read as anywhere else: none begins with a closing
bracket. -/
theorem foldlM_firstElement (v : Json) (around : List Frame) :
    v.lexemes.foldlM step? (firstElement around) =
      v.lexemes.foldlM step? (value (.element [] :: around)) := by
  cases v with
  | array vs => cases vs <;> simp [lexemes, step?]
  | object fields => cases fields <;> simp [lexemes, step?]
  | _ => simp [lexemes, step?]

mutual

/-- The lexemes of a document are read as that document, whatever stands around it. -/
theorem foldlM_lexemes (v : Json) (around : List Frame) :
    v.lexemes.foldlM step? (value around) = some (done v around) := by
  cases v with
  | null | bool | number | string => rfl
  | array vs =>
    cases vs with
    | nil => rfl
    | cons v vs =>
      have hfirst : v.lexemes.foldlM step? (firstElement around) =
          some (done v (.element [] :: around)) := by
        rw [foldlM_firstElement, foldlM_lexemes v]
      calc
        _ = (v.lexemes ++ (elementLexemes vs ++ [Lexeme.closeArray])).foldlM step?
            (firstElement around) := by rw [lexemes]; rfl
        _ = (elementLexemes vs ++ [Lexeme.closeArray]).foldlM step?
            (done v (.element [] :: around)) := by rw [List.foldlM_append, hfirst]; rfl
        _ = some (done (array (v :: vs)) around) := foldlM_elementLexemes vs v [] around
  | object fields =>
    cases fields with
    | nil => rfl
    | cons field fields =>
      obtain ⟨key, v⟩ := field
      calc
        _ = (v.lexemes ++ (fieldLexemes fields ++ [Lexeme.closeObject])).foldlM step?
            (value (.field [] key :: around)) := by rw [lexemes]; rfl
        _ = (fieldLexemes fields ++ [Lexeme.closeObject]).foldlM step?
            (done v (.field [] key :: around)) := by
          rw [List.foldlM_append, foldlM_lexemes v]; rfl
        _ = some (done (object ((key, v) :: fields)) around) :=
          foldlM_fieldLexemes fields key v [] around

/-- The further elements of an array are read behind the ones before them. -/
theorem foldlM_elementLexemes (vs : List Json) (v : Json) (before : List Json)
    (around : List Frame) :
    (elementLexemes vs ++ [Lexeme.closeArray]).foldlM step? (done v (.element before :: around)) =
      some (done (array (before.reverse ++ v :: vs)) around) := by
  cases vs with
  | nil => simp [elementLexemes, step?]
  | cons w vs =>
    calc
      _ = (w.lexemes ++ (elementLexemes vs ++ [Lexeme.closeArray])).foldlM step?
          (value (.element (v :: before) :: around)) := by
        rw [elementLexemes, List.cons_append, List.append_assoc]; rfl
      _ = (elementLexemes vs ++ [Lexeme.closeArray]).foldlM step?
          (done w (.element (v :: before) :: around)) := by
        rw [List.foldlM_append, foldlM_lexemes w]; rfl
      _ = some (done (array (before.reverse ++ v :: w :: vs)) around) := by
        rw [foldlM_elementLexemes vs w (v :: before) around]
        simp

/-- The further fields of an object are read behind the ones before them. -/
theorem foldlM_fieldLexemes (fields : List (Option String × Json)) (key : Option String) (v : Json)
    (before : List (Option String × Json)) (around : List Frame) :
    (fieldLexemes fields ++ [Lexeme.closeObject]).foldlM step?
        (done v (.field before key :: around)) =
      some (done (object (before.reverse ++ (key, v) :: fields)) around) := by
  cases fields with
  | nil => simp [fieldLexemes, step?]
  | cons field fields =>
    obtain ⟨next, w⟩ := field
    calc
      _ = (w.lexemes ++ (fieldLexemes fields ++ [Lexeme.closeObject])).foldlM step?
          (value (.field ((key, v) :: before) next :: around)) := by
        rw [fieldLexemes]
        simp only [List.cons_append, List.append_assoc]
        rfl
      _ = (fieldLexemes fields ++ [Lexeme.closeObject]).foldlM step?
          (done w (.field ((key, v) :: before) next :: around)) := by
        rw [List.foldlM_append, foldlM_lexemes w]; rfl
      _ = some (done (object (before.reverse ++ (key, v) :: (next, w) :: fields)) around) := by
        rw [foldlM_fieldLexemes fields next w ((key, v) :: before) around]
        simp

end

end Reading

theorem ofLexemes?_lexemes (v : Json) : ofLexemes? v.lexemes = some v := by
  rw [ofLexemes?, Reading.foldlM_lexemes]
  rfl

/-- The lexemes of elements with a comma behind each. -/
def elementsBefore (vs : List Json) : List Lexeme :=
  vs.flatMap fun v => v.lexemes ++ [.comma]

/-- The lexemes of fields with a comma behind each. -/
def fieldsBefore (fields : List (Option String × Json)) : List Lexeme :=
  fields.flatMap fun field => .string field.1 :: .colon :: (field.2.lexemes ++ [.comma])

theorem elementsBefore_append_lexemes (w : Json) (ws : List Json) (v : Json) :
    elementsBefore (w :: ws) ++ v.lexemes = w.lexemes ++ elementLexemes (ws ++ [v]) := by
  induction ws generalizing w with
  | nil => simp [elementsBefore, elementLexemes]
  | cons x ws ih =>
    calc
      _ = w.lexemes ++ .comma :: (elementsBefore (x :: ws) ++ v.lexemes) := by
        simp [elementsBefore]
      _ = w.lexemes ++ elementLexemes (x :: ws ++ [v]) := by
        rw [ih, List.cons_append, elementLexemes]

theorem lexemes_array_concat (vs : List Json) (v : Json) :
    (array (vs ++ [v])).lexemes =
      .openArray :: (elementsBefore vs ++ v.lexemes ++ [.closeArray]) := by
  cases vs with
  | nil => simp [elementsBefore, lexemes, elementLexemes]
  | cons w ws =>
    rw [elementsBefore_append_lexemes, List.cons_append, lexemes, List.append_assoc]

theorem fieldsBefore_append_lexemes (key : Option String) (w : Json)
    (fields : List (Option String × Json)) (key' : Option String) (v : Json) :
    fieldsBefore ((key, w) :: fields) ++ .string key' :: .colon :: v.lexemes =
      .string key :: .colon :: (w.lexemes ++ fieldLexemes (fields ++ [(key', v)])) := by
  induction fields generalizing key w with
  | nil => simp [fieldsBefore, fieldLexemes]
  | cons field fields ih =>
    obtain ⟨next, x⟩ := field
    calc
      _ = .string key :: .colon :: (w.lexemes ++ .comma ::
          (fieldsBefore ((next, x) :: fields) ++ .string key' :: .colon :: v.lexemes)) := by
        simp [fieldsBefore]
      _ = _ := by
        rw [ih, List.cons_append, fieldLexemes]

theorem lexemes_object_concat (fields : List (Option String × Json)) (key : Option String)
    (v : Json) :
    (object (fields ++ [(key, v)])).lexemes =
      .openObject ::
        (fieldsBefore fields ++ .string key :: .colon :: v.lexemes ++ [.closeObject]) := by
  cases fields with
  | nil => simp [fieldsBefore, lexemes, fieldLexemes]
  | cons field fields =>
    obtain ⟨first, w⟩ := field
    rw [fieldsBefore_append_lexemes, List.cons_append, lexemes]
    simp

/-- The lexemes of the part of an array or object that has been read. -/
def Frame.read : Frame → List Lexeme
  | element before => .openArray :: elementsBefore before.reverse
  | field before key => .openObject :: (fieldsBefore before.reverse ++ [.string key, .colon])

/-- The lexemes read, the outermost frame first. -/
def framesRead (around : List Frame) : List Lexeme :=
  around.reverse.flatMap Frame.read

namespace Reading

/-- The lexemes that have been read. -/
def read : Reading → List Lexeme
  | value around => framesRead around
  | firstElement around => framesRead around ++ [.openArray]
  | firstKey around => framesRead around ++ [.openObject]
  | nextKey before around => framesRead around ++ .openObject :: fieldsBefore before.reverse
  | colon before key around =>
    framesRead around ++ .openObject :: (fieldsBefore before.reverse ++ [.string key])
  | done v around => framesRead around ++ v.lexemes

theorem framesRead_cons (f : Frame) (around : List Frame) :
    framesRead (f :: around) = framesRead around ++ f.read := by
  simp [framesRead]

theorem read_of_start? {around : List Frame} {l : Lexeme} {r : Reading}
    (h : start? around l = some r) : r.read = framesRead around ++ [l] := by
  cases l <;> cases h <;> rfl

/-- A step reads its lexeme and forgets none of those before. -/
theorem read_of_step? {r r' : Reading} {l : Lexeme} (h : r.step? l = some r') :
    r'.read = r.read ++ [l] := by
  revert h
  fun_cases step? r l <;> intro h
  -- A value begins, an array or object ends, or the step does not exist; else a frame is extended.
  case case1 => exact read_of_start? h
  case case3 around _ =>
    rw [read_of_start? h, framesRead_cons]
    rfl
  case case9 v before around =>
    obtain rfl := Option.some_inj.mp h
    simp [read, framesRead_cons, Frame.read, lexemes_array_concat]
  case case11 v before key around =>
    obtain rfl := Option.some_inj.mp h
    simp [read, framesRead_cons, Frame.read, lexemes_object_concat]
  case case12 => cases h
  all_goals
    obtain rfl := Option.some_inj.mp h
    simp [read, framesRead_cons, Frame.read, lexemes, elementsBefore, fieldsBefore]

theorem read_of_foldlM {r r' : Reading} {ls : List Lexeme} (h : ls.foldlM step? r = some r') :
    r'.read = r.read ++ ls := by
  induction ls generalizing r with
  | nil =>
    obtain rfl := Option.some_inj.mp h
    exact (List.append_nil _).symm
  | cons l ls ih =>
    obtain ⟨next, hnext, hrest⟩ := Option.bind_eq_some_iff.mp h
    rw [ih hrest, read_of_step? hnext, List.append_assoc]
    rfl

end Reading

/-- The lexemes of a document and of no other one. -/
theorem ofLexemes?_eq_some_iff {ls : List Lexeme} {v : Json} :
    ofLexemes? ls = some v ↔ ls = v.lexemes := by
  constructor
  · intro h
    obtain ⟨r, hr, hfinish⟩ := Option.bind_eq_some_iff.mp h
    have hread : r.read = [] ++ ls := Reading.read_of_foldlM hr
    cases r with
    | done w around =>
      cases around with
      | nil =>
        obtain rfl := Option.some_inj.mp hfinish
        exact hread.symm
      | cons f around => cases hfinish
    | _ => cases hfinish
  · rintro rfl
    exact ofLexemes?_lexemes v

end Disassembly.Json
