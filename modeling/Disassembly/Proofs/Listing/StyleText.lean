import Disassembly.Listing.StyleText
import Disassembly.Proofs.Json.Record
import Disassembly.Proofs.Json.RoundTrip
import Disassembly.Proofs.Json.Soundness

namespace Disassembly

open Json

theorem HexStyle.ofName?_eq_some_iff {name : String} {h : HexStyle} :
    ofName? name = some h ↔ name = h.name := by
  constructor
  · intro hname
    unfold ofName? at hname
    split at hname <;> cases hname <;> rfl
  · rintro rfl
    exact ofName?_name h

theorem HexStyle.ofJson?_eq_some_iff {v : Json} {h : HexStyle} :
    ofJson? v = some h ↔ v = .string (some h.name) ∨ v = .object [(some h.name, .null)] := by
  constructor
  · intro hv
    unfold ofJson? at hv
    split at hv
    · exact .inl (by rw [ofName?_eq_some_iff.mp hv])
    · exact .inr (by rw [ofName?_eq_some_iff.mp hv])
    · cases hv
  · rintro (rfl | rfl) <;> exact ofName?_name h

/-- A field of a style with the value that it is to have. -/
inductive Setting
  | hex (h : HexStyle)
  | uppercase (b : Bool)
  | openBracket (text : String)
  | closeBracket (text : String)
  | comment (text : String)
  | dataByte (text : String)

namespace Setting

def apply (s : Style) : Setting → Style
  | hex h => { s with hex := h }
  | uppercase b => { s with uppercase := b }
  | openBracket text => { s with openBracket := text }
  | closeBracket text => { s with closeBracket := text }
  | comment text => { s with comment := text }
  | dataByte text => { s with dataByte := text }

/-- The fields of a JSON object that set a style's fields. -/
inductive IsGivenBy : Setting → String × Json → Prop
  | hex (h : HexStyle) : IsGivenBy (hex h) ("hex", .string (some h.name))
  | hexObject (h : HexStyle) : IsGivenBy (hex h) ("hex", .object [(some h.name, .null)])
  | uppercase (b : Bool) : IsGivenBy (uppercase b) ("uppercase", .bool b)
  | openBracket (text : String) : IsGivenBy (openBracket text) ("lbracket", .string (some text))
  | closeBracket (text : String) : IsGivenBy (closeBracket text) ("rbracket", .string (some text))
  | comment (text : String) : IsGivenBy (comment text) ("comment", .string (some text))
  | dataByte (text : String) : IsGivenBy (dataByte text) ("data_byte", .string (some text))

end Setting

namespace Style

/-- The six values are read each for itself. -/
theorem ofJson?_eq_some_iff {v : Json} {s : Style} :
    ofJson? v = some s ↔ ∃ v₁ v₂ v₃ v₄ v₅ v₆,
      v.values? keys = some [v₁, v₂, v₃, v₄, v₅, v₆] ∧
      valueOr? .bare HexStyle.ofJson? v₁ = some s.hex ∧
      valueOr? false toBool? v₂ = some s.uppercase ∧
      valueOr? "[" toString? v₃ = some s.openBracket ∧
      valueOr? "]" toString? v₄ = some s.closeBracket ∧
      valueOr? ";" toString? v₅ = some s.comment ∧
      valueOr? "db" toString? v₆ = some s.dataByte := by
  constructor
  · intro hs
    obtain ⟨values, hvalues, hs⟩ := Option.bind_eq_some_iff.mp hs
    split at hs
    · simp only [Option.bind_eq_bind, Option.bind_eq_some_iff, Option.pure_def,
        Option.some.injEq] at hs
      obtain ⟨_, h₁, _, h₂, _, h₃, _, h₄, _, h₅, _, h₆, rfl⟩ := hs
      exact ⟨_, _, _, _, _, _, hvalues, h₁, h₂, h₃, h₄, h₅, h₆⟩
    · cases hs
  · rintro ⟨v₁, v₂, v₃, v₄, v₅, v₆, hvalues, h₁, h₂, h₃, h₄, h₅, h₆⟩
    simp only [ofJson?, hvalues, h₁, h₂, h₃, h₄, h₅, h₆, Option.bind_eq_bind, Option.bind_some,
      Option.pure_def]

/-- The six fields are read by their keys, each for itself. -/
theorem ofJson?_record {fields : List (String × Json)} {s : Style} :
    ofJson? (.record fields) = some s ↔
      Gives fields "hex" HexStyle.ofJson? .bare s.hex ∧
      Gives fields "uppercase" toBool? false s.uppercase ∧
      Gives fields "lbracket" toString? "[" s.openBracket ∧
      Gives fields "rbracket" toString? "]" s.closeBracket ∧
      Gives fields "comment" toString? ";" s.comment ∧
      Gives fields "data_byte" toString? "db" s.dataByte := by
  simp only [ofJson?_eq_some_iff, values?_record, mapM_eq_some_iff, keys, List.forall₂_cons,
    Gives, Option.bind_eq_some_iff]
  constructor
  · rintro ⟨_, _, _, _, _, _, ⟨h₁, h₂, h₃, h₄, h₅, h₆, -⟩, hx₁, hx₂, hx₃, hx₄, hx₅, hx₆⟩
    exact ⟨⟨_, h₁, hx₁⟩, ⟨_, h₂, hx₂⟩, ⟨_, h₃, hx₃⟩, ⟨_, h₄, hx₄⟩, ⟨_, h₅, hx₅⟩, _, h₆, hx₆⟩
  · rintro ⟨⟨_, h₁, hx₁⟩, ⟨_, h₂, hx₂⟩, ⟨_, h₃, hx₃⟩, ⟨_, h₄, hx₄⟩, ⟨_, h₅, hx₅⟩, _, h₆, hx₆⟩
    exact ⟨_, _, _, _, _, _, ⟨h₁, h₂, h₃, h₄, h₅, h₆, .nil⟩, hx₁, hx₂, hx₃, hx₄, hx₅, hx₆⟩

/-- A field with another key is passed over. -/
theorem ofJson?_record_cons_of_notMem {key : String} {v : Json} {fields : List (String × Json)}
    {s : Style} (hunknown : key ∉ keys) (h : ofJson? (.record fields) = some s) :
    ofJson? (.record ((key, v) :: fields)) = some s := by
  have hne : ∀ known ∈ keys, key ≠ known := fun known hknown heq => hunknown (heq ▸ hknown)
  simp only [keys, List.forall_mem_cons] at hne
  rw [ofJson?_record] at h ⊢
  simpa [gives_cons_of_ne, hne] using h

/-- A field whose key stands nowhere behind it replaces what the others leave. -/
theorem ofJson?_record_cons {setting : Setting} {field : String × Json}
    {fields : List (String × Json)} {s : Style} (hgiven : setting.IsGivenBy field)
    (habsent : ∀ other ∈ fields, other.1 ≠ field.1) (h : ofJson? (.record fields) = some s) :
    ofJson? (.record (field :: fields)) = some (setting.apply s) := by
  rw [ofJson?_record] at h ⊢
  obtain ⟨hhex, huppercase, hopen, hclose, hcomment, hdata⟩ := h
  cases hgiven <;> simp (disch := decide) only [gives_cons_of_ne]
  case hex k | hexObject k =>
    have hname := HexStyle.ofName?_name k
    exact ⟨gives_cons_self habsent hname, huppercase, hopen, hclose, hcomment, hdata⟩
  case uppercase b =>
    exact ⟨hhex, gives_cons_self habsent rfl, hopen, hclose, hcomment, hdata⟩
  case openBracket text =>
    exact ⟨hhex, huppercase, gives_cons_self habsent rfl, hclose, hcomment, hdata⟩
  case closeBracket text =>
    exact ⟨hhex, huppercase, hopen, gives_cons_self habsent rfl, hcomment, hdata⟩
  case comment text =>
    exact ⟨hhex, huppercase, hopen, hclose, gives_cons_self habsent rfl, hdata⟩
  case dataByte text =>
    exact ⟨hhex, huppercase, hopen, hclose, hcomment, gives_cons_self habsent rfl⟩

/-- The known fields of an object replace the defaults, in any order and between any others. -/
theorem ofJson?_record_of_settings {fields : List (String × Json)} {settings : List Setting}
    (hnodup : ((fields.filter (·.1 ∈ keys)).map Prod.fst).Nodup)
    (hgiven : List.Forall₂ Setting.IsGivenBy settings (fields.filter (·.1 ∈ keys))) :
    ofJson? (.record fields) = some (settings.foldr (fun setting s => setting.apply s) {}) := by
  induction fields generalizing settings with
  | nil =>
    cases hgiven
    exact ofJson?_record.mpr ⟨rfl, rfl, rfl, rfl, rfl, rfl⟩
  | cons field fields ih =>
    by_cases hknown : field.1 ∈ keys
    · rw [List.filter_cons_of_pos (by simpa using hknown)] at hnodup hgiven
      obtain ⟨setting, settings, hfirst, hrest, rfl⟩ := List.forall₂_cons_right_iff.mp hgiven
      obtain ⟨habsent, hnodup⟩ := List.nodup_cons.mp hnodup
      refine ofJson?_record_cons hfirst ?_ (ih hnodup hrest)
      intro other hother heq
      refine habsent (List.mem_map.mpr ⟨other, List.mem_filter.mpr ⟨hother, ?_⟩, heq⟩)
      simpa [heq] using hknown
    · rw [List.filter_cons_of_neg (by simpa using hknown)] at hnodup hgiven
      exact ofJson?_record_cons_of_notMem hknown (ih hnodup hgiven)

/-- The value sets the field that the key names. -/
def IsValue (key : String) (v : Json) : Prop :=
  ∃ setting : Setting, setting.IsGivenBy (key, v)

theorem not_isValue_null (key : String) : ¬ IsValue key .null := by
  rintro ⟨setting, h⟩
  cases h

/-- The last four of the keys take any string. -/
theorem isValue_iff {key : String} {v : Json} :
    IsValue key v ↔
      (key = "hex" ∧ ∃ h, HexStyle.ofJson? v = some h) ∨
      (key = "uppercase" ∧ ∃ b, toBool? v = some b) ∨
      key ∈ keys.drop 2 ∧ ∃ text, toString? v = some text := by
  constructor
  · rintro ⟨setting, hgiven⟩
    cases hgiven
    case hex h | hexObject h => exact .inl ⟨rfl, h, HexStyle.ofName?_name h⟩
    case uppercase b => exact .inr (.inl ⟨rfl, b, rfl⟩)
    all_goals exact .inr (.inr ⟨by decide, _, rfl⟩)
  · rintro (⟨rfl, h, hv⟩ | ⟨rfl, b, hv⟩ | ⟨hkey, text, hv⟩)
    · obtain rfl | rfl := HexStyle.ofJson?_eq_some_iff.mp hv
      · exact ⟨_, .hex h⟩
      · exact ⟨_, .hexObject h⟩
    · obtain rfl := toBool?_eq_some_iff.mp hv
      exact ⟨_, .uppercase b⟩
    · obtain rfl := toString?_eq_some_iff.mp hv
      simp only [keys, List.drop, List.mem_cons, List.not_mem_nil, or_false] at hkey
      obtain rfl | rfl | rfl | rfl := hkey
      · exact ⟨_, .openBracket text⟩
      · exact ⟨_, .closeBracket text⟩
      · exact ⟨_, .comment text⟩
      · exact ⟨_, .dataByte text⟩

/-- A style is read exactly from what gives each of the six fields at most one value of its type. -/
theorem exists_ofJson?_iff {v : Json} :
    (∃ s, ofJson? v = some s) ↔ v.IsRecord keys IsValue := by
  have hex (d : HexStyle) {value : Option Json} :
      (∃ h, valueOr? d HexStyle.ofJson? value = some h) ↔ Fits IsValue "hex" value :=
    exists_valueOr?_iff fun _ => by simp [isValue_iff, keys]
  have bool (d : Bool) {value : Option Json} :
      (∃ b, valueOr? d toBool? value = some b) ↔ Fits IsValue "uppercase" value :=
    exists_valueOr?_iff fun _ => by simp [isValue_iff, keys]
  have string (d : String) {key : String} {value : Option Json}
      (hkey : key ∈ keys.drop 2 ∧ key ≠ "hex" ∧ key ≠ "uppercase") :
      (∃ text, valueOr? d toString? value = some text) ↔ Fits IsValue key value :=
    exists_valueOr?_iff fun _ => by simp [isValue_iff, hkey]
  simp only [ofJson?_eq_some_iff, isRecord_iff]
  constructor
  · rintro ⟨s, v₁, v₂, v₃, v₄, v₅, v₆, hvalues, h₁, h₂, h₃, h₄, h₅, h₆⟩
    refine ⟨_, hvalues, .cons ((hex _).mp ⟨_, h₁⟩) (.cons ((bool _).mp ⟨_, h₂⟩) ?_)⟩
    exact .cons ((string _ (by decide)).mp ⟨_, h₃⟩) (.cons ((string _ (by decide)).mp ⟨_, h₄⟩)
      (.cons ((string _ (by decide)).mp ⟨_, h₅⟩)
        (.cons ((string _ (by decide)).mp ⟨_, h₆⟩) .nil)))
  · rintro ⟨values, hvalues, hfit⟩
    obtain _ | ⟨h₁, _ | ⟨h₂, _ | ⟨h₃, _ | ⟨h₄, _ | ⟨h₅, _ | ⟨h₆, _ | _⟩⟩⟩⟩⟩⟩ := hfit
    obtain ⟨hexStyle, hx₁⟩ := (hex .bare).mpr h₁
    obtain ⟨uppercase, hx₂⟩ := (bool false).mpr h₂
    obtain ⟨openBracket, hx₃⟩ := (string "[" (by decide)).mpr h₃
    obtain ⟨closeBracket, hx₄⟩ := (string "]" (by decide)).mpr h₄
    obtain ⟨comment, hx₅⟩ := (string ";" (by decide)).mpr h₅
    obtain ⟨dataByte, hx₆⟩ := (string "db" (by decide)).mpr h₆
    exact ⟨⟨hexStyle, uppercase, openBracket, closeBracket, comment, dataByte⟩, _, _, _, _, _, _,
      hvalues, hx₁, hx₂, hx₃, hx₄, hx₅, hx₆⟩

end Style

theorem Style.ofJson?_toJson (s : Style) : ofJson? s.toJson = some s :=
  ofJson?_record.mpr ⟨HexStyle.ofName?_name s.hex, rfl, rfl, rfl, rfl, rfl⟩

namespace Config

theorem ofJson?_eq_some_iff {v : Json} {c : Config} :
    ofJson? v = some c ↔ ∃ value, v.values? ["syntax"] = some [value] ∧
      valueOr? {} Style.ofJson? value = some c.style := by
  constructor
  · intro hc
    obtain ⟨values, hvalues, hc⟩ := Option.bind_eq_some_iff.mp hc
    split at hc
    · simp only [Option.bind_eq_bind, Option.bind_eq_some_iff, Option.pure_def,
        Option.some.injEq] at hc
      obtain ⟨_, h, rfl⟩ := hc
      exact ⟨_, hvalues, h⟩
    · cases hc
  · rintro ⟨value, hvalues, h⟩
    simp only [ofJson?, hvalues, h, Option.bind_eq_bind, Option.bind_some, Option.pure_def]

theorem ofJson?_record {fields : List (String × Json)} {c : Config} :
    ofJson? (.record fields) = some c ↔ Gives fields "syntax" Style.ofJson? {} c.style := by
  simp [ofJson?_eq_some_iff, values?_record, Gives, Option.bind_eq_some_iff]

theorem ofJson?_toJson (c : Config) : ofJson? c.toJson = some c :=
  ofJson?_record.mpr (gives_cons_self (by simp) (Style.ofJson?_toJson c.style))

theorem isSpelled_toJson (c : Config) : c.toJson.IsSpelled := by
  have hbool : (Json.bool c.style.uppercase).IsSpelled := by
    simp [IsSpelled, lexemes, Lexeme.IsSpelled]
  simp only [toJson, Style.toJson, isSpelled_record, List.forall_mem_cons, isSpelled_ofString,
    hbool, List.not_mem_nil, IsEmpty.forall_iff, implies_true, true_and]

/-- The value gives each of the six fields at most one value of its type, by key or by position. -/
def IsStyleValue (v : Json) : Prop :=
  v.IsRecord Style.keys Style.IsValue

theorem exists_ofJson?_iff {v : Json} :
    (∃ c, ofJson? v = some c) ↔ v.IsRecord ["syntax"] fun _ v => IsStyleValue v := by
  have hstyle {value : Option Json} : (∃ s, valueOr? {} Style.ofJson? value = some s) ↔
      Fits (fun _ v => IsStyleValue v) "syntax" value :=
    exists_valueOr?_iff fun _ => Style.exists_ofJson?_iff
  simp only [ofJson?_eq_some_iff, isRecord_iff]
  constructor
  · rintro ⟨c, value, hvalues, h⟩
    exact ⟨_, hvalues, .cons (hstyle.mp ⟨_, h⟩) .nil⟩
  · rintro ⟨values, hvalues, hfit⟩
    obtain _ | ⟨h, _ | _⟩ := hfit
    obtain ⟨style, hx⟩ := hstyle.mpr h
    exact ⟨⟨style⟩, _, hvalues, hx⟩

theorem ofJson?_object_eq_none_iff {fields : List (Option String × Json)} :
    ofJson? (.object fields) = none ↔ HasFault ["syntax"] (fun _ v => IsStyleValue v) fields := by
  rw [← not_iff_not, ← Ne.eq_def, Option.ne_none_iff_exists']
  exact exists_ofJson?_iff

/-- Every JSON text of a configuration is read as that configuration. The known fields of an object
replace the defaults, in any order and with any other fields between them at both levels. A text is
refused exactly if a known key stands twice or has a value that does not fit it, or if any key is
no text. -/
theorem text_overrides_defaults :
    (∀ c : Config, c.toJson.IsText c.toJson.pretty ∧
      ∀ text, c.toJson.IsText text → parse? text = some c) ∧
    (∀ (text : String) (outer inner : List (String × Json)) (settings : List Setting),
      (record outer).IsText text →
      outer.filter (·.1 == "syntax") = [("syntax", record inner)] →
      ((inner.filter (·.1 ∈ Style.keys)).map Prod.fst).Nodup →
      List.Forall₂ Setting.IsGivenBy settings (inner.filter (·.1 ∈ Style.keys)) →
      parse? text = some { style := settings.foldr (fun setting s => setting.apply s) {} }) ∧
    (∀ (text : String) (outer : List (Option String × Json)), (object outer).IsText text →
      (parse? text = none ↔ HasFault ["syntax"] (fun _ v => IsStyleValue v) outer)) := by
  refine ⟨fun c => ⟨?_, fun text htext => ?_⟩, ?_, ?_⟩
  · exact isText_pretty (isSpelled_toJson c)
  · rw [parse?, parse?_of_isText htext]
    exact ofJson?_toJson c
  · intro text outer inner settings htext houter hnodup hgiven
    have hstyle := Style.ofJson?_record_of_settings hnodup hgiven
    rw [parse?, parse?_of_isText htext]
    exact ofJson?_record.mpr (gives_iff.mpr (.inr ⟨_, houter, hstyle⟩))
  · intro text outer htext
    rw [parse?, parse?_of_isText htext, Option.bind_some]
    exact ofJson?_object_eq_none_iff

theorem text_overrides_defaults_escaped_key :
    parse? ("\x7b\"v\": [\"\\ud800\", \x7b\"\": -1e9\x7d], \"s\\u0079ntax\": \x7b" ++
        "\"comment\": \"\\u0023\",\n\"z\": null, \"hex\": \x7b\"suffix\": null\x7d\x7d\x7d") =
      some { style := { hex := .suffix, comment := "#" } } ∧
    parse? "\x7b\"syntax\": \x7b\"hex\": null\x7d\x7d" = none ∧
    parse? "\x7b\"syntax\": [\"cstyle\", 5]\x7d" = none := by
  obtain ⟨-, hgiven, hfault⟩ := text_overrides_defaults
  refine ⟨?_, ?_, ?_⟩
  · exact hgiven _
      [("v", .array [.string none, .object [(some "", .number "-1e9")]]),
        ("syntax", record [("comment", .string (some "#")), ("z", .null),
          ("hex", .object [(some "suffix", .null)])])]
      [("comment", .string (some "#")), ("z", .null), ("hex", .object [(some "suffix", .null)])]
      [.comment "#", .hex .suffix] (parse?_eq_some_iff.mp rfl) rfl (by decide)
      (.cons (.comment _) (.cons (.hexObject _) .nil))
  · refine (hfault _ [(some "syntax", .object [(some "hex", .null)])]
      (parse?_eq_some_iff.mp rfl)).mpr ?_
    refine .value (List.mem_singleton_self _) (List.mem_singleton_self _) (not_not_intro ?_)
    exact .value (by decide) (List.mem_singleton_self _) (Style.not_isValue_null "hex")
  · refine (hfault _ [(some "syntax", .array [.string (some "cstyle"), .number "5"])]
      (parse?_eq_some_iff.mp rfl)).mpr ?_
    refine .value (List.mem_singleton_self _) (List.mem_singleton_self _) ?_
    rintro ⟨-, hvalues⟩
    have huppercase : Style.IsValue "uppercase" (.number "5") :=
      hvalues ("uppercase", .number "5") (by simp [Style.keys])
    simp [Style.isValue_iff, Style.keys, toBool?] at huppercase

/-- Half of a surrogate pair is refused even in a key that would be passed over. A style may also be
an array, and a name of hexadecimal digits an object. -/
theorem half_pair_key_is_refused_other_forms_are_read :
    (object [(some "syntax", .object []), (none, .number "0")]).IsText
      "\x7b\"syntax\": \x7b\x7d, \"\\ud800\": 0\x7d" ∧
    parse? "\x7b\"syntax\": \x7b\x7d, \"\\ud800\": 0\x7d" = none ∧
    (object [(some "syntax", .array [])]).IsText "\x7b\"syntax\": []\x7d" ∧
    parse? "\x7b\"syntax\": []\x7d" = some {} ∧
    (object [(some "syntax", .object [(some "hex", .object [(some "bare", .null)])])]).IsText
      "\x7b\"syntax\": \x7b\"hex\": \x7b\"bare\": null\x7d\x7d\x7d" ∧
    parse? "\x7b\"syntax\": \x7b\"hex\": \x7b\"bare\": null\x7d\x7d\x7d" = some {} :=
  ⟨parse?_eq_some_iff.mp rfl, rfl, parse?_eq_some_iff.mp rfl, rfl, parse?_eq_some_iff.mp rfl, rfl⟩

end Config

end Disassembly
