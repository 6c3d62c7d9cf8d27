import Disassembly.Proofs.Json.Grammar

namespace Disassembly.Json

/-- The characters are those of a number and no part of it is missing. -/
def IsNumber (cs : List Char) : Prop :=
  ∃ c rest first last, cs = c :: rest ∧ NumberPart.start? c = some first ∧
    rest.foldlM NumberPart.step? first = some last ∧ last.isComplete

namespace NumberPart

/-- The characters complete a number of which the part has been read. -/
def Completes (part : NumberPart) (cs : List Char) : Prop :=
  ∃ last, cs.foldlM step? part = some last ∧ last.isComplete

variable {part : NumberPart} {c : Char} {cs : List Char}

@[simp]
theorem completes_nil : part.Completes [] ↔ part.isComplete := by
  simp [Completes]

theorem completes_cons :
    part.Completes (c :: cs) ↔ ∃ next, part.step? c = some next ∧ next.Completes cs := by
  simp only [Completes, List.foldlM_cons, Option.bind_eq_bind, Option.bind_eq_some_iff]
  constructor
  · rintro ⟨last, ⟨next, hnext, hlast⟩, hcomplete⟩
    exact ⟨next, hnext, last, hlast, hcomplete⟩
  · rintro ⟨next, hnext, last, hlast, hcomplete⟩
    exact ⟨last, ⟨next, hnext, hlast⟩, hcomplete⟩

theorem completes_exponent : exponent.Completes cs ↔ ∀ d ∈ cs, d.isDigit := by
  induction cs with
  | nil => simp [isComplete]
  | cons c cs ih =>
    rw [completes_cons, List.forall_mem_cons, ← ih]
    simp [step?]

theorem completes_exponentSign :
    exponentSign.Completes cs ↔ cs ≠ [] ∧ ∀ d ∈ cs, d.isDigit := by
  cases cs with
  | nil => simp [isComplete]
  | cons c cs =>
    rw [completes_cons, List.forall_mem_cons, ← completes_exponent]
    simp [step?]

theorem completes_exponentMark :
    exponentMark.Completes cs ↔
      ∃ sign ds, cs = sign ++ ds ∧ sign ∈ [[], ['+'], ['-']] ∧ ds ≠ [] ∧ ∀ d ∈ ds, d.isDigit := by
  constructor
  · intro h
    cases cs with
    | nil => cases completes_nil.mp h
    | cons c cs =>
      obtain ⟨next, hstep, hnext⟩ := completes_cons.mp h
      simp only [step?, ite_eq_iff, Option.some.injEq, reduceCtorEq, and_false, or_false] at hstep
      obtain ⟨hc, rfl⟩ | ⟨-, hc, rfl⟩ := hstep
      · refine ⟨[], c :: cs, rfl, by simp, by simp, ?_⟩
        exact List.forall_mem_cons.mpr ⟨hc, completes_exponent.mp hnext⟩
      · obtain ⟨hne, hdigits⟩ := completes_exponentSign.mp hnext
        refine ⟨[c], cs, rfl, ?_, hne, hdigits⟩
        rcases hc with rfl | rfl <;> simp
  · rintro ⟨sign, ds, rfl, hsign, hds⟩
    have hsigned := completes_exponentSign.mpr hds
    rw [List.mem_cons, List.mem_pair] at hsign
    rcases hsign with rfl | rfl | rfl
    · cases ds with
      | nil => exact absurd rfl hds.1
      | cons d ds =>
        obtain ⟨hd, hrest⟩ := List.forall_mem_cons.mp hds.2
        exact completes_cons.mpr ⟨.exponent, by simp [step?, hd], completes_exponent.mpr hrest⟩
    · exact completes_cons.mpr ⟨.exponentSign, rfl, hsigned⟩
    · exact completes_cons.mpr ⟨.exponentSign, rfl, hsigned⟩

theorem isExponent_cons :
    IsExponent (c :: cs) ↔ (c = 'e' ∨ c = 'E') ∧ exponentMark.Completes cs := by
  rw [completes_exponentMark]
  constructor
  · rintro (_ | ⟨hmark, hsign, hne, hdigits⟩)
    exact ⟨hmark, _, _, rfl, hsign, hne, hdigits⟩
  · rintro ⟨hmark, sign, ds, rfl, hsign, hne, hdigits⟩
    exact .digits hmark hsign hne hdigits

theorem not_isDigit_mark (h : c = 'e' ∨ c = 'E') : c.isDigit = false ∧ c ≠ '.' := by
  rcases h with rfl | rfl <;> decide

theorem completes_fraction :
    fraction.Completes cs ↔ ∃ ds e, cs = ds ++ e ∧ (∀ d ∈ ds, d.isDigit) ∧ IsExponent e := by
  constructor
  · intro h
    induction cs with
    | nil => exact ⟨[], [], rfl, by simp, .none⟩
    | cons c cs ih =>
      obtain ⟨next, hstep, hnext⟩ := completes_cons.mp h
      simp only [step?, ite_eq_iff, Option.some.injEq, reduceCtorEq, and_false, or_false] at hstep
      obtain ⟨hc, rfl⟩ | ⟨-, hc, rfl⟩ := hstep
      · obtain ⟨ds, e, rfl, hds, he⟩ := ih hnext
        exact ⟨c :: ds, e, rfl, List.forall_mem_cons.mpr ⟨hc, hds⟩, he⟩
      · exact ⟨[], c :: cs, rfl, by simp, isExponent_cons.mpr ⟨hc, hnext⟩⟩
  · rintro ⟨ds, e, rfl, hds, he⟩
    induction ds with
    | nil =>
      cases e with
      | nil => exact completes_nil.mpr rfl
      | cons c cs =>
        obtain ⟨hmark, hcs⟩ := isExponent_cons.mp he
        have hc := not_isDigit_mark hmark
        exact completes_cons.mpr ⟨.exponentMark, by simp [step?, hc, hmark], hcs⟩
    | cons d ds ih =>
      obtain ⟨hd, hrest⟩ := List.forall_mem_cons.mp hds
      exact completes_cons.mpr ⟨.fraction, by simp [step?, hd], ih hrest⟩

theorem completes_point :
    point.Completes cs ↔
      ∃ ds e, cs = ds ++ e ∧ ds ≠ [] ∧ (∀ d ∈ ds, d.isDigit) ∧ IsExponent e := by
  constructor
  · intro h
    cases cs with
    | nil => cases completes_nil.mp h
    | cons c cs =>
      obtain ⟨next, hstep, hnext⟩ := completes_cons.mp h
      obtain ⟨hc, hfraction⟩ := Option.ite_none_right_eq_some.mp hstep
      obtain rfl := Option.some_inj.mp hfraction
      obtain ⟨ds, e, rfl, hds, he⟩ := completes_fraction.mp hnext
      exact ⟨c :: ds, e, rfl, by simp, List.forall_mem_cons.mpr ⟨hc, hds⟩, he⟩
  · rintro ⟨ds, e, rfl, hne, hds, he⟩
    obtain ⟨d, ds, rfl⟩ := List.exists_cons_of_ne_nil hne
    obtain ⟨hd, hrest⟩ := List.forall_mem_cons.mp hds
    exact completes_cons.mpr ⟨.fraction, by simp [step?, hd],
      completes_fraction.mpr ⟨ds, e, rfl, hrest, he⟩⟩

/-- What can stand behind the digits in front of a fraction. -/
def IsTail (cs : List Char) : Prop :=
  ∃ f e, cs = f ++ e ∧ IsFraction f ∧ IsExponent e

theorem isTail_nil : IsTail [] :=
  ⟨[], [], rfl, .none, .none⟩

theorem isTail_cons :
    IsTail (c :: cs) ↔
      c = '.' ∧ point.Completes cs ∨ (c = 'e' ∨ c = 'E') ∧ exponentMark.Completes cs := by
  rw [← isExponent_cons, completes_point]
  constructor
  · rintro ⟨f, e, hcs, hf, he⟩
    cases hf with
    | none => exact .inr (hcs ▸ he)
    | digits hne hdigits =>
      obtain ⟨rfl, rfl⟩ := List.cons.inj hcs
      exact .inl ⟨rfl, _, e, rfl, hne, hdigits, he⟩
  · rintro (⟨rfl, ds, e, rfl, hne, hdigits, he⟩ | he)
    · exact ⟨'.' :: ds, e, rfl, .digits hne hdigits, he⟩
    · exact ⟨[], c :: cs, rfl, .none, he⟩

theorem completes_zero : zero.Completes cs ↔ IsTail cs := by
  cases cs with
  | nil => simp [isComplete, isTail_nil]
  | cons c cs =>
    rw [completes_cons, isTail_cons]
    by_cases hpoint : c = '.'
    · subst hpoint
      simp [step?]
    · simp [step?, hpoint]

theorem completes_whole :
    whole.Completes cs ↔ ∃ ds t, cs = ds ++ t ∧ (∀ d ∈ ds, d.isDigit) ∧ IsTail t := by
  constructor
  · intro h
    induction cs with
    | nil => exact ⟨[], [], rfl, by simp, isTail_nil⟩
    | cons c cs ih =>
      obtain ⟨next, hstep, hnext⟩ := completes_cons.mp h
      simp only [step?, ite_eq_iff, Option.some.injEq, reduceCtorEq, and_false, or_false] at hstep
      obtain ⟨hc, rfl⟩ | ⟨-, ⟨hc, rfl⟩ | ⟨-, hc, rfl⟩⟩ := hstep
      · obtain ⟨ds, t, rfl, hds, ht⟩ := ih hnext
        exact ⟨c :: ds, t, rfl, List.forall_mem_cons.mpr ⟨hc, hds⟩, ht⟩
      · exact ⟨[], c :: cs, rfl, by simp, isTail_cons.mpr (.inl ⟨hc, hnext⟩)⟩
      · exact ⟨[], c :: cs, rfl, by simp, isTail_cons.mpr (.inr ⟨hc, hnext⟩)⟩
  · rintro ⟨ds, t, rfl, hds, ht⟩
    induction ds with
    | nil =>
      cases t with
      | nil => exact completes_nil.mpr rfl
      | cons c cs =>
        obtain ⟨rfl, hcs⟩ | ⟨hmark, hcs⟩ := isTail_cons.mp ht
        · exact completes_cons.mpr ⟨.point, rfl, hcs⟩
        · have hc := not_isDigit_mark hmark
          exact completes_cons.mpr ⟨.exponentMark, by simp [step?, hc, hmark], hcs⟩
    | cons d ds ih =>
      obtain ⟨hd, hrest⟩ := List.forall_mem_cons.mp hds
      exact completes_cons.mpr ⟨.whole, by simp [step?, hd], ih hrest⟩

theorem Completes.ne_nil (h : part.Completes cs) (hpart : part.isComplete = false) : cs ≠ [] := by
  rintro rfl
  exact Bool.false_ne_true (hpart.symm.trans (completes_nil.mp h))

theorem completes_minus :
    minus.Completes cs ↔ ∃ w t, cs = w ++ t ∧ IsWhole w ∧ IsTail t := by
  constructor
  · intro h
    cases cs with
    | nil => cases completes_nil.mp h
    | cons c cs =>
      obtain ⟨next, hstep, hnext⟩ := completes_cons.mp h
      simp only [step?, ite_eq_iff, Option.some.injEq, reduceCtorEq, and_false, or_false] at hstep
      obtain ⟨rfl, rfl⟩ | ⟨hzero, hc, rfl⟩ := hstep
      · exact ⟨['0'], cs, rfl, .zero, completes_zero.mp hnext⟩
      · obtain ⟨ds, t, rfl, hds, ht⟩ := completes_whole.mp hnext
        exact ⟨c :: ds, t, rfl, .digits hc hzero hds, ht⟩
  · rintro ⟨w, t, rfl, hw, ht⟩
    cases hw with
    | zero => exact completes_cons.mpr ⟨.zero, rfl, completes_zero.mpr ht⟩
    | digits hc hzero hds =>
      exact completes_cons.mpr ⟨.whole, by simp [step?, hzero, hc],
        completes_whole.mpr ⟨_, t, rfl, hds, ht⟩⟩

end NumberPart

/-- The reader of numbers accepts the numbers of the grammar. -/
theorem isNumber_iff_isNumberText {cs : List Char} : IsNumber cs ↔ IsNumberText cs := by
  constructor
  · rintro ⟨c, rest, first, last, rfl, hfirst, hlast, hcomplete⟩
    have hrest : first.Completes rest := ⟨last, hlast, hcomplete⟩
    rw [NumberPart.start?] at hfirst
    split at hfirst
    · next hc =>
      obtain rfl := Option.some_inj.mp hfirst
      obtain ⟨w, t, rfl, hw, f, e, rfl, hf, he⟩ := NumberPart.completes_minus.mp hrest
      have hnumber : IsNumberText (['-'] ++ (w ++ (f ++ e))) := .mk (by simp) hw hf he
      rwa [hc]
    · have hminus : NumberPart.minus.Completes (c :: rest) :=
        NumberPart.completes_cons.mpr ⟨first, hfirst, hrest⟩
      obtain ⟨w, t, hcs, hw, f, e, rfl, hf, he⟩ := NumberPart.completes_minus.mp hminus
      have hnumber : IsNumberText ([] ++ (w ++ (f ++ e))) := .mk (by simp) hw hf he
      rwa [hcs]
  · rintro ⟨hsign, hw, hf, he⟩
    have hminus := NumberPart.completes_minus.mpr ⟨_, _, rfl, hw, _, _, rfl, hf, he⟩
    obtain rfl | rfl := List.mem_pair.mp hsign
    · obtain ⟨c, rest, hcs⟩ := List.exists_cons_of_ne_nil (hminus.ne_nil rfl)
      rw [hcs] at hminus
      obtain ⟨first, hfirst, last, hlast, hcomplete⟩ := NumberPart.completes_cons.mp hminus
      refine ⟨c, rest, first, last, hcs, ?_, hlast, hcomplete⟩
      have hc : c ≠ '-' := by
        rintro rfl
        cases hfirst
      rw [NumberPart.start?, if_neg hc]
      exact hfirst
    · obtain ⟨last, hlast, hcomplete⟩ := hminus
      exact ⟨'-', _, .minus, last, rfl, rfl, hlast, hcomplete⟩

namespace Scan

variable {done : List Lexeme} {chars : List Char}

theorem not_isSpace_of_number {c : Char} {part : NumberPart}
    (h : NumberPart.start? c = some part) : isSpace c = false := by
  rw [Bool.eq_false_iff]
  intro hspace
  simp only [isSpace, Bool.or_eq_true, decide_eq_true_eq] at hspace
  rcases hspace with ((rfl | rfl) | rfl) | rfl <;> cases h

theorem start?_of_number {c : Char} {part : NumberPart} (h : NumberPart.start? c = some part) :
    start? done c = some ⟨done, .number part [c]⟩ := by
  unfold start?
  rw [not_isSpace_of_number h, if_neg Bool.false_ne_true]
  split
  case h_11 => rw [h]; rfl
  all_goals cases h

theorem foldlM_number {rest : List Char} {first last : NumberPart}
    (h : rest.foldlM NumberPart.step? first = some last) :
    rest.foldlM step? ⟨done, .number first chars⟩ =
      some ⟨done, .number last (rest.reverse ++ chars)⟩ := by
  induction rest generalizing first chars with
  | nil =>
    cases h
    rfl
  | cons c rest ih =>
    obtain ⟨part, hpart, hrest⟩ := Option.bind_eq_some_iff.mp h
    have hstep : step? ⟨done, .number first chars⟩ c = some ⟨done, .number part (c :: chars)⟩ := by
      simp [step?, hpart]
    calc
      _ = rest.foldlM step? ⟨done, .number part (c :: chars)⟩ := by
        rw [List.foldlM_cons, hstep]; rfl
      _ = some ⟨done, .number last (rest.reverse ++ c :: chars)⟩ := ih hrest
      _ = some ⟨done, .number last ((c :: rest).reverse ++ chars)⟩ := by simp

end Scan

end Disassembly.Json
