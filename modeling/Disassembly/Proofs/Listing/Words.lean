import Disassembly.Proofs.Isa.Agreement
import Disassembly.Proofs.Text.Numeral

namespace Disassembly

/-- A character of a mnemonic, a register's name or a number. -/
def isWordChar (c : Char) : Bool :=
  c.isAlphanum || c == '_'

/-- The words of a text, whatever stands between them. -/
def words (cs : List Char) : List (List Char) :=
  (cs.splitOnP fun c => !isWordChar c).filter fun w => !w.isEmpty

def IsWord (s : String) : Prop :=
  s.toList ≠ [] ∧ ∀ c ∈ s.toList, isWordChar c

instance (s : String) : Decidable (IsWord s) :=
  decidable_of_iff (s.toList ≠ [] ∧ s.toList.all isWordChar) (by simp [IsWord])

/-- Keeps the words on its two sides apart and adds none. -/
def IsSeparator (s : String) : Prop :=
  s.toList ≠ [] ∧ ∀ c ∈ s.toList, isWordChar c = false

instance (s : String) : Decidable (IsSeparator s) :=
  decidable_of_iff (s.toList ≠ [] ∧ s.toList.all fun c => !isWordChar c) (by simp [IsSeparator])

@[simp] theorem words_nil : words [] = [] := rfl

theorem words_append_cons (cs ds : List Char) {c : Char} (hc : isWordChar c = false) :
    words (cs ++ c :: ds) = words cs ++ words ds := by
  unfold words
  rw [List.splitOnP_append_cons cs ds (by simp [hc]), List.filter_append]

theorem words_append_of_forall {cs : List Char} (hcs : ∀ c ∈ cs, isWordChar c = false)
    (ds : List Char) : words (cs ++ ds) = words ds := by
  induction cs with
  | nil => rfl
  | cons c cs ih =>
    rw [List.forall_mem_cons] at hcs
    calc
      words (c :: (cs ++ ds)) = words [] ++ words (cs ++ ds) := words_append_cons [] _ hcs.1
      _ = words ds := ih hcs.2

theorem words_append_of_getLast? {cs : List Char} (hcs : cs.getLast?.all fun c => !isWordChar c)
    (ds : List Char) : words (cs ++ ds) = words cs ++ words ds := by
  rcases List.eq_nil_or_concat cs with rfl | ⟨cs, c, rfl⟩
  · rfl
  · have hc : isWordChar c = false := by simpa using hcs
    rw [List.concat_eq_append, List.append_assoc, List.singleton_append,
      words_append_cons cs ds hc, words_append_cons cs [] hc, words_nil, List.append_nil]

theorem IsSeparator.words_append {s : String} (h : IsSeparator s) (cs ds : List Char) :
    words (cs ++ (s.toList ++ ds)) = words cs ++ words ds := by
  obtain ⟨hne, hs⟩ := h
  obtain ⟨c, rest, hrest⟩ := List.exists_cons_of_ne_nil hne
  rw [hrest, List.forall_mem_cons] at hs
  rw [hrest, List.cons_append, words_append_cons _ _ hs.1, words_append_of_forall hs.2]

theorem IsWord.words_eq {s : String} (h : IsWord s) : words s.toList = [s.toList] := by
  have hsplit : s.toList.splitOnP (fun c => !isWordChar c) = [s.toList] :=
    List.splitOnP_eq_singleton fun c hc => by simp [h.2 c hc]
  rw [words, hsplit]
  simp [h.1]

theorem Style.isWord_number (s : Style) (v : UInt32) : IsWord (s.number v) := by
  refine ⟨s.toList_number_ne_nil v, fun c hc => ?_⟩
  simp [isWordChar, Style.isAlphanum_of_mem_number hc]

namespace Line

/-- The words of a line as it is printed: where its tokens begin and end is not known. -/
def words (l : Line) : List (List Char) :=
  Disassembly.words l.text.toList

/-- Begins with something that no word before it can run into. -/
def Apart (l : Line) : Prop :=
  ∀ t ∈ l.head?, IsSeparator t.text

variable {kind : TokenKind} {s : String} {l : Line}

theorem toList_text_cons (t : Token) (l : Line) :
    (text (t :: l)).toList = t.text.toList ++ l.text.toList := by
  simp [text, String.join_cons]

theorem words_separator_cons (hs : IsSeparator s) : words (⟨kind, s⟩ :: l) = words l := by
  rw [words, toList_text_cons]
  exact hs.words_append [] _

theorem words_word_cons (hs : IsWord s) (hl : l.Apart) :
    words (⟨kind, s⟩ :: l) = s.toList :: words l := by
  cases l with
  | nil => simpa [words, text] using hs.words_eq
  | cons u l =>
    have hu : IsSeparator u.text := hl u rfl
    rw [words_separator_cons hu, words, toList_text_cons, toList_text_cons, hu.words_append,
      hs.words_eq, List.singleton_append, words]

end Line

namespace Operand

def width : Operand → Width
  | sum width _ _ _ _ _ => width
  | _ => .unspecified

def number? : Operand → Option UInt32
  | imm value => some value
  | reg _ => none
  | displ _ _ offset => some offset
  | direct target => some target
  | sum _ _ _ _ _ offset => some offset

end Operand

/-- Names that a reader can tell from each other and from the other words of a line. -/
structure RegisterTable.Legible (t : RegisterTable) : Prop where
  nodup : t.names.Nodup
  isWord : ∀ name ∈ t.names, IsWord name
  not_numeric : ∀ name ∈ t.names, looksNumeric name.toList = false
  not_qualifier : ∀ name ∈ t.names, ∀ w : Width, name.toList ∉ words w.qualifier.toList

namespace Renderer

/-- Lines without names for addresses whose words stand apart. -/
structure Legible (r : Renderer) : Prop where
  registers : r.registers.Legible
  openBracket : IsSeparator r.style.openBracket
  closeBracket : IsSeparator r.style.closeBracket
  names : ∀ a, r.names a = none

def registerWord (r : Renderer) (reg : Register) : List Char :=
  (r.register reg).text.toList

def numberWord (r : Renderer) (v : UInt32) : List Char :=
  (r.style.number v).toList

/-- What can be read off an operand: its qualifier, its registers and its number. -/
def operandWords (r : Renderer) (o : Operand) : List (List Char) :=
  Disassembly.words o.width.qualifier.toList ++ (o.registers.map r.registerWord ++
    o.number?.toList.map r.numberWord)

variable {r : Renderer}

theorem exists_name {reg : Register} (h : r.registers.contains reg) :
    ∃ name ∈ r.registers.names, r.registers.name? reg = some name ∧
      r.register reg = ⟨.register, name⟩ := by
  rw [← RegisterTable.isSome_name?] at h
  obtain ⟨name, hname⟩ := Option.isSome_iff_exists.mp h
  exact ⟨name, List.mem_of_getElem? hname, hname, by simp [register, hname]⟩

namespace Legible

theorem isWord_register (hr : r.Legible) {reg : Register} (h : r.registers.contains reg) :
    IsWord (r.register reg).text := by
  obtain ⟨name, hmem, _, hreg⟩ := exists_name h
  rw [hreg]
  exact hr.registers.isWord name hmem

theorem words_terms (hr : r.Legible) {regs : List Register}
    (hregs : ∀ reg ∈ regs, r.registers.contains reg) (l : Line) :
    Line.words (r.terms regs ++ l) = regs.map r.registerWord ++ l.words := by
  induction regs with
  | nil => rfl
  | cons reg regs ih =>
    rw [List.forall_mem_cons] at hregs
    have hplus : IsSeparator " + " := by decide
    have hapart : Line.Apart (⟨.punct, " + "⟩ :: (r.terms regs ++ l)) := by
      rintro t ⟨⟩
      exact hplus
    calc
      Line.words (r.terms (reg :: regs) ++ l) =
          Line.words (r.register reg :: ⟨.punct, " + "⟩ :: (r.terms regs ++ l)) := rfl
      _ = r.registerWord reg :: Line.words (r.terms regs ++ l) := by
        rw [Line.words_word_cons (hr.isWord_register hregs.1) hapart,
          Line.words_separator_cons hplus, registerWord]
      _ = (reg :: regs).map r.registerWord ++ l.words := by
        rw [ih hregs.2, List.map_cons, List.cons_append]

theorem words_bracketed (hr : r.Legible) {regs : List Register}
    (hregs : ∀ reg ∈ regs, r.registers.contains reg) (offset : UInt32) (l : Line) :
    Line.words (r.bracketed regs offset ++ l) =
      regs.map r.registerWord ++ r.numberWord offset :: l.words := by
  have hapart : Line.Apart (⟨.punct, r.style.closeBracket⟩ :: l) := by
    rintro t ⟨⟩
    exact hr.closeBracket
  have hnumber : IsWord (r.number offset).text := r.style.isWord_number offset
  rw [bracketed, List.cons_append, List.append_assoc, Line.words_separator_cons hr.openBracket,
    hr.words_terms hregs]
  congr 1
  calc
    Line.words (r.number offset :: ⟨.punct, r.style.closeBracket⟩ :: l) =
        r.numberWord offset :: Line.words (⟨.punct, r.style.closeBracket⟩ :: l) :=
      Line.words_word_cons hnumber hapart
    _ = r.numberWord offset :: l.words := by rw [Line.words_separator_cons hr.closeBracket]

theorem words_qualifier_append (w : Width) (l : Line) :
    Line.words ((if w.qualifier.isEmpty then [] else [⟨.punct, w.qualifier⟩]) ++ l) =
      Disassembly.words w.qualifier.toList ++ l.words := by
  have htext :
      (Line.text ((if w.qualifier.isEmpty then [] else [⟨.punct, w.qualifier⟩]) ++ l)).toList =
        w.qualifier.toList ++ l.text.toList := by
    cases w with
    | unspecified => rfl
    | _ => exact Line.toList_text_cons _ l
  have hblank : w.qualifier.toList.getLast?.all fun c => !isWordChar c := by
    cases w <;> decide
  rw [Line.words, htext, words_append_of_getLast? hblank, Line.words]

theorem words_operand (hr : r.Legible) {o : Operand}
    (ho : ∀ reg ∈ o.registers, r.registers.contains reg) {l : Line} (hl : l.Apart) :
    Line.words (r.operand o ++ l) = r.operandWords o ++ l.words := by
  cases o with
  | imm v => exact Line.words_word_cons (r.style.isWord_number v) hl
  | reg reg => exact Line.words_word_cons (hr.isWord_register (ho reg List.mem_cons_self)) hl
  | direct target =>
    have haddress : r.address target = ⟨.error, r.style.number target⟩ := by
      simp [address, hr.names]
    rw [operand, haddress]
    exact Line.words_word_cons (r.style.isWord_number target) hl
  | displ base index offset =>
    have hregs : ∀ reg ∈ base :: index.toList, r.registers.contains reg := ho
    rw [operand, hr.words_bracketed hregs]
    simp [operandWords, Operand.width, Operand.registers, Operand.number?, Width.qualifier]
  | sum width base second third fourth offset =>
    have hregs : ∀ reg ∈ base :: (second.toList ++ third.toList ++ fourth.toList),
      r.registers.contains reg := ho
    rw [operand, List.append_assoc, words_qualifier_append, hr.words_bracketed hregs]
    simp [operandWords, Operand.width, Operand.registers, Operand.number?]

theorem apart_operands (os : List Operand) {separator : Nat → String}
    (hseparator : ∀ n, IsSeparator (separator n)) :
    Line.Apart (os.mapIdx fun n o => ⟨.punct, separator n⟩ :: r.operand o).flatten := by
  cases os with
  | nil => simp [Line.Apart]
  | cons o os => simp [Line.Apart, hseparator]

theorem words_operands (hr : r.Legible) {os : List Operand}
    (hos : ∀ o ∈ os, ∀ reg ∈ o.registers, r.registers.contains reg) {separator : Nat → String}
    (hseparator : ∀ n, IsSeparator (separator n)) :
    Line.words (os.mapIdx fun n o => ⟨.punct, separator n⟩ :: r.operand o).flatten =
      os.flatMap r.operandWords := by
  induction os generalizing separator with
  | nil => rfl
  | cons o os ih =>
    rw [List.forall_mem_cons] at hos
    have hrest : ∀ n, IsSeparator (separator (n + 1)) := fun n => hseparator (n + 1)
    rw [List.mapIdx_cons, List.flatten_cons, List.cons_append,
      Line.words_separator_cons (hseparator 0),
      hr.words_operand hos.1 (apart_operands os hrest), ih hos.2 hrest, List.flatMap_cons]

/-- A printed instruction read word by word. -/
theorem words_instruction (hr : r.Legible) {d : Definition} {i : Instruction}
    (hmnemonic : IsWord d.mnemonic) (hlength : i.operands.length = d.arity)
    (hos : ∀ o ∈ i.operands, ∀ reg ∈ o.registers, r.registers.contains reg) :
    Line.words (r.instruction d i) = d.mnemonic.toList :: i.operands.flatMap r.operandWords := by
  have hseparator (n : Nat) : IsSeparator (if n = 0 then " " else ", ") := by
    split <;> decide
  rw [r.instruction_eq hlength, Line.words_word_cons hmnemonic (apart_operands _ hseparator),
    hr.words_operands hos hseparator]

end Legible

end Renderer

end Disassembly
