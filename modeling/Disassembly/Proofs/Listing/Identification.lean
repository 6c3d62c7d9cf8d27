import Disassembly.Proofs.Listing.Words

namespace Disassembly

/-- A list has one place where the elements with a property end. -/
theorem append_inj_of_forall {α : Type} {p : α → Prop} {as bs cs ds : List α}
    (has : ∀ a ∈ as, p a) (hbs : ∀ b ∈ bs, p b) (hcs : ∀ c ∈ cs.head?, ¬ p c)
    (hds : ∀ d ∈ ds.head?, ¬ p d) (h : as ++ cs = bs ++ ds) : as = bs ∧ cs = ds := by
  induction as generalizing bs with
  | nil =>
    cases bs with
    | nil => exact ⟨rfl, h⟩
    | cons b bs =>
      obtain rfl : cs = b :: (bs ++ ds) := h
      exact absurd (hbs b List.mem_cons_self) (hcs b rfl)
  | cons a as ih =>
    cases bs with
    | nil =>
      obtain rfl : a :: (as ++ cs) = ds := h
      exact absurd (has a List.mem_cons_self) (hds a rfl)
    | cons b bs =>
      rw [List.cons_append, List.cons_append, List.cons.injEq] at h
      obtain ⟨rfl, h⟩ := h
      rw [List.forall_mem_cons] at has hbs
      obtain ⟨rfl, rfl⟩ := ih has.2 hbs.2 h
      exact ⟨rfl, rfl⟩

namespace Operand

/-- The same operand, but for which of the optional slots of a sum are the unused ones. -/
def SameTerms : Operand → Operand → Prop
  | sum width base second third fourth offset, sum width' base' second' third' fourth' offset' =>
    width = width' ∧ base = base' ∧ offset = offset' ∧
      second.toList ++ third.toList ++ fourth.toList =
        second'.toList ++ third'.toList ++ fourth'.toList
  | o, o' => o = o'

instance : (o o' : Operand) → Decidable (SameTerms o o')
  | sum .., sum .. => inferInstanceAs (Decidable (_ ∧ _))
  | imm _, _ | reg _, _ | displ .., _ | direct _, _ => inferInstanceAs (Decidable (_ = _))
  | sum .., imm _ | sum .., reg _ | sum .., displ .. | sum .., direct _ =>
    inferInstanceAs (Decidable (_ = _))

/-- Operands of one kind. -/
inductive SameKind : Operand → Operand → Prop
  | imm (v v' : UInt32) : SameKind (.imm v) (.imm v')
  | reg (r r' : Register) : SameKind (.reg r) (.reg r')
  | displ (b b' : Register) (i i' : Option Register) (n n' : UInt32) :
    SameKind (.displ b i n) (.displ b' i' n')
  | direct (a a' : Address) : SameKind (.direct a) (.direct a')
  | sum (w w' : Width) (b b' : Register) (i j k i' j' k' : Option Register) (n n' : UInt32) :
    SameKind (.sum w b i j k n) (.sum w' b' i' j' k' n')

theorem SameKind.sameTerms_iff {o o' : Operand} (h : SameKind o o') :
    SameTerms o o' ↔ o.width = o'.width ∧ o.registers = o'.registers ∧ o.number? = o'.number? := by
  cases h with
  | imm v v' => simp [SameTerms, width, registers, number?]
  | reg r r' => simp [SameTerms, width, registers, number?]
  | displ b b' i i' n n' =>
    have hindex : i.toList = i'.toList ↔ i = i' := by
      cases i <;> cases i' <;> simp
    simp [SameTerms, width, registers, number?, hindex, and_assoc]
  | direct a a' => simp [SameTerms, width, registers, number?]
  | sum w w' b b' i j k i' j' k' n n' =>
    simp only [SameTerms, width, registers, number?, List.cons.injEq, Option.some.injEq]
    tauto

end Operand

namespace Form

/-- The operand is a number and nothing else. -/
def isNumber : Form → Bool
  | imm8 | imm32 | memory | near | far => true
  | reg | displ | sum => false

/-- The operands tell the two layouts apart: behind the same forms, a number stands in only one
of them. -/
def diverge : List Form → List Form → Bool
  | f :: fs, g :: gs => f.isNumber != g.isNumber || (f == g && diverge fs gs)
  | _, _ => false

variable {table : RegisterTable} {f : Form} {o o' : Operand}

theorem Fits.sameKind (h : f.Fits table o) (h' : f.Fits table o') : o.SameKind o' := by
  cases f <;> cases o <;> simp [Fits] at h <;> cases o' <;> simp [Fits] at h' <;> constructor

end Form

namespace Renderer

variable {r : Renderer}

theorem looksNumeric_numberWord (r : Renderer) (v : UInt32) : looksNumeric (r.numberWord v) :=
  r.style.looksNumeric_number v

theorem not_looksNumeric_qualifier (w : Width) :
    ∀ word ∈ words w.qualifier.toList, ¬ looksNumeric word := by
  cases w <;> decide

def IsQualifierWord (word : List Char) : Prop :=
  ∃ w : Width, word ∈ words w.qualifier.toList

theorem words_qualifier_inj {w w' : Width}
    (h : words w.qualifier.toList = words w'.qualifier.toList) : w = w' := by
  revert h
  cases w <;> cases w' <;> decide

theorem operand_congr (r : Renderer) {o o' : Operand} (h : o.SameTerms o') :
    r.operand o = r.operand o' := by
  unfold Operand.SameTerms at h
  split at h
  · obtain ⟨rfl, rfl, rfl, hterms⟩ := h
    rw [operand, operand, hterms]
  · rw [h]

theorem instruction_congr (r : Renderer) {d : Definition} {i i' : Instruction}
    (h : List.Forall₂ Operand.SameTerms i.operands i'.operands) :
    r.instruction d i = r.instruction d i' := by
  have hmap : i.operands.map r.operand = i'.operands.map r.operand := by
    rw [← List.forall₂_eq_eq_eq, List.forall₂_map_left_iff, List.forall₂_map_right_iff]
    exact h.imp fun _ _ => r.operand_congr
  have hslot (n : Nat) (separator : String) :
      r.slot separator i.operands[n]? = r.slot separator i'.operands[n]? := by
    have hn : i.operands[n]?.map r.operand = i'.operands[n]?.map r.operand := by
      rw [← List.getElem?_map, hmap, List.getElem?_map]
    cases ho : i.operands[n]? <;> cases ho' : i'.operands[n]? <;> simp_all [slot]
  simp only [instruction, hslot]

namespace Legible

theorem not_looksNumeric_registerWord (hr : r.Legible) {reg : Register}
    (h : r.registers.contains reg) : ¬ looksNumeric (r.registerWord reg) := by
  obtain ⟨name, hmem, _, hreg⟩ := exists_name h
  simp [registerWord, hreg, hr.registers.not_numeric name hmem]

theorem not_isQualifierWord_registerWord (hr : r.Legible) {reg : Register}
    (h : r.registers.contains reg) : ¬ IsQualifierWord (r.registerWord reg) := by
  obtain ⟨name, hmem, _, hreg⟩ := exists_name h
  rintro ⟨w, hw⟩
  rw [registerWord, hreg] at hw
  exact hr.registers.not_qualifier name hmem w hw

theorem registerWord_inj (hr : r.Legible) {reg reg' : Register} (h : r.registers.contains reg)
    (h' : r.registers.contains reg') (heq : r.registerWord reg = r.registerWord reg') :
    reg = reg' := by
  obtain ⟨name, _, hname, hreg⟩ := exists_name h
  obtain ⟨name', _, hname', hreg'⟩ := exists_name h'
  rw [registerWord, registerWord, hreg, hreg', String.toList_inj] at heq
  have hlt : reg.id.toNat < r.registers.names.length := of_decide_eq_true h
  have hnames : r.registers.names[reg.id.toNat]? = r.registers.names[reg'.id.toNat]? :=
    hname.trans ((congrArg some heq).trans hname'.symm)
  have hid := (List.getElem?_inj hlt hr.registers.nodup).mp hnames
  have hsame : reg.id = reg'.id := UInt8.toNat_inj.mp hid
  exact Register.mk_eq_iff.mpr hsame

theorem map_registerWord_inj (hr : r.Legible) {regs regs' : List Register}
    (h : ∀ reg ∈ regs, r.registers.contains reg) (h' : ∀ reg ∈ regs', r.registers.contains reg)
    (heq : regs.map r.registerWord = regs'.map r.registerWord) : regs = regs' := by
  induction regs generalizing regs' with
  | nil => exact (List.map_eq_nil_iff.mp heq.symm).symm
  | cons reg regs ih =>
    cases regs' with
    | nil => cases heq
    | cons reg' regs' =>
      rw [List.forall_mem_cons] at h h'
      obtain ⟨hreg, hregs⟩ := List.cons.inj heq
      rw [hr.registerWord_inj h.1 h'.1 hreg, ih h.2 h'.2 hregs]

/-- The qualifier ends where the first register is named. -/
theorem qualifier_append_inj (hr : r.Legible) {w w' : Width} {regs regs' : List Register}
    (h : ∀ reg ∈ regs, r.registers.contains reg) (h' : ∀ reg ∈ regs', r.registers.contains reg)
    (heq : words w.qualifier.toList ++ regs.map r.registerWord =
      words w'.qualifier.toList ++ regs'.map r.registerWord) : w = w' ∧ regs = regs' := by
  have hnone {regs : List Register} (h : ∀ reg ∈ regs, r.registers.contains reg) :
      ∀ word ∈ (regs.map r.registerWord).head?, ¬ IsQualifierWord word := by
    intro word hword
    obtain ⟨reg, hreg, rfl⟩ := List.mem_map.mp (List.mem_of_head? hword)
    exact hr.not_isQualifierWord_registerWord (h reg hreg)
  obtain ⟨hqualifier, hregs⟩ := append_inj_of_forall (p := IsQualifierWord)
    (fun _ hword => ⟨w, hword⟩) (fun _ hword => ⟨w', hword⟩) (hnone h) (hnone h') heq
  exact ⟨words_qualifier_inj hqualifier, hr.map_registerWord_inj h h' hregs⟩

theorem not_looksNumeric_of_mem (hr : r.Legible) {o : Operand}
    (ho : ∀ reg ∈ o.registers, r.registers.contains reg) :
    ∀ word ∈ words o.width.qualifier.toList ++ o.registers.map r.registerWord,
      ¬ looksNumeric word := by
  intro word hword
  rcases List.mem_append.mp hword with hword | hword
  · exact not_looksNumeric_qualifier o.width word hword
  · obtain ⟨reg, hreg, rfl⟩ := List.mem_map.mp hword
    exact hr.not_looksNumeric_registerWord (ho reg hreg)

/-- An operand ends with its number, and nothing in front of a number looks like one. -/
theorem operandWords_append_inj (hr : r.Legible) {o o' : Operand} {n n' : UInt32}
    {rest rest' : List (List Char)} (ho : ∀ reg ∈ o.registers, r.registers.contains reg)
    (ho' : ∀ reg ∈ o'.registers, r.registers.contains reg) (hn : o.number? = some n)
    (hn' : o'.number? = some n')
    (h : r.operandWords o ++ rest = r.operandWords o' ++ rest') :
    (o.width = o'.width ∧ o.registers = o'.registers ∧ n = n') ∧ rest = rest' := by
  have hnumber (v : UInt32) (rest : List (List Char)) :
      ∀ word ∈ (r.numberWord v :: rest).head?, ¬ ¬ looksNumeric word := by
    rintro word ⟨⟩
    exact not_not_intro (r.looksNumeric_numberWord v)
  have hsplit : (words o.width.qualifier.toList ++ o.registers.map r.registerWord) ++
        r.numberWord n :: rest =
      (words o'.width.qualifier.toList ++ o'.registers.map r.registerWord) ++
        r.numberWord n' :: rest' := by
    simpa [operandWords, hn, hn'] using h
  obtain ⟨hterms, hrest⟩ := append_inj_of_forall (hr.not_looksNumeric_of_mem ho)
    (hr.not_looksNumeric_of_mem ho') (hnumber n rest) (hnumber n' rest') hsplit
  obtain ⟨hword, rfl⟩ := List.cons.inj hrest
  obtain ⟨hwidth, hregs⟩ := hr.qualifier_append_inj ho ho' hterms
  exact ⟨⟨hwidth, hregs, r.style.number_injective (String.toList_inj.mp hword)⟩, rfl⟩

theorem sameTerms_of_operandWords (hr : r.Legible) {f : Form} {o o' : Operand}
    {rest rest' : List (List Char)} (ho : f.Fits r.registers o) (ho' : f.Fits r.registers o')
    (h : r.operandWords o ++ rest = r.operandWords o' ++ rest') :
    o.SameTerms o' ∧ rest = rest' := by
  have hregs := ho.contains
  have hregs' := ho'.contains
  have hkind := ho.sameKind ho'
  have hnumber {n n' : UInt32} (hn : o.number? = some n) (hn' : o'.number? = some n') :
      o.SameTerms o' ∧ rest = rest' := by
    obtain ⟨⟨hwidth, hsame, rfl⟩, hrest⟩ := hr.operandWords_append_inj hregs hregs' hn hn' h
    exact ⟨hkind.sameTerms_iff.mpr ⟨hwidth, hsame, hn.trans hn'.symm⟩, hrest⟩
  cases hkind with
  | imm v v' => exact hnumber rfl rfl
  | displ b b' i i' n n' => exact hnumber rfl rfl
  | direct a a' => exact hnumber rfl rfl
  | sum w w' b b' i j k i' j' k' n n' => exact hnumber rfl rfl
  | reg reg reg' =>
    obtain ⟨hword, hrest⟩ := List.cons.inj h
    have hreg := hr.registerWord_inj (hregs reg List.mem_cons_self)
      (hregs' reg' List.mem_cons_self) hword
    exact ⟨congrArg Operand.reg hreg, hrest⟩

/-- The first word of an operand tells whether the operand is a number. -/
theorem exists_operandWords_cons (hr : r.Legible) {f : Form} {o : Operand}
    (ho : f.Fits r.registers o) :
    ∃ word rest, r.operandWords o = word :: rest ∧ looksNumeric word = f.isNumber := by
  have hname (reg : Register) (hreg : reg ∈ o.registers) :
      looksNumeric (r.registerWord reg) = false := by
    simpa using hr.not_looksNumeric_registerWord (ho.contains reg hreg)
  have hvalue (v : UInt32) : looksNumeric (r.numberWord v) = true := r.looksNumeric_numberWord v
  unfold Form.Fits at ho
  split at ho
  case h_3 reg => exact ⟨_, _, rfl, hname reg List.mem_cons_self⟩
  case h_4 base index offset => exact ⟨_, _, rfl, hname base List.mem_cons_self⟩
  case h_8 width base second third fourth offset =>
    rw [operandWords, Operand.width]
    cases hqualifier : words width.qualifier.toList with
    | nil => exact ⟨_, _, rfl, hname base List.mem_cons_self⟩
    | cons word rest =>
      have hword := not_looksNumeric_qualifier width word (by simp [hqualifier])
      exact ⟨word, _, rfl, Bool.eq_false_iff.mpr hword⟩
  case h_9 => exact ho.elim
  all_goals exact ⟨_, _, rfl, hvalue _⟩

theorem sameTerms_of_flatMap (hr : r.Legible) {fs : List Form} {os os' : List Operand}
    (hos : List.Forall₂ (Form.Fits r.registers) fs os)
    (hos' : List.Forall₂ (Form.Fits r.registers) fs os')
    (h : os.flatMap r.operandWords = os'.flatMap r.operandWords) :
    List.Forall₂ Operand.SameTerms os os' := by
  induction hos generalizing os' with
  | nil =>
    cases hos'
    exact .nil
  | cons ho _ ih =>
    cases hos' with
    | cons ho' hos' =>
      rw [List.flatMap_cons, List.flatMap_cons] at h
      obtain ⟨hsame, hrest⟩ := hr.sameTerms_of_operandWords ho ho' h
      exact .cons hsame (ih hos' hrest)

theorem flatMap_ne_of_diverge (hr : r.Legible) {fs gs : List Form} {os os' : List Operand}
    (hos : List.Forall₂ (Form.Fits r.registers) fs os)
    (hos' : List.Forall₂ (Form.Fits r.registers) gs os') (hdiverge : Form.diverge fs gs) :
    os.flatMap r.operandWords ≠ os'.flatMap r.operandWords := by
  intro h
  induction hos generalizing gs os' with
  | nil => simp [Form.diverge] at hdiverge
  | @cons f o fs os ho _ ih =>
    cases hos' with
    | nil => simp [Form.diverge] at hdiverge
    | @cons g o' gs os' ho' hos' =>
      rw [List.flatMap_cons, List.flatMap_cons] at h
      rw [Form.diverge, Bool.or_eq_true, Bool.and_eq_true, bne_iff_ne, beq_iff_eq] at hdiverge
      rcases hdiverge with hfirst | ⟨rfl, hdiverge⟩
      · obtain ⟨word, ws, hwords, hword⟩ := hr.exists_operandWords_cons ho
        obtain ⟨word', ws', hwords', hword'⟩ := hr.exists_operandWords_cons ho'
        rw [hwords, hwords'] at h
        obtain ⟨rfl, _⟩ := List.cons.inj h
        exact hfirst (hword.symm.trans hword')
      · exact ih hos' hdiverge (hr.sameTerms_of_operandWords ho ho' h).2

end Legible

end Renderer

theorem RegisterTable.legible_standard : RegisterTable.standard.Legible where
  nodup := by decide
  isWord := by decide
  not_numeric := by decide
  not_qualifier := by
    intro name hname w
    revert name
    cases w <;> decide

namespace InstructionTable

theorem isWord_mnemonic_standard : ∀ d ∈ standard, IsWord d.mnemonic := by
  decide +kernel

/-- Two instructions share a mnemonic only if the operands tell them apart. -/
theorem diverge_of_mnemonic_eq : ∀ d ∈ standard, ∀ d' ∈ standard, d.mnemonic = d'.mnemonic →
    d = d' ∨ Form.diverge d.encoding.layout d'.encoding.layout := by
  decide +kernel

end InstructionTable

namespace Processor

/-- In every style whose brackets are separators, as the usual ones are, the text of an instruction
of the machine shows its definition and its operands. All that it does not show is which of the
optional slots of a sum are the unused ones. -/
theorem line_text_eq_iff (style : Style) (hopen : IsSeparator style.openBracket)
    (hclose : IsSeparator style.closeBracket) {m m' : ByteSource} {a a' : Address}
    {i i' : Instruction} (h : (standard ⟨style⟩).decode m a = .ok i)
    (h' : (standard ⟨style⟩).decode m' a' = .ok i') :
    ((standard ⟨style⟩).line (fun _ => none) i).text =
        ((standard ⟨style⟩).line (fun _ => none) i').text ↔
      i.definition = i'.definition ∧ List.Forall₂ Operand.SameTerms i.operands i'.operands := by
  obtain ⟨_, d, hd⟩ := exists_matches h
  obtain ⟨_, d', hd'⟩ := exists_matches h'
  let r := (standard ⟨style⟩).renderer fun _ => none
  have hr : r.Legible := ⟨RegisterTable.legible_standard, hopen, hclose, fun _ => rfl⟩
  have hline : (standard ⟨style⟩).line (fun _ => none) i = r.instruction d i := hd.line_eq _
  have hline' : (standard ⟨style⟩).line (fun _ => none) i' = r.instruction d' i' := hd'.line_eq _
  rw [hline, hline']
  constructor
  · intro htext
    have hwords : Line.words (r.instruction d i) = Line.words (r.instruction d' i') := by
      rw [Line.words, htext, Line.words]
    rw [hr.words_instruction (InstructionTable.isWord_mnemonic_standard d hd.mem_table)
        hd.length_operands hd.contains,
      hr.words_instruction (InstructionTable.isWord_mnemonic_standard d' hd'.mem_table)
        hd'.length_operands hd'.contains, List.cons.injEq, String.toList_inj] at hwords
    obtain ⟨hmnemonic, hoperands⟩ := hwords
    rcases InstructionTable.diverge_of_mnemonic_eq d hd.mem_table d' hd'.mem_table hmnemonic with
      rfl | hdiverge
    · exact ⟨hd.definition_eq hd', hr.sameTerms_of_flatMap hd.operands hd'.operands hoperands⟩
    · exact absurd hoperands (hr.flatMap_ne_of_diverge hd.operands hd'.operands hdiverge)
  · rintro ⟨hdefinition, hoperands⟩
    have hsame : some d = some d' := by
      rw [← hd.definition, ← hd'.definition, definition?, definition?, hdefinition]
    obtain rfl := Option.some.inj hsame
    rw [r.instruction_congr hoperands]

/-- The same sum with its second register in two different slots, and the two meanings of a
mnemonic that two definitions share. -/
theorem line_text_eq_iff_sum_slots :
    let style : Style := { hex := .suffix, uppercase := true }
    let p := standard ⟨style⟩
    let source (bytes : List UInt8) : ByteSource := fun a => bytes[a.toNat]?
    let text (i : Instruction) : String := (p.line (fun _ => none) i).text
    let sum : Instruction := ⟨0, 9, 11, [.reg ⟨0⟩, .sum .byte ⟨1⟩ (some ⟨2⟩) none none 0xab]⟩
    let sum' : Instruction := ⟨0, 9, 11, [.reg ⟨0⟩, .sum .byte ⟨1⟩ none (some ⟨2⟩) none 0xab]⟩
    let copy : Instruction := ⟨0, 3, 3, [.reg ⟨0⟩, .reg ⟨1⟩]⟩
    let load : Instruction := ⟨0, 4, 6, [.reg ⟨0⟩, .imm 1]⟩
    p.decode (source [0x16, 0, 1, 1, 2, 0xff, 0xff, 0xab, 0, 0, 0]) 0 = .ok sum ∧
      p.decode (source [0x16, 0, 1, 1, 0xff, 2, 0xff, 0xab, 0, 0, 0]) 0 = .ok sum' ∧
      p.decode (source [0x10, 0, 1]) 0 = .ok copy ∧
      p.decode (source [0x11, 0, 1, 0, 0, 0]) 0 = .ok load ∧
      text sum = text sum' ∧ text copy ≠ text load := by
  intro style p source text sum sum' copy load
  have hopen : IsSeparator style.openBracket := by decide
  have hclose : IsSeparator style.closeBracket := by decide
  have hsum : p.decode (source [0x16, 0, 1, 1, 2, 0xff, 0xff, 0xab, 0, 0, 0]) 0 = .ok sum := by rfl
  have hsum' : p.decode (source [0x16, 0, 1, 1, 0xff, 2, 0xff, 0xab, 0, 0, 0]) 0 = .ok sum' := by
    rfl
  have hcopy : p.decode (source [0x10, 0, 1]) 0 = .ok copy := by rfl
  have hload : p.decode (source [0x11, 0, 1, 0, 0, 0]) 0 = .ok load := by rfl
  refine ⟨hsum, hsum', hcopy, hload, ?_, ?_⟩
  · exact (line_text_eq_iff style hopen hclose hsum hsum').mpr (by decide)
  · intro htext
    obtain ⟨hdefinition, _⟩ := (line_text_eq_iff style hopen hclose hcopy hload).mp htext
    exact absurd hdefinition (by decide)

end Processor

end Disassembly
