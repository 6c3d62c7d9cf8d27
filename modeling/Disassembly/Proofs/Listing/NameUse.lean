import Disassembly.Proofs.Listing.Words

namespace Disassembly

theorem Operand.target?_eq_some_iff {o : Operand} {a : Address} :
    o.target? = some a ↔ o = .direct a := by
  cases o <;> simp [target?]

theorem mem_filterMap_target?_iff {os : List Operand} {a : Address} :
    a ∈ os.filterMap Operand.target? ↔ .direct a ∈ os := by
  simp [List.mem_filterMap, Operand.target?_eq_some_iff]

namespace Line

variable {kinds : List TokenKind} {l l' : Line} {t : Token}

/-- The tokens of the given kinds. -/
def ofKinds (kinds : List TokenKind) (l : Line) : Line :=
  l.filter (·.kind ∈ kinds)

theorem ofKinds_cons_of_not_mem (h : t.kind ∉ kinds) :
    ofKinds kinds (t :: l) = l.ofKinds kinds :=
  List.filter_cons_of_neg (by simpa using h)

theorem ofKinds_append : ofKinds kinds (l ++ l') = l.ofKinds kinds ++ l'.ofKinds kinds :=
  List.filter_append l l'

theorem ofKinds_eq_self (h : ∀ t ∈ l, t.kind ∈ kinds) : l.ofKinds kinds = l := by
  simpa [ofKinds, List.filter_eq_self] using h

theorem ofKinds_eq_nil (h : ∀ t ∈ l, t.kind ∉ kinds) : l.ofKinds kinds = [] := by
  simpa [ofKinds, List.filter_eq_nil_iff] using h

theorem hasErrors_iff_of_mem (h : .error ∈ kinds) :
    l.hasErrors ↔ ∃ t ∈ l.ofKinds kinds, t.kind = .error := by
  rw [hasErrors, List.any_eq_true]
  constructor
  · intro herror
    obtain ⟨t, ht, hkind⟩ := herror
    have hkind : t.kind = .error := by simpa using hkind
    exact ⟨t, List.mem_filter.mpr ⟨ht, by simp [hkind, h]⟩, hkind⟩
  · intro herror
    obtain ⟨t, ht, hkind⟩ := herror
    exact ⟨t, (List.mem_filter.mp ht).1, by simp [hkind]⟩

end Line

namespace Renderer

variable {r : Renderer} {kinds : List TokenKind}

/-- The tokens of an operand that are looked up in a table: its registers, and the address if it
is one. -/
def lookups (r : Renderer) (o : Operand) : Line :=
  o.registers.map r.register ++ o.target?.toList.map r.address

theorem ofKinds_terms (hpunct : .punct ∉ kinds) (regs : List Register) :
    (r.terms regs).ofKinds kinds = Line.ofKinds kinds (regs.map r.register) := by
  induction regs with
  | nil => rfl
  | cons reg regs ih =>
    have hterms : r.terms (reg :: regs) = [r.register reg] ++ ⟨.punct, " + "⟩ :: r.terms regs := rfl
    have hmap : (reg :: regs).map r.register = [r.register reg] ++ regs.map r.register := rfl
    have hplus : Line.ofKinds kinds (⟨.punct, " + "⟩ :: r.terms regs) =
        (r.terms regs).ofKinds kinds := Line.ofKinds_cons_of_not_mem hpunct
    rw [hterms, hmap, Line.ofKinds_append, hplus, ih, ← Line.ofKinds_append]

theorem ofKinds_bracketed (hpunct : .punct ∉ kinds) (hnumber : .number ∉ kinds)
    (regs : List Register) (offset : UInt32) :
    (r.bracketed regs offset).ofKinds kinds = Line.ofKinds kinds (regs.map r.register) := by
  rw [bracketed, Line.ofKinds_cons_of_not_mem hpunct, Line.ofKinds_append, ofKinds_terms hpunct,
    Line.ofKinds_cons_of_not_mem hnumber, Line.ofKinds_cons_of_not_mem hpunct]
  exact List.append_nil _

/-- Punctuation and numbers apart, an operand shows what it looks up and nothing else. -/
theorem ofKinds_operand (hpunct : .punct ∉ kinds) (hnumber : .number ∉ kinds) (o : Operand) :
    (r.operand o).ofKinds kinds = (r.lookups o).ofKinds kinds := by
  cases o with
  | imm v => exact Line.ofKinds_cons_of_not_mem hnumber
  | reg reg => rfl
  | direct a => rfl
  | displ base index offset =>
    rw [operand, ofKinds_bracketed hpunct hnumber]
    simp [lookups, Operand.registers, Operand.target?]
  | sum width base second third fourth offset =>
    have hqualifier : Line.ofKinds kinds
        (if width.qualifier.isEmpty then [] else [⟨.punct, width.qualifier⟩]) = [] := by
      split
      · rfl
      · exact Line.ofKinds_cons_of_not_mem hpunct
    rw [operand, Line.ofKinds_append, hqualifier, ofKinds_bracketed hpunct hnumber]
    simp [lookups, Operand.registers, Operand.target?]

theorem ofKinds_operands (hpunct : .punct ∉ kinds) (hnumber : .number ∉ kinds)
    (os : List Operand) (separator : Nat → String) :
    Line.ofKinds kinds (os.mapIdx fun n o => ⟨.punct, separator n⟩ :: r.operand o).flatten =
      os.flatMap fun o => (r.lookups o).ofKinds kinds := by
  -- past the first operand the separators count from one further on
  induction os generalizing separator with
  | nil => rfl
  | cons o os ih =>
    rw [List.mapIdx_cons, List.flatten_cons, List.cons_append,
      Line.ofKinds_cons_of_not_mem hpunct, Line.ofKinds_append, ofKinds_operand hpunct hnumber, ih,
      List.flatMap_cons]

theorem kind_register {reg : Register} (h : r.registers.contains reg) :
    (r.register reg).kind = .register := by
  obtain ⟨name, _, _, hreg⟩ := exists_name h
  rw [hreg]

theorem kind_address (r : Renderer) (a : Address) :
    (r.address a).kind = if r.names a = none then .error else .symbol := by
  unfold address
  cases r.names a <;> rfl

variable {o : Operand} {t : Token}

theorem kind_of_mem_registers (ho : ∀ reg ∈ o.registers, r.registers.contains reg)
    (ht : t ∈ o.registers.map r.register) : t.kind = .register := by
  obtain ⟨reg, hreg, rfl⟩ := List.mem_map.mp ht
  exact kind_register (ho reg hreg)

theorem kind_of_mem_target (ht : t ∈ o.target?.toList.map r.address) :
    t.kind = .symbol ∨ t.kind = .error := by
  obtain ⟨a, _, rfl⟩ := List.mem_map.mp ht
  rw [kind_address]
  split
  · exact .inr rfl
  · exact .inl rfl

theorem ofKinds_register_lookups (ho : ∀ reg ∈ o.registers, r.registers.contains reg) :
    (r.lookups o).ofKinds [.register] = o.registers.map r.register := by
  have hregs : Line.ofKinds [.register] (o.registers.map r.register) =
      o.registers.map r.register := by
    apply Line.ofKinds_eq_self
    intro t ht
    simp [kind_of_mem_registers ho ht]
  have htarget : Line.ofKinds [.register] (o.target?.toList.map r.address) = [] := by
    apply Line.ofKinds_eq_nil
    intro t ht
    rcases kind_of_mem_target ht with hkind | hkind <;> simp [hkind]
  rw [lookups, Line.ofKinds_append, hregs, htarget, List.append_nil]

theorem ofKinds_address_lookups (ho : ∀ reg ∈ o.registers, r.registers.contains reg) :
    (r.lookups o).ofKinds [.symbol, .error] = o.target?.toList.map r.address := by
  have hregs : Line.ofKinds [.symbol, .error] (o.registers.map r.register) = [] := by
    apply Line.ofKinds_eq_nil
    intro t ht
    simp [kind_of_mem_registers ho ht]
  have htarget : Line.ofKinds [.symbol, .error] (o.target?.toList.map r.address) =
      o.target?.toList.map r.address := by
    apply Line.ofKinds_eq_self
    intro t ht
    rcases kind_of_mem_target ht with hkind | hkind <;> simp [hkind]
  rw [lookups, Line.ofKinds_append, hregs, htarget, List.nil_append]

/-- How tokens at the same place of two lines compare: they are the same, or they show one of the
addresses, each by the names of its own line. -/
def SameBarNames (r r' : Renderer) (addresses : List Address) (t t' : Token) : Prop :=
  t = t' ∨ ∃ a ∈ addresses, t = r.address a ∧ t' = r'.address a

theorem forall₂_operand (r : Renderer) (names : Names) {addresses : List Address}
    (ho : ∀ a ∈ o.target?, a ∈ addresses) :
    List.Forall₂ (SameBarNames r { r with names } addresses) (r.operand o)
      ({ r with names : Renderer }.operand o) := by
  cases o with
  | direct a => exact .cons (.inr ⟨a, ho a rfl, rfl, rfl⟩) .nil
  | _ => exact List.forall₂_same.mpr fun _ _ => .inl rfl

theorem forall₂_operands (r : Renderer) (names : Names) {addresses : List Address}
    (os : List Operand) (separator : Nat → String)
    (hos : ∀ o ∈ os, ∀ a ∈ o.target?, a ∈ addresses) :
    List.Forall₂ (SameBarNames r { r with names } addresses)
      (os.mapIdx fun n o => ⟨.punct, separator n⟩ :: r.operand o).flatten
      (os.mapIdx fun n o => ⟨.punct, separator n⟩ ::
        { r with names : Renderer }.operand o).flatten := by
  induction os generalizing separator with
  | nil => exact .nil
  | cons o os ih =>
    obtain ⟨ho, hos⟩ := List.forall_mem_cons.mp hos
    rw [List.mapIdx_cons, List.mapIdx_cons, List.flatten_cons, List.flatten_cons,
      List.cons_append, List.cons_append]
    exact .cons (.inl rfl) (List.rel_append (r.forall₂_operand names ho) (ih _ hos))

end Renderer

namespace Instruction.Matches

variable {p : Processor} {m : ByteSource} {i : Instruction} {d : Definition}

theorem ofKinds_line {kinds : List TokenKind} (h : i.Matches p m d) (names : Names)
    (hmnemonic : .mnemonic ∉ kinds) (hpunct : .punct ∉ kinds) (hnumber : .number ∉ kinds) :
    (p.line names i).ofKinds kinds =
      i.operands.flatMap fun o => ((p.renderer names).lookups o).ofKinds kinds := by
  rw [h.line_eq, Renderer.instruction_eq _ h.length_operands,
    Line.ofKinds_cons_of_not_mem hmnemonic, Renderer.ofKinds_operands hpunct hnumber]

theorem ofKinds_register_line (h : i.Matches p m d) (names : Names) :
    (p.line names i).ofKinds [.register] =
      (i.operands.flatMap Operand.registers).map (p.renderer names).register := by
  rw [h.ofKinds_line names (by decide) (by decide) (by decide), List.map_flatMap]
  apply List.flatMap_congr
  intro o ho
  exact Renderer.ofKinds_register_lookups (h.contains o ho)

theorem ofKinds_address_line (h : i.Matches p m d) (names : Names) :
    (p.line names i).ofKinds [.symbol, .error] =
      (i.operands.filterMap Operand.target?).map (p.renderer names).address := by
  rw [h.ofKinds_line names (by decide) (by decide) (by decide), List.filterMap_eq_flatMap_toList,
    List.map_flatMap]
  apply List.flatMap_congr
  intro o ho
  exact Renderer.ofKinds_address_lookups (h.contains o ho)

theorem hasErrors_line_iff (h : i.Matches p m d) (names : Names) :
    (p.line names i).hasErrors ↔ ∃ a, .direct a ∈ i.operands ∧ names a = none := by
  have hkind (a : Address) : ((p.renderer names).address a).kind = .error ↔ names a = none := by
    rw [Renderer.kind_address]
    change (if names a = none then TokenKind.error else .symbol) = .error ↔ names a = none
    split <;> simp_all
  rw [Line.hasErrors_iff_of_mem (by decide : .error ∈ [TokenKind.symbol, .error]),
    h.ofKinds_address_line]
  simp only [List.mem_map, exists_exists_and_eq_and, hkind, mem_filterMap_target?_iff]

theorem forall₂_line (h : i.Matches p m d) (names names' : Names) :
    List.Forall₂ (Renderer.SameBarNames (p.renderer names) (p.renderer names')
      (i.operands.filterMap Operand.target?)) (p.line names i) (p.line names' i) := by
  rw [h.line_eq, h.line_eq, Renderer.instruction_eq _ h.length_operands,
    Renderer.instruction_eq _ h.length_operands]
  apply List.Forall₂.cons (.inl rfl)
  apply (p.renderer names).forall₂_operands names'
  intro o ho a ha
  exact List.mem_filterMap.mpr ⟨o, ho, ha⟩

end Instruction.Matches

namespace Processor

/-- In the line of a decoded instruction all registers have their names, in the order of the
operands. Symbols and errors stand for the addresses among the operands, by their names or as
numbers, so that a line has errors exactly if one of these addresses has no name. With other names
the line is the same, token by token, but for these addresses. -/
theorem line_names_addresses_only {p : Processor} {m : ByteSource} {a : Address} {i : Instruction}
    (h : p.decode m a = .ok i) :
    let shown (names : Names) (target : Address) : Token :=
      match names target with
      | some name => ⟨.symbol, name⟩
      | none => ⟨.error, p.config.style.number target⟩
    (∀ names, ((p.line names i).ofKinds [.register]).map (some ·.text) =
      (i.operands.flatMap Operand.registers).map p.registers.name?) ∧
    (∀ names, (p.line names i).ofKinds [.symbol, .error] =
      (i.operands.filterMap Operand.target?).map (shown names)) ∧
    (∀ names, (p.line names i).hasErrors ↔
      ∃ target, .direct target ∈ i.operands ∧ names target = none) ∧
    (∀ names names', List.Forall₂ (fun t t' => t = t' ∨ ∃ target, .direct target ∈ i.operands ∧
        t = shown names target ∧ t' = shown names' target) (p.line names i) (p.line names' i)) := by
  intro shown
  obtain ⟨_, d, hd⟩ := exists_matches h
  have hshown (names : Names) : (p.renderer names).address = shown names := by
    funext target
    rfl
  refine ⟨?_, ?_, hd.hasErrors_line_iff, ?_⟩
  · intro names
    rw [hd.ofKinds_register_line, List.map_map]
    apply List.map_congr_left
    intro reg hreg
    obtain ⟨o, ho, hreg⟩ := List.mem_flatMap.mp hreg
    have hcontains : (p.renderer names).registers.contains reg := hd.contains o ho reg hreg
    obtain ⟨name, _, hname, htoken⟩ := Renderer.exists_name hcontains
    change some ((p.renderer names).register reg).text = p.registers.name? reg
    rw [htoken]
    exact hname.symm
  · intro names
    rw [hd.ofKinds_address_line, hshown]
  · intro names names'
    refine (hd.forall₂_line names names').imp ?_
    intro t t' htokens
    rcases htokens with hsame | ⟨target, htarget, ht, ht'⟩
    · exact .inl hsame
    · exact .inr ⟨target, mem_filterMap_target?_iff.mp htarget, ht, ht'⟩

/-- The last of 256 registers, whose byte in an optional slot would stand for none, and an address
with and without a name. -/
theorem line_names_addresses_only_last_register :
    let registers : RegisterTable := ⟨(List.range 256).map decimalText⟩
    let p : Processor := ⟨.standard, registers, {}, InstructionTable.validate_standard⟩
    let m : ByteSource := fun a => [0x14, 0xff, 0x34, 0x12, 0, 0][a.toNat]?
    let i : Instruction := ⟨0, 7, 6, [.reg ⟨0xff⟩, .direct 0x1234]⟩
    let names : Names := fun a => if a = 0x1234 then some "table" else none
    p.decode m 0 = .ok i ∧
      ((p.line names i).ofKinds [.register]).map (some ·.text) = [some "255"] ∧
      (p.line names i).ofKinds [.symbol, .error] = [⟨.symbol, "table"⟩] ∧
      ¬ (p.line names i).hasErrors ∧ (p.line (fun _ => none) i).hasErrors ∧
      (p.line names i).length = (p.line (fun _ => none) i).length := by
  intro registers p m i names
  have hd : p.decode m 0 = .ok i := by
    -- results cannot be compared by evaluation, what is in them can
    have hsome : (p.decode m 0).toOption = some i := by decide +kernel
    cases hresult : p.decode m 0 with
    | error e => simp [hresult, Except.toOption] at hsome
    | ok j => simpa [hresult, Except.toOption] using hsome
  obtain ⟨hregisters, haddresses, herrors, hsame⟩ := line_names_addresses_only hd
  have hlast : p.registers.name? ⟨0xff⟩ = some "255" := by decide +kernel
  refine ⟨hd, ?_, ?_, ?_, ?_, (hsame names _).length_eq⟩
  · rw [hregisters]
    exact congrArg (fun name => [name]) hlast
  · exact haddresses names
  · rw [herrors]
    rintro ⟨target, htarget, hnone⟩
    have htarget : target = 0x1234 := by simpa [i] using htarget
    simp [names, htarget] at hnone
  · rw [herrors]
    exact ⟨0x1234, by simp [i], rfl⟩

end Processor

end Disassembly
