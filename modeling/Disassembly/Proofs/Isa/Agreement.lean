import Disassembly.Proofs.Isa.Codec
import Disassembly.Proofs.Isa.Decoding
import Disassembly.Proofs.Isa.Validation

namespace Disassembly

theorem Form.exists_eq_direct {table : RegisterTable} {f : Form} {o : Operand}
    (hf : f.isCodeAddress) (h : f.Fits table o) : ∃ t, o = .direct t := by
  cases f with
  | near =>
    cases o with
    | direct t => exact ⟨t, rfl⟩
    | _ => exact h.elim
  | far =>
    cases o with
    | direct t => exact ⟨t, rfl⟩
    | _ => exact h.elim
  | _ => simp [isCodeAddress] at hf

theorem Encoding.exists_target {table : RegisterTable} {e : Encoding} {os : List Operand}
    (hfirst : e.firstIsAddress) (h : List.Forall₂ (Form.Fits table) e.layout os) :
    ∃ t, os[0]? = some (.direct t) := by
  unfold firstIsAddress at hfirst
  generalize e.layout = layout at hfirst h
  cases h with
  | nil => simp at hfirst
  | @cons f o fs os ho _ =>
    obtain ⟨t, rfl⟩ := Form.exists_eq_direct (by simpa using hfirst) ho
    exact ⟨t, rfl⟩

namespace Instruction

/-- The instruction at its address in `m`, as the definition `d` describes it. -/
structure Matches (p : Processor) (m : ByteSource) (i : Instruction) (d : Definition) : Prop where
  definition : p.definition? i = some d
  consistent : d.Consistent
  opcode : m i.address = some d.opcode
  size : i.size.toNat = d.encoding.size
  operands : List.Forall₂ (Form.Fits p.registers) d.encoding.layout i.operands

namespace Matches

variable {p : Processor} {m : ByteSource} {i : Instruction} {d : Definition}

theorem length_operands (h : i.Matches p m d) : i.operands.length = d.arity := by
  rw [h.consistent.arity]
  exact h.operands.length_eq.symm

theorem mem_table (h : i.Matches p m d) : d ∈ p.table :=
  List.mem_of_getElem? h.definition

theorem contains (h : i.Matches p m d) :
    ∀ o ∈ i.operands, ∀ reg ∈ o.registers, p.registers.contains reg := by
  have hfits := h.operands
  generalize d.encoding.layout = fs at hfits
  generalize i.operands = os at hfits
  induction hfits with
  | nil => simp
  | cons ho _ ih => exact List.forall_mem_cons.mpr ⟨ho.contains, ih⟩

theorem line_eq (h : i.Matches p m d) (names : Names) :
    p.line names i = (p.renderer names).instruction d i := by
  have hd : p.table[i.definition]? = some d := h.definition
  simp [Processor.line, InstructionTable.line, hd]

theorem toNat_next (h : i.Matches p m d) :
    i.next.toNat = (i.address.toNat + d.encoding.size) % UInt32.size := by
  rw [Instruction.next, UInt32.toNat_add, UInt8.toNat_toUInt32, h.size]

theorem edges_eq (h : i.Matches p m d) : p.edges i = d.edges i := by
  have hd : p.table[i.definition]? = some d := h.definition
  simp [Processor.edges, InstructionTable.edges, hd]

/-- A jump has its target in the first operand, so its edge to there is never missing. -/
theorem exists_target (h : i.Matches p m d) (hjump : d.isJump) :
    ∃ t, i.operands[0]? = some (.direct t) ∧
      p.edges i = ⟨i.address, t, .jump⟩ ::
        if d.isUncond then [] else [⟨i.address, i.next, .flow⟩] := by
  obtain ⟨t, ht⟩ := Encoding.exists_target (h.consistent.target hjump) h.operands
  have htarget : i.target? = some t := by simp [Instruction.target?, ht, Operand.target?]
  refine ⟨t, ht, ?_⟩
  rw [h.edges_eq]
  simp [Definition.edges, hjump, htarget]

theorem edges_of_not_isJump (h : i.Matches p m d) (hjump : ¬ d.isJump) :
    p.edges i = if d.isStop then [] else [⟨i.address, i.next, .flow⟩] := by
  rw [h.edges_eq]
  simp [Definition.edges, hjump]

end Matches

end Instruction

theorem Processor.wellFormed (p : Processor) : p.table.WellFormed :=
  InstructionTable.validate_eq_ok_iff_wellFormed.mp p.valid

/-- A table has each definition once. -/
theorem Instruction.Matches.definition_eq {p : Processor} {m m' : ByteSource} {i i' : Instruction}
    {d : Definition} (h : i.Matches p m d) (h' : i'.Matches p m' d) :
    i.definition = i'.definition := by
  have hd : p.table[i.definition]? = some d := h.definition
  have hd' : p.table[i'.definition]? = some d := h'.definition
  obtain ⟨hlt, _⟩ := List.getElem?_eq_some_iff.mp hd
  exact (List.getElem?_inj hlt p.wellFormed.nodup).mp (hd.trans hd'.symm)

theorem Processor.exists_matches {p : Processor} {m : ByteSource} {a : Address} {i : Instruction}
    (h : p.decode m a = .ok i) : i.address = a ∧ ∃ d, i.Matches p m d := by
  obtain ⟨opcode, n, d, hm, hresolve, has⟩ := InstructionTable.decode_eq_ok_iff.mp h
  obtain ⟨_, os, hos, rfl⟩ := InstructionTable.decodeAs_eq_ok_iff.mp has
  obtain ⟨hd, hmem, rfl⟩ := p.wellFormed.of_resolve? hresolve
  have hmax : d.encoding.size ≤ 11 := d.encoding.size_le_maxSize
  have hsize : (UInt8.ofNat d.encoding.size).toNat = d.encoding.size := by
    rw [UInt8.toNat_ofNat']
    omega
  exact ⟨rfl, d, hd, p.wellFormed.consistent d hmem, hm, hsize, Encoding.fits_of_decode hos⟩

/-- All operands are rendered, the first behind a blank and the second behind a comma. -/
theorem Renderer.instruction_eq (r : Renderer) {d : Definition} {i : Instruction}
    (h : i.operands.length = d.arity) :
    r.instruction d i = ⟨.mnemonic, d.mnemonic⟩ ::
      (i.operands.mapIdx fun n o =>
        ⟨.punct, if n = 0 then " " else ", "⟩ :: r.operand o).flatten := by
  unfold Definition.arity Feature.arity at h
  unfold instruction
  by_cases hfirst : d.feature.contains .use1
  · by_cases hsecond : d.feature.contains .use2
    · rw [if_pos hfirst, if_pos hsecond, List.length_eq_two] at h
      obtain ⟨o, o', hos⟩ := h
      simp [hfirst, hsecond, hos, slot]
    · rw [if_pos hfirst, if_neg hsecond, List.length_eq_one_iff] at h
      obtain ⟨o, hos⟩ := h
      simp [hfirst, hsecond, hos, slot]
  · rw [if_neg hfirst, List.length_eq_zero_iff] at h
    simp [hfirst, h]

namespace Processor

/-- What a validated table decodes, follows and renders is of one piece: the definition of a
decoded instruction has its opcode, its size and its operands; a jump leads to its first operand
and, unless it is one of those that never fall through, on; and the line shows each operand. -/
theorem decode_agrees {p : Processor} {m : ByteSource} {a : Address} {i : Instruction}
    (h : p.decode m a = .ok i) :
    i.address = a ∧ ∃ d, p.definition? i = some d ∧ m i.address = some d.opcode ∧
      i.size.toNat = d.encoding.size ∧
      i.operands.length = d.arity ∧ d.arity = d.encoding.operandCount ∧
      i.next.toNat = (i.address.toNat + d.encoding.size) % UInt32.size ∧
      (d.isJump → (d.isUncond ↔ d.mnemonic ∈ Definition.uncondMnemonics) ∧
        ∃ t, i.operands[0]? = some (.direct t) ∧
          p.edges i = ⟨i.address, t, .jump⟩ ::
            if d.isUncond then [] else [⟨i.address, i.next, .flow⟩]) ∧
      (¬ d.isJump → p.edges i = if d.isStop then [] else [⟨i.address, i.next, .flow⟩]) ∧
      (∀ e ∈ p.edges i, e.source = i.address) ∧
      (∀ names, p.line names i = ⟨.mnemonic, d.mnemonic⟩ ::
        (i.operands.mapIdx fun n o =>
          ⟨.punct, if n = 0 then " " else ", "⟩ :: p.operandLine names o).flatten) := by
  obtain ⟨haddress, d, hd⟩ := exists_matches h
  have huncond (hjump : d.isJump) : d.isUncond ↔ d.mnemonic ∈ Definition.uncondMnemonics := by
    rw [hd.consistent.uncond hjump, Definition.isUncondMnemonic, List.contains_iff_mem]
  refine ⟨haddress, d, hd.definition, hd.opcode, hd.size, hd.length_operands, hd.consistent.arity,
    hd.toNat_next, ?_, hd.edges_of_not_isJump, ?_, ?_⟩
  · intro hjump
    exact ⟨huncond hjump, hd.exists_target hjump⟩
  · intro e he
    exact source_of_mem_edges he
  · intro names
    have hline : p.line names i = (p.renderer names).instruction d i := by
      have hdef : p.table[i.definition]? = some d := hd.definition
      simp [line, InstructionTable.line, hdef]
    rw [hline]
    exact (p.renderer names).instruction_eq hd.length_operands

/-- A branch whose bytes run over the end of the address space. -/
theorem decode_agrees_wrapping_branch :
    let p := Processor.standard {}
    let m : ByteSource := fun a =>
      if a = 0xfffffffe then some 0x41 else if a = 0xffffffff then some 0x34
      else if a = 0 then some 0x12 else none
    let i : Instruction := ⟨0xfffffffe, 30, 3, [.direct 0x1234]⟩
    p.decode m 0xfffffffe = .ok i ∧
      p.edges i = [⟨0xfffffffe, 0x1234, .jump⟩, ⟨0xfffffffe, 1, .flow⟩] ∧
      p.line (fun _ => none) i = [⟨.mnemonic, "jz"⟩, ⟨.punct, " "⟩, ⟨.error, "1234"⟩] := by
  intro p m i
  have hnext : i.next = 1 := by decide +revert
  have hd : p.decode m 0xfffffffe = .ok i := by rfl
  obtain ⟨_, d, hdef, _, _, _, _, _, hjump, _, _, hline⟩ := decode_agrees hd
  have hjz : d = ⟨0x41, "jz", .branch, .near16⟩ := (Option.some.inj hdef).symm
  subst hjz
  obtain ⟨_, t, ht, hedges⟩ := hjump (by decide)
  cases ht
  rw [if_neg (by decide), hnext] at hedges
  exact ⟨hd, hedges, hline _⟩

end Processor

end Disassembly
