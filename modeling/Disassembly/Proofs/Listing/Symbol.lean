import Disassembly.Proofs.Flow.Label
import Disassembly.Proofs.Flow.RoutineBlock
import Disassembly.Proofs.Isa.Agreement

namespace Disassembly

theorem Encoding.operandCount_of_firstIsAddress {e : Encoding} (h : e.firstIsAddress) :
    e.operandCount = 1 := by
  rw [operandCount_eq]
  rcases firstIsAddress_iff.mp h with rfl | rfl <;> rfl

/-- The three tokens of a jump: it has its target and nothing else as an operand. -/
theorem Instruction.Matches.exists_line_eq {p : Processor} {m : ByteSource} {i : Instruction}
    {d : Definition} (h : i.Matches p m d) (hjump : d.isJump) :
    ∃ t, i.operands = [.direct t] ∧ ⟨i.address, t, .jump⟩ ∈ p.edges i ∧
      ∀ names, p.line names i =
        [⟨.mnemonic, d.mnemonic⟩, ⟨.punct, " "⟩, (p.renderer names).address t] := by
  obtain ⟨t, hfirst, hedges⟩ := h.exists_target hjump
  have hlength : i.operands.length = 1 := by
    rw [h.length_operands, h.consistent.arity]
    exact Encoding.operandCount_of_firstIsAddress (h.consistent.target hjump)
  obtain ⟨o, ho⟩ := List.length_eq_one_iff.mp hlength
  have hoperands : i.operands = [.direct t] := by
    rw [ho] at hfirst ⊢
    simpa using hfirst
  refine ⟨t, hoperands, hedges ▸ List.mem_cons_self, ?_⟩
  intro names
  rw [h.line_eq, Renderer.instruction_eq _ h.length_operands, hoperands]
  rfl

theorem Renderer.address_eq_or (r : Renderer) (a : Address) :
    r.address a = ⟨.error, r.style.number a⟩ ∧ r.names a = none ∨
      ∃ name, r.names a = some name ∧ r.address a = ⟨.symbol, name⟩ := by
  unfold address
  cases hname : r.names a with
  | none => exact .inl ⟨rfl, rfl⟩
  | some name => exact .inr ⟨name, rfl, rfl⟩

namespace Processor

variable {p : Processor} {img : Image} {limit : Nat} {entries : List Address} {known : Labels}
  {a : Address} {e : Edge}

/-- Whatever completes the labels is an entry or has been decoded. -/
theorem known_of_mem_labels (h : a ∈ (p.graph img limit entries).labels known) :
    a ∈ known ∨ a ∈ entries ∨ a ∈ (p.graph img limit entries).found.instructions := by
  rcases Labels.mem_complete_iff.mp h with h | h | h | h
  · exact .inl h
  · rcases Exploration.mem_roots_iff.mp h with h | h
    · exact .inr (.inl h)
    · exact .inr (.inr h.2)
  · obtain ⟨b, hb, rfl⟩ := List.mem_map.mp h
    exact .inr (.inr (Exploration.start_decoded hb))
  · exact .inr (.inr (Labels.mem_jumpTargets_iff.mp h).1)

theorem target_mem_labels_iff (he : e ∈ (p.graph img limit entries).found.edges)
    (hk : e.kind = .jump) :
    e.target ∈ (p.graph img limit entries).labels known ↔
      e.target ∈ known ∨ e.target ∈ entries ∨
        e.target ∈ (p.graph img limit entries).found.instructions := by
  constructor
  · exact known_of_mem_labels
  · intro h
    apply Labels.mem_complete_iff.mpr
    rcases h with h | h | h
    · exact .inl h
    · exact .inr (.inl (Exploration.mem_roots_iff.mpr (.inl h)))
    · exact .inr (.inr (.inr (Labels.mem_jumpTargets_iff.mpr ⟨h, e, he, hk, rfl⟩)))

/-- With the completed labels, a decoded jump is printed as its mnemonic, a blank and its target:
by name if the target had a name before, is an entry or has been decoded, and as an error
otherwise. -/
theorem jump_line_symbol_iff (p : Processor) (img : Image) (limit : Nat) (entries : List Address)
    (known : Labels) {a : Address} {i : Instruction} {d : Definition}
    (hi : (p.graph img limit entries).found.instructions[a]? = some i)
    (hd : p.definition? i = some d) (hjump : d.isJump) :
    let g := p.graph img limit entries
    let labels := g.labels known
    ∃ t token, i.operands = [.direct t] ∧
      p.line labels.names i = [⟨.mnemonic, d.mnemonic⟩, ⟨.punct, " "⟩, token] ∧
      (token = ⟨.error, p.config.style.number t⟩ ∨
        ∃ name, labels[t]? = some name ∧ token = ⟨.symbol, name⟩) ∧
      (token.kind = .symbol ↔ t ∈ known ∨ t ∈ entries ∨ t ∈ g.found.instructions) := by
  intro g labels
  have hx : g.found.Faithful p img := p.explore_faithful img limit entries
  obtain ⟨haddress, d', hmatches⟩ := exists_matches (hx.decodes a i hi)
  obtain rfl : d' = d := Option.some.inj (hmatches.definition.symm.trans hd)
  obtain ⟨t, hoperands, hedge, hline⟩ := hmatches.exists_line_eq hjump
  have hnoted : (⟨i.address, t, .jump⟩ : Edge) ∈ g.found.edges := by
    apply (hx.edges _).mpr
    exact ⟨i, haddress ▸ hi, hedge⟩
  have hlabel : t ∈ labels ↔ t ∈ known ∨ t ∈ entries ∨ t ∈ g.found.instructions :=
    target_mem_labels_iff hnoted rfl
  refine ⟨t, (p.renderer labels.names).address t, hoperands, hline labels.names, ?_⟩
  rw [← hlabel, AddressMap.mem_iff]
  rcases (p.renderer labels.names).address_eq_or t with ⟨htoken, hnone⟩ | ⟨name, hname, htoken⟩
  · have hmissing : labels[t]? = none := hnone
    rw [htoken, hmissing]
    exact ⟨.inl rfl, by simp⟩
  · have hfound : labels[t]? = some name := hname
    rw [htoken, hfound]
    exact ⟨.inr ⟨name, rfl, rfl⟩, by simp⟩

/-- A branch into its own last byte, and a call of an address that is not mapped. -/
theorem jump_line_symbol_iff_into_itself :
    let p := Processor.standard {}
    let img := Image.single 0 #[0x41, 2, 0, 0x47, 0, 0x10, 0, 0, 1]
    let g := p.graph img 100 [0]
    let labels := g.labels ∅
    let branch : Instruction := ⟨0, 30, 3, [.direct 2]⟩
    let call : Instruction := ⟨3, 36, 5, [.direct 0x1000]⟩
    g.found.instructions[(0 : Address)]? = some branch ∧
      g.found.instructions[(3 : Address)]? = some call ∧
      p.line labels.names branch = [⟨.mnemonic, "jz"⟩, ⟨.punct, " "⟩, ⟨.symbol, "loc_00000002"⟩] ∧
      p.line labels.names call = [⟨.mnemonic, "vm_call"⟩, ⟨.punct, " "⟩, ⟨.error, "1000"⟩] := by
  intro p img g labels branch call
  have hbranch : g.found.instructions[(0 : Address)]? = some branch := by decide +kernel
  have hcall : g.found.instructions[(3 : Address)]? = some call := by decide +kernel
  refine ⟨hbranch, hcall, ?_, ?_⟩
  · obtain ⟨t, token, ht, hline, hform, hsymbol⟩ :=
      jump_line_symbol_iff p img 100 [0] ∅ hbranch rfl (by decide)
    cases ht
    have hkind : token.kind = .symbol := hsymbol.mpr (by decide +kernel)
    have hlabel : labels[(2 : Address)]? = some "loc_00000002" := by decide +kernel
    rcases hform with rfl | ⟨name, hname, rfl⟩
    · cases hkind
    · cases hlabel.symm.trans hname
      exact hline
  · obtain ⟨t, token, ht, hline, hform, _⟩ :=
      jump_line_symbol_iff p img 100 [0] ∅ hcall rfl (by decide)
    cases ht
    have hlabel : labels[(0x1000 : Address)]? = none := by decide +kernel
    rcases hform with rfl | ⟨name, hname, rfl⟩
    · exact hline
    · cases hlabel.symm.trans hname

end Processor

end Disassembly
