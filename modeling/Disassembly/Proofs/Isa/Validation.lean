import Disassembly.Isa.Definition
import Mathlib.Data.Fintype.Card

namespace Disassembly

namespace TakenOpcodes

variable {opcode : UInt8}

theorem mnemonic?_eq_getElem (x : TakenOpcodes) (opcode : UInt8)
    (h : opcode.toNat < UInt8.size) : x.mnemonic? opcode = x.slots[opcode.toNat] := rfl

theorem mnemonic?_empty (opcode : UInt8) : empty.mnemonic? opcode = none := by
  rw [mnemonic?_eq_getElem empty opcode opcode.toNat_lt, empty, Vector.getElem_replicate]

/-- A definition takes its own slot and leaves the others as they are. -/
theorem mnemonic?_add (x : TakenOpcodes) (d : Definition) (opcode : UInt8) :
    (x.add d).mnemonic? opcode =
      if d.opcode = opcode then some d.mnemonic else x.mnemonic? opcode := by
  rw [add, mnemonic?_eq_getElem _ opcode opcode.toNat_lt, Vector.getElem_set,
    ← mnemonic?_eq_getElem]
  simp only [UInt8.toNat_inj]

theorem mnemonic?_add_eq_none_iff {x : TakenOpcodes} {d : Definition} :
    (x.add d).mnemonic? opcode = none ↔ d.opcode ≠ opcode ∧ x.mnemonic? opcode = none := by
  rw [mnemonic?_add]
  split <;> simp_all

end TakenOpcodes

namespace Definition

/-- What validation asks of a definition by itself. -/
structure Consistent (d : Definition) : Prop where
  arity : d.arity = d.encoding.operandCount
  target : d.isJump → d.encoding.firstIsAddress
  uncond : d.isJump → (d.isUncond ↔ d.isUncondMnemonic)

theorem fault?_eq_none_iff {taken : TakenOpcodes} {d : Definition} :
    d.fault? taken = none ↔ taken.mnemonic? d.opcode = none ∧ d.Consistent := by
  unfold fault?
  cases hslot : taken.mnemonic? d.opcode with
  | some first => simp
  | none =>
    rw [and_iff_right rfl]
    by_cases ha : d.arity = d.encoding.operandCount
    · cases hj : d.isJump with
      | false =>
        have hd : d.Consistent := ⟨ha, by simp [hj], by simp [hj]⟩
        simp [ha, hd]
      | true =>
        cases ht : d.encoding.firstIsAddress with
        | false =>
          have hd : ¬ d.Consistent := by
            intro h
            simpa [ht] using h.target hj
          simp [ha, hd]
        | true =>
          have hd : d.Consistent ↔ d.isUncondMnemonic = d.isUncond := by
            constructor
            · intro h
              exact Bool.eq_iff_iff.mpr (h.uncond hj).symm
            · intro h
              exact ⟨ha, fun _ => ht, fun _ => by rw [h]⟩
          simp [ha, hd]
    · have hd : ¬ d.Consistent := fun h => ha h.arity
      simp [ha, hd]

end Definition

namespace InstructionTable

/-- No two definitions share an opcode, and each is consistent. -/
structure WellFormed (table : InstructionTable) : Prop where
  distinct : table.Pairwise (fun c d => c.opcode ≠ d.opcode)
  consistent : ∀ d ∈ table, d.Consistent

theorem firstFault?_eq_none_iff {taken : TakenOpcodes} {table : InstructionTable} :
    firstFault? taken table = none ↔
      (∀ d ∈ table, taken.mnemonic? d.opcode = none) ∧ table.WellFormed := by
  -- Each definition is checked against all before it, so `taken` grows along the table.
  induction table generalizing taken with
  | nil =>
    have h : WellFormed [] := ⟨.nil, by simp⟩
    simp [firstFault?, h]
  | cons d table ih =>
    rw [firstFault?, Option.or_eq_none_iff, Definition.fault?_eq_none_iff, ih]
    simp only [TakenOpcodes.mnemonic?_add_eq_none_iff, List.forall_mem_cons]
    constructor
    · intro h
      obtain ⟨⟨hfree, hd⟩, hrest, htable⟩ := h
      refine ⟨⟨hfree, fun e he => (hrest e he).2⟩, ?_, List.forall_mem_cons.mpr ?_⟩
      · exact List.pairwise_cons.mpr ⟨fun e he => (hrest e he).1, htable.distinct⟩
      · exact ⟨hd, htable.consistent⟩
    · intro h
      obtain ⟨⟨hfree, hrest⟩, hdistinct, hconsistent⟩ := h
      obtain ⟨hfirst, hdistinct⟩ := List.pairwise_cons.mp hdistinct
      obtain ⟨hd, hconsistent⟩ := List.forall_mem_cons.mp hconsistent
      exact ⟨⟨hfree, hd⟩, fun e he => ⟨hfirst e he, hrest e he⟩, hdistinct, hconsistent⟩

/-- Validation accepts exactly the well-formed tables. -/
theorem validate_eq_ok_iff_wellFormed {table : InstructionTable} :
    table.validate = .ok () ↔ table.WellFormed := by
  rw [validate_eq_ok_iff, firstFault?_eq_none_iff]
  simp [TakenOpcodes.mnemonic?_empty]

namespace WellFormed

variable {table : InstructionTable} {opcode : UInt8} {n : Nat} {d : Definition}

/-- There are no more definitions than opcodes. -/
theorem nodup (h : table.WellFormed) : table.Nodup := by
  refine h.distinct.imp ?_
  rintro c d hcd rfl
  exact hcd rfl

theorem length_le (h : table.WellFormed) : table.length ≤ 256 := by
  have hnodup : (table.map fun d => d.opcode.toFin).Nodup := by
    rw [List.Nodup, List.pairwise_map]
    refine h.distinct.imp ?_
    intro c d hcd heq
    exact hcd (UInt8.toFin_inj.mp heq)
  have hcard := hnodup.length_le_card
  rwa [List.length_map, Fintype.card_fin] at hcard

/-- So sixteen bits hold every position. -/
theorem lookup?_eq_findIdx? (h : table.WellFormed) (opcode : UInt8) :
    table.lookup? opcode = table.findIdx? (·.opcode == opcode) := by
  unfold lookup?
  cases hi : table.findIdx? (·.opcode == opcode) with
  | none => rfl
  | some i =>
    have hlt : i < table.length := (List.findIdx?_eq_some_iff_getElem.mp hi).1
    have hlength := h.length_le
    have hsmall : i % UInt16.size = i := Nat.mod_eq_of_lt (by
      have : UInt16.size = 65536 := rfl
      omega)
    simp [hsmall]

theorem of_resolve? (h : table.WellFormed) (hr : table.resolve? opcode = some (n, d)) :
    table[n]? = some d ∧ d ∈ table ∧ d.opcode = opcode := by
  simp only [resolve?, Option.bind_eq_bind, Option.bind_eq_some_iff, Option.pure_def,
    Option.some.injEq, Prod.mk.injEq] at hr
  obtain ⟨i, hi, c, hc, rfl, rfl⟩ := hr
  rw [h.lookup?_eq_findIdx?] at hi
  obtain ⟨hlt, hopcode, _⟩ := List.findIdx?_eq_some_iff_getElem.mp hi
  have hget : table[i] = c := by
    rw [List.getElem?_eq_getElem hlt] at hc
    exact Option.some.inj hc
  rw [hget, beq_iff_eq] at hopcode
  exact ⟨hc, List.mem_of_getElem? hc, hopcode⟩

end WellFormed

end InstructionTable

end Disassembly
