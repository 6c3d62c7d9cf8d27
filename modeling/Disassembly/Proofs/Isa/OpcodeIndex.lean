import Disassembly.Isa.OpcodeIndex
import Disassembly.Proofs.Isa.Validation
import Mathlib.Order.Bounds.Basic

namespace Disassembly

namespace InstructionTable

/-- Where the definitions of an opcode stand. -/
def positions (table : InstructionTable) (opcode : UInt8) : Set Nat :=
  {i | ∃ d ∈ table[i]?, d.opcode = opcode}

variable {table : InstructionTable} {opcode : UInt8} {i : Nat} {d : Definition}

theorem findIdx?_eq_some_iff_isLeast :
    table.findIdx? (·.opcode == opcode) = some i ↔ IsLeast (table.positions opcode) i := by
  rw [List.findIdx?_eq_some_iff_getElem]
  constructor
  · intro h
    obtain ⟨hlt, hopcode, hbefore⟩ := h
    refine ⟨⟨table[i], List.getElem?_eq_getElem hlt, by simpa using hopcode⟩, ?_⟩
    intro j hj
    obtain ⟨d, hd, hopcode⟩ := hj
    by_contra hji
    obtain ⟨hjlt, rfl⟩ := List.getElem?_eq_some_iff.mp hd
    exact hbefore j (Nat.not_le.mp hji) (by simpa using hopcode)
  · intro h
    obtain ⟨⟨d, hd, hopcode⟩, hleast⟩ := h
    obtain ⟨hlt, rfl⟩ := List.getElem?_eq_some_iff.mp hd
    refine ⟨hlt, by simpa using hopcode, ?_⟩
    intro j hji hj
    have hmem : j ∈ table.positions opcode :=
      ⟨table[j], List.getElem?_eq_getElem (Nat.lt_trans hji hlt), by simpa using hj⟩
    exact absurd (hleast hmem) (Nat.not_le.mpr hji)

theorem findIdx?_eq_none_iff_positions :
    table.findIdx? (·.opcode == opcode) = none ↔ table.positions opcode = ∅ := by
  rw [List.findIdx?_eq_none_iff, Set.eq_empty_iff_forall_notMem]
  constructor
  · intro h i hi
    obtain ⟨d, hd, hopcode⟩ := hi
    have hne := h d (List.mem_of_getElem? hd)
    simp [hopcode] at hne
  · intro h d hd
    obtain ⟨i, hi⟩ := List.getElem?_of_mem hd
    have hne : ¬ d.opcode = opcode := fun hopcode => h i ⟨d, hi, hopcode⟩
    simpa using hne

namespace WellFormed

variable {j : Nat}

theorem eq_of_mem_positions (h : table.WellFormed) (hi : i ∈ table.positions opcode)
    (hj : j ∈ table.positions opcode) : i = j := by
  obtain ⟨c, hc, hopcode⟩ := hi
  obtain ⟨d, hd, rfl⟩ := hj
  obtain ⟨hilt, rfl⟩ := List.getElem?_eq_some_iff.mp hc
  obtain ⟨hjlt, rfl⟩ := List.getElem?_eq_some_iff.mp hd
  have hdistinct := List.pairwise_iff_getElem.mp h.distinct
  rcases Nat.lt_trichotomy i j with hij | hij | hij
  · exact absurd hopcode (hdistinct i j hilt hjlt hij)
  · exact hij
  · exact absurd hopcode.symm (hdistinct j i hjlt hilt hij)

/-- In a well-formed table every position of an opcode is its first. -/
theorem isLeast_iff_mem_positions (h : table.WellFormed) :
    IsLeast (table.positions opcode) i ↔ i ∈ table.positions opcode := by
  constructor
  · intro hi
    exact hi.1
  · intro hi
    exact ⟨hi, fun j hj => (h.eq_of_mem_positions hi hj).le⟩

end WellFormed

end InstructionTable

namespace OpcodeIndex

variable {x : OpcodeIndex} {table : InstructionTable} {opcode : UInt8} {i n : Nat}

theorem slot_eq_getElem (x : OpcodeIndex) (opcode : UInt8) (h : opcode.toNat < UInt8.size) :
    x.slot opcode = x.slots[opcode.toNat] := rfl

theorem slot_empty (opcode : UInt8) : empty.slot opcode = none := by
  rw [slot_eq_getElem empty opcode opcode.toNat_lt, empty, Vector.getElem_replicate]

/-- A free slot is filled, and every other slot stays as it is. -/
theorem slot_add (x : OpcodeIndex) (i : Nat) (opcode other : UInt8) :
    (x.add i opcode).slot other =
      (x.slot other).or (if opcode = other then some (UInt16.ofNat i) else none) := by
  unfold add
  cases hx : x.slot opcode with
  | none =>
    rw [slot_eq_getElem _ other other.toNat_lt, Vector.getElem_set, ← slot_eq_getElem]
    by_cases heq : opcode = other
    · rw [← heq, hx]
      simp
    · have hne : opcode.toNat ≠ other.toNat := fun h => heq (UInt8.toNat_inj.mp h)
      simp [heq, hne]
  | some n =>
    by_cases heq : opcode = other
    · rw [← heq, hx, Option.some_or]
    · simp [heq]

/-- A slot keeps what it has, so the first definition of an opcode decides. -/
theorem slot_addAll (x : OpcodeIndex) (i : Nat) (table : InstructionTable) (opcode : UInt8) :
    (x.addAll i table).slot opcode = (x.slot opcode).or
      ((table.findIdx? (·.opcode == opcode)).map fun j => UInt16.ofNat (i + j)) := by
  induction table generalizing x i with
  | nil => simp [addAll]
  | cons d table ih =>
    rw [addAll, ih, slot_add, Option.or_assoc, List.findIdx?_cons]
    by_cases hd : d.opcode = opcode
    · simp [hd]
    · have hshift (j : Nat) : i + 1 + j = i + (j + 1) := by omega
      simp [hd, hshift, Function.comp_def]

theorem slot_ofTable (table : InstructionTable) (opcode : UInt8) :
    (ofTable table).slot opcode = (table.findIdx? (·.opcode == opcode)).map UInt16.ofNat := by
  simp [ofTable, slot_addAll, slot_empty]

/-- A table is looked up as in its index. -/
theorem lookup?_ofTable (table : InstructionTable) (opcode : UInt8) :
    (ofTable table).lookup? opcode = table.lookup? opcode := by
  rw [lookup?, slot_ofTable, Option.map_map]
  rfl

theorem lookup?_eq_none_iff :
    (ofTable table).lookup? opcode = none ↔ table.positions opcode = ∅ := by
  rw [lookup?_ofTable, InstructionTable.lookup?, Option.map_eq_none_iff,
    InstructionTable.findIdx?_eq_none_iff_positions]

theorem lookup?_eq_some_iff :
    (ofTable table).lookup? opcode = some n ↔
      ∃ i, IsLeast (table.positions opcode) i ∧ i % UInt16.size = n := by
  rw [lookup?_ofTable, InstructionTable.lookup?, Option.map_eq_some_iff]
  simp only [InstructionTable.findIdx?_eq_some_iff_isLeast]

/-- The first definition of an opcode wins, and an opcode without one has no position. Of the
position only what fits sixteen bits is kept, so it is the right one if and only if it fits. -/
theorem lookup?_finds_first_iff (table : InstructionTable) (opcode : UInt8) :
    let x := ofTable table
    (x.lookup? opcode = none ↔ table.positions opcode = ∅) ∧
    (∀ i, IsLeast (table.positions opcode) i → x.lookup? opcode = some (i % UInt16.size)) ∧
    ((∀ i, x.lookup? opcode = some i ↔ IsLeast (table.positions opcode) i) ↔
      ∀ i, IsLeast (table.positions opcode) i → i < UInt16.size) ∧
    table.lookup? opcode = x.lookup? opcode := by
  intro x
  refine ⟨lookup?_eq_none_iff, ?_, ?_, (lookup?_ofTable table opcode).symm⟩
  · intro i hi
    exact lookup?_eq_some_iff.mpr ⟨i, hi, rfl⟩
  · constructor
    · intro h i hi
      obtain ⟨j, hj, hji⟩ := lookup?_eq_some_iff.mp ((h i).mpr hi)
      rw [hj.unique hi] at hji
      rw [← hji]
      exact Nat.mod_lt i (by decide)
    · intro h i
      rw [lookup?_eq_some_iff]
      constructor
      · intro hfound
        obtain ⟨j, hj, rfl⟩ := hfound
        rwa [Nat.mod_eq_of_lt (h j hj)]
      · intro hi
        exact ⟨i, hi, Nat.mod_eq_of_lt (h i hi)⟩

/-- Behind as many definitions of one opcode as there are numbers of sixteen bits stands another
opcode, which is taken for the first. -/
theorem not_isLeast_lookup?_late_opcode :
    let nop : Definition := ⟨0x00, "nop", .empty, .none⟩
    let halt : Definition := ⟨0x01, "halt", .stop, .none⟩
    let table : InstructionTable := List.replicate UInt16.size nop ++ [halt]
    IsLeast (table.positions 0x01) 65536 ∧ (ofTable table).lookup? 0x01 = some 0 ∧
      0 ∉ table.positions 0x01 := by
  intro nop halt table
  have hlate (count : Nat) :
      IsLeast (InstructionTable.positions (List.replicate count nop ++ [halt]) 0x01) count := by
    rw [← InstructionTable.findIdx?_eq_some_iff_isLeast]
    simp [List.findIdx?_append, List.findIdx?_replicate, nop, halt]
  have hfirst : IsLeast (table.positions 0x01) 65536 := hlate UInt16.size
  refine ⟨hfirst, lookup?_eq_some_iff.mpr ⟨65536, hfirst, rfl⟩, ?_⟩
  intro hzero
  exact absurd (hfirst.2 hzero) (by decide)

/-- The table is valid, and the index is its index. -/
theorem ofValid_eq_ok_iff :
    ofValid table = .ok x ↔ table.validate = .ok () ∧ ofTable table = x := by
  unfold ofValid
  cases table.validate with
  | error e => simp [bind, Except.bind]
  | ok _ => simp [bind, Except.bind, pure, Except.pure]

/-- No two definitions compete for a slot, and none of their positions is too large for it. -/
theorem lookup?_eq_some_iff_of_wellFormed (h : table.WellFormed) :
    (ofTable table).lookup? opcode = some i ↔ i ∈ table.positions opcode := by
  rw [lookup?_ofTable, h.lookup?_eq_findIdx?, InstructionTable.findIdx?_eq_some_iff_isLeast,
    h.isLeast_iff_mem_positions]

/-- In a valid table opcodes and definitions belong together one to one: the opcode of a
definition is found at that definition, and what is found for an opcode is a definition of it.
There are no more definitions than opcodes, so every slot holds a position as it is. -/
theorem ofValid_inverts_table (h : ofValid table = .ok x) :
    table.length ≤ 256 ∧
    (∀ i d, table[i]? = some d →
      x.lookup? d.opcode = some i ∧ ∃ n : UInt16, x.slot d.opcode = some n ∧ n.toNat = i) ∧
    (∀ opcode i, x.lookup? opcode = some i → ∃ d, table[i]? = some d ∧ d.opcode = opcode) ∧
    ∀ opcode, table.lookup? opcode = x.lookup? opcode := by
  obtain ⟨hvalid, rfl⟩ := ofValid_eq_ok_iff.mp h
  have hwell := InstructionTable.validate_eq_ok_iff_wellFormed.mp hvalid
  refine ⟨hwell.length_le, ?_, ?_, fun opcode => (lookup?_ofTable table opcode).symm⟩
  · intro i d hd
    have hfound : (ofTable table).lookup? d.opcode = some i :=
      (lookup?_eq_some_iff_of_wellFormed hwell).mpr ⟨d, hd, rfl⟩
    exact ⟨hfound, Option.map_eq_some_iff.mp hfound⟩
  · intro opcode i hi
    exact (lookup?_eq_some_iff_of_wellFormed hwell).mp hi

/-- The instruction set of the machine, with its last definition. -/
theorem ofValid_inverts_table_standard :
    let x := ofTable .standard
    ofValid .standard = .ok x ∧
      InstructionTable.standard[38]? = some ⟨0x51, "vm_exit", .stop, .none⟩ ∧
      x.lookup? 0x51 = some 38 ∧ x.slot 0x51 = some 38 := by
  intro x
  have hvalid : ofValid .standard = .ok x :=
    ofValid_eq_ok_iff.mpr ⟨InstructionTable.validate_standard, rfl⟩
  have hlast : InstructionTable.standard[38]? = some ⟨0x51, "vm_exit", .stop, .none⟩ := rfl
  obtain ⟨_, hdefinition, _⟩ := ofValid_inverts_table hvalid
  obtain ⟨hfound, n, hslot, hn⟩ := hdefinition 38 _ hlast
  have hn38 : n = 38 := UInt16.toNat_inj.mp hn
  exact ⟨hvalid, hlast, hfound, hn38 ▸ hslot⟩

end OpcodeIndex

end Disassembly
