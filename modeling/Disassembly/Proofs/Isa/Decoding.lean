import Disassembly.Proofs.Memory.Mapping
import Disassembly.Processor

namespace Disassembly

namespace InstructionTable

variable {table : InstructionTable} {registers : RegisterTable} {m : ByteSource} {a : Address}
  {i : Instruction}

theorem decodeAs_eq_ok_iff {n : Nat} {d : Definition} :
    decodeAs registers m a n d = .ok i ↔
      (m.take a d.encoding.size).length = d.encoding.size ∧
      ∃ operands, d.encoding.decode registers (m.take a d.encoding.size) = .ok operands ∧
        i = ⟨a, n, UInt8.ofNat d.encoding.size, operands⟩ := by
  have hle := m.length_take_le a d.encoding.size
  unfold decodeAs
  simp only
  split
  · next hshort =>
    constructor
    · intro h
      cases h
    · intro h
      omega
  · next hfull =>
    have hlength : (m.take a d.encoding.size).length = d.encoding.size := by omega
    cases hd : d.encoding.decode registers (m.take a d.encoding.size) with
    | error e => simp
    | ok operands => simp [hlength, eq_comm]

/-- What a decoded instruction is made of. -/
theorem decode_eq_ok_iff :
    table.decode registers m a = .ok i ↔
      ∃ opcode n d, m a = some opcode ∧ table.resolve? opcode = some (n, d) ∧
        decodeAs registers m a n d = .ok i := by
  unfold decode
  cases hm : m a with
  | none => simp
  | some opcode =>
    cases hr : table.resolve? opcode with
    | none => simp [hr]
    | some entry =>
      obtain ⟨n, d⟩ := entry
      simp only [hr]
      constructor
      · intro h
        exact ⟨opcode, n, d, rfl, hr, h⟩
      · intro h
        obtain ⟨_, n', d', hopcode, hentry, h⟩ := h
        cases hopcode
        rw [hr] at hentry
        cases hentry
        exact h

theorem decodeAs_ne_unmapped {n : Nat} {d : Definition} {b : Address} :
    decodeAs registers m a n d ≠ .error (.unmapped b) := by
  intro h
  unfold decodeAs at h
  simp only at h
  split at h
  · cases h
  · cases hd : d.encoding.decode registers (m.take a d.encoding.size) with
    | error e => cases e <;> simp [hd, DecodeError.ofField] at h
    | ok operands => simp [hd] at h

/-- How many bytes from `a` on decide what is decoded there. -/
def span (table : InstructionTable) (m : ByteSource) (a : Address) : Nat :=
  match (m a).bind table.resolve? with
  | none => 1
  | some (_, d) => d.encoding.size

theorem span_of_resolve? {opcode : UInt8} {n : Nat} {d : Definition} (hopcode : m a = some opcode)
    (hresolve : table.resolve? opcode = some (n, d)) : table.span m a = d.encoding.size := by
  simp [span, hopcode, hresolve]

theorem span_bounds (table : InstructionTable) (m : ByteSource) (a : Address) :
    0 < table.span m a ∧ table.span m a ≤ Encoding.maxSize := by
  unfold span
  split
  · decide
  · next n d _ => exact ⟨d.encoding.size_pos, d.encoding.size_le_maxSize⟩

theorem decode_congr {m' : ByteSource}
    (h : ∀ k < table.span m a, k ≤ (m.take a (table.span m a)).length →
      m' (a + UInt32.ofNat k) = m (a + UInt32.ofNat k)) :
    table.decode registers m' a = table.decode registers m a := by
  have hfirst : m' a = m a := by simpa using h 0 (span_bounds table m a).1 (Nat.zero_le _)
  have htake := ByteSource.take_congr h
  unfold decode
  rw [hfirst]
  cases hm : m a with
  | none => rfl
  | some opcode =>
    cases hr : table.resolve? opcode with
    | none => simp [hr]
    | some entry =>
      obtain ⟨n, d⟩ := entry
      rw [span_of_resolve? hm hr] at htake
      simp [hr, decodeAs, htake]

/-- Only where there is no byte is the address reported as unmapped. -/
theorem decode_eq_unmapped_iff {b : Address} :
    table.decode registers m a = .error (.unmapped b) ↔ m a = none ∧ b = a := by
  unfold decode
  cases hm : m a with
  | none => simp [eq_comm]
  | some opcode =>
    cases hr : table.resolve? opcode with
    | none => simp [hr]
    | some entry => simp [hr, decodeAs_ne_unmapped]

theorem address_of_decode (h : table.decode registers m a = .ok i) : i.address = a := by
  obtain ⟨_, n, d, _, _, has⟩ := decode_eq_ok_iff.mp h
  obtain ⟨_, operands, _, rfl⟩ := decodeAs_eq_ok_iff.mp has
  rfl

theorem size_of_decodeAs {n : Nat} {d : Definition} (h : decodeAs registers m a n d = .ok i) :
    i.size.toNat = d.encoding.size := by
  obtain ⟨_, operands, _, rfl⟩ := decodeAs_eq_ok_iff.mp h
  have hmax : d.encoding.size ≤ 11 := d.encoding.size_le_maxSize
  rw [UInt8.toNat_ofNat']
  omega

theorem span_of_decode (h : table.decode registers m a = .ok i) :
    table.span m a = i.size.toNat := by
  obtain ⟨_, n, d, hopcode, hresolve, has⟩ := decode_eq_ok_iff.mp h
  rw [span_of_resolve? hopcode hresolve, size_of_decodeAs has]

/-- No byte of a decoded instruction is missing. -/
theorem isSome_of_decode (h : table.decode registers m a = .ok i) {k : Nat}
    (hk : k < i.size.toNat) : (m (a + UInt32.ofNat k)).isSome := by
  obtain ⟨_, n, d, _, _, has⟩ := decode_eq_ok_iff.mp h
  apply m.isSome_of_lt_length_take a d.encoding.size
  rw [(decodeAs_eq_ok_iff.mp has).1, ← size_of_decodeAs has]
  exact hk

theorem isMapped_of_decode {img : Image} (h : table.decode registers img.read a = .ok i) :
    img.isMapped a := by
  obtain ⟨opcode, _, _, hread, _, _⟩ := decode_eq_ok_iff.mp h
  rw [← Image.isSome_read, hread]
  rfl

/-- An instruction of an image ends below the end of the address space. -/
theorem toNat_next_of_decode {img : Image} (h : table.decode registers img.read a = .ok i) :
    i.next.toNat = a.toNat + i.size.toNat ∧ 0 < i.size.toNat := by
  obtain ⟨_, n, d, _, _, has⟩ := decode_eq_ok_iff.mp h
  have hsize := size_of_decodeAs has
  obtain ⟨hlength, operands, _, rfl⟩ := decodeAs_eq_ok_iff.mp has
  have hpos := d.encoding.size_pos
  have hfit := img.add_length_take_lt a d.encoding.size
  have hnext : a.toNat + d.encoding.size < 2 ^ 32 := by
    rw [hlength] at hfit
    exact hfit
  simp only at hsize
  constructor
  · simp only [Instruction.next, UInt32.toNat_add, UInt8.toNat_toUInt32, hsize]
    exact Nat.mod_eq_of_lt hnext
  · rw [hsize]
    exact hpos

theorem lt_next_of_decode {img : Image} (h : table.decode registers img.read a = .ok i) :
    a < i.next := by
  obtain ⟨hnext, hpos⟩ := toNat_next_of_decode h
  rw [UInt32.lt_iff_toNat_lt]
  omega

end InstructionTable

namespace Definition

/-- The jump to the target comes with jumps only, the way on with all that may fall through. -/
theorem mem_edges_iff {d : Definition} {i : Instruction} {e : Edge} :
    e ∈ d.edges i ↔
      (d.isJump ∧ ∃ t, i.target? = some t ∧ e = ⟨i.address, t, .jump⟩) ∨
      ((if d.isJump then ¬ d.isUncond else ¬ d.isStop) ∧ e = ⟨i.address, i.next, .flow⟩) := by
  unfold edges
  by_cases hj : d.isJump
  · by_cases hu : d.isUncond <;> cases ht : i.target? <;> simp [hj, hu]
  · by_cases hs : d.isStop <;> simp [hj, hs]

theorem source_of_mem_edges {d : Definition} {i : Instruction} {e : Edge} (h : e ∈ d.edges i) :
    e.source = i.address := by
  rcases mem_edges_iff.mp h with ⟨_, t, _, rfl⟩ | ⟨_, rfl⟩
  · rfl
  · rfl

theorem target_of_flow_mem_edges {d : Definition} {i : Instruction} {e : Edge}
    (h : e ∈ d.edges i) (hk : e.kind = .flow) : e.target = i.next := by
  rcases mem_edges_iff.mp h with ⟨_, t, _, rfl⟩ | ⟨_, rfl⟩
  · cases hk
  · rfl

end Definition

namespace Processor

variable {p : Processor} {i : Instruction} {e : Edge}

theorem mem_edges_iff : e ∈ p.edges i ↔ ∃ d, p.definition? i = some d ∧ e ∈ d.edges i := by
  unfold edges InstructionTable.edges definition?
  cases p.table[i.definition]? <;> simp

theorem source_of_mem_edges (h : e ∈ p.edges i) : e.source = i.address := by
  obtain ⟨d, _, hd⟩ := mem_edges_iff.mp h
  exact Definition.source_of_mem_edges hd

theorem target_of_flow_mem_edges (h : e ∈ p.edges i) (hk : e.kind = .flow) :
    e.target = i.next := by
  obtain ⟨d, _, hd⟩ := mem_edges_iff.mp h
  exact Definition.target_of_flow_mem_edges hd hk

end Processor

end Disassembly
