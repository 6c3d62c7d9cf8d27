import Disassembly.Proofs.Isa.Codec
import Disassembly.Proofs.Isa.Decoding
import Disassembly.Proofs.Isa.Validation

namespace Disassembly

namespace ByteSource

/-- From `a` on there are `k` mapped bytes before the first gap, counted up to `count`. -/
structure Leads (m : ByteSource) (a : Address) (count k : Nat) : Prop where
  le : k ≤ count
  mapped : ∀ j < k, (m (a + UInt32.ofNat j)).isSome
  gap : k < count → m (a + UInt32.ofNat k) = none

variable {m : ByteSource} {a : Address} {count : Nat}

theorem Leads.unique {k l : Nat} (hk : m.Leads a count k) (hl : m.Leads a count l) : k = l := by
  have hle {k l : Nat} (hk : m.Leads a count k) (hl : m.Leads a count l) : k ≤ l := by
    by_contra hlt
    have hmapped := hk.mapped l (by omega)
    rw [hl.gap (by have := hk.le; omega)] at hmapped
    cases hmapped
  exact Nat.le_antisymm (hle hk hl) (hle hl hk)

theorem eq_none_of_length_take_lt (h : (m.take a count).length < count) :
    m (a + UInt32.ofNat (m.take a count).length) = none := by
  induction count generalizing a with
  | zero => simp at h
  | succ count ih =>
    cases hm : m a with
    | none => simp [take, hm]
    | some b =>
      have htake : m.take a (count + 1) = b :: m.take (a + 1) count := by simp [take, hm]
      rw [htake, List.length_cons] at h ⊢
      rw [add_ofNat_succ]
      exact ih (by omega)

theorem leads_length_take (m : ByteSource) (a : Address) (count : Nat) :
    m.Leads a count (m.take a count).length where
  le := m.length_take_le a count
  mapped := m.isSome_of_lt_length_take a count
  gap := eq_none_of_length_take_lt

theorem getElem?_take {j : Nat} (h : j < (m.take a count).length) :
    m (a + UInt32.ofNat j) = (m.take a count)[j]? := by
  induction count generalizing a j with
  | zero => simp [take] at h
  | succ count ih =>
    cases hm : m a with
    | none => simp [take, hm] at h
    | some b =>
      have htake : m.take a (count + 1) = b :: m.take (a + 1) count := by simp [take, hm]
      rw [htake] at h ⊢
      cases j with
      | zero => simp [hm]
      | succ j =>
        rw [add_ofNat_succ, List.getElem?_cons_succ]
        exact ih (by simpa using h)

theorem length_take_pos (hmapped : (m a).isSome) (hcount : 0 < count) :
    0 < (m.take a count).length := by
  obtain ⟨b, hb⟩ := Option.isSome_iff_exists.mp hmapped
  obtain ⟨count, rfl⟩ := Nat.exists_eq_succ_of_ne_zero hcount.ne'
  simp [take, hb]

end ByteSource

namespace DecodeError

variable {a : Address} {d : Definition} {s : Slot} {b c : UInt8}

theorem address_ofField (a : Address) (d : Definition) (e : FieldError) :
    (ofField a d e).address = a := by
  cases e <;> rfl

theorem ofField_fault_eq_badRegister_iff :
    ofField a d (s.fault b) = .badRegister a c ↔ s ≠ .width ∧ b = c := by
  cases s <;> simp [Slot.fault, ofField]

theorem ofField_fault_eq_badWidth_iff :
    ofField a d (s.fault b) = .badWidth a c ↔ s = .width ∧ b = c := by
  cases s <;> simp [Slot.fault, ofField]

theorem isData_iff {e : DecodeError} : e.isData ↔ ∀ b, e ≠ .unmapped b := by
  cases e <;> simp [isData]

end DecodeError

namespace Encoding

variable {e : Encoding} {registers : RegisterTable} {bytes : List UInt8}

theorem length_slots_of_whole (hsize : bytes.length = e.size) :
    (bytes.drop 1).length = e.slots.length := by
  have := e.length_slots
  rw [List.length_drop]
  omega

theorem decode_eq_error_iff_firstRefused (hsize : bytes.length = e.size) {err : FieldError} :
    e.decode registers bytes = .error err ↔
      ∃ s b, Slot.FirstRefused registers e.slots (bytes.drop 1) s b ∧ err = s.fault b := by
  rw [decode_eq_error_iff_failure?, Slot.failure?_eq_some_iff (length_slots_of_whole hsize)]

theorem exists_decode_eq_ok_iff_accepts (hsize : bytes.length = e.size) :
    (∃ os, e.decode registers bytes = .ok os) ↔
      ∀ q ∈ e.slots.zip (bytes.drop 1), q.1.Accepts registers q.2 := by
  rw [exists_decode_eq_ok_iff, Slot.failure?_eq_none_iff (length_slots_of_whole hsize)]

end Encoding

namespace InstructionTable

variable {table : InstructionTable} {registers : RegisterTable} {m : ByteSource} {a : Address}
  {c d : Definition} {opcode : UInt8} {n : Nat} {e : DecodeError}

namespace WellFormed

theorem eq_of_opcode_eq (h : table.WellFormed) (hc : c ∈ table) (hd : d ∈ table)
    (hopcode : c.opcode = d.opcode) : c = d := by
  have hnodup : (table.map Definition.opcode).Nodup := List.pairwise_map.mpr h.distinct
  exact List.inj_on_of_nodup_map hnodup hc hd hopcode

theorem exists_resolve? (h : table.WellFormed) (hd : d ∈ table) :
    ∃ n, table.resolve? d.opcode = some (n, d) := by
  obtain ⟨i, hi⟩ : ∃ i, table.findIdx? (·.opcode == d.opcode) = some i := by
    apply Option.isSome_iff_exists.mp
    rw [List.findIdx?_isSome]
    exact List.any_eq_true.mpr ⟨d, hd, beq_self_eq_true d.opcode⟩
  obtain ⟨hlt, hopcode, _⟩ := List.findIdx?_eq_some_iff_getElem.mp hi
  have hget : table[i] = d :=
    h.eq_of_opcode_eq (List.getElem_mem hlt) hd (by simpa using hopcode)
  refine ⟨i, ?_⟩
  simp [resolve?, h.lookup?_eq_findIdx?, hi, List.getElem?_eq_getElem hlt, hget]

theorem resolve?_eq_none_iff (h : table.WellFormed) :
    table.resolve? opcode = none ↔ ∀ d ∈ table, d.opcode ≠ opcode := by
  constructor
  · intro hnone d hd hopcode
    obtain ⟨n, hn⟩ := h.exists_resolve? hd
    rw [hopcode, hnone] at hn
    cases hn
  · intro hfresh
    cases hr : table.resolve? opcode with
    | none => rfl
    | some entry =>
      obtain ⟨n, d⟩ := entry
      obtain ⟨_, hd, hopcode⟩ := h.of_resolve? hr
      exact absurd hopcode (hfresh d hd)

end WellFormed

/-- An instruction with missing bytes is reported as such, whatever its fields hold. A whole one is
refused for its first bad field. -/
theorem decodeAs_eq_error_iff :
    decodeAs registers m a n d = .error e ↔
      ((m.take a d.encoding.size).length < d.encoding.size ∧
        e = .truncated a d.mnemonic d.encoding.size (m.take a d.encoding.size).length) ∨
      ((m.take a d.encoding.size).length = d.encoding.size ∧
        ∃ s b, Slot.FirstRefused registers d.encoding.slots ((m.take a d.encoding.size).drop 1) s b ∧
          e = .ofField a d (s.fault b)) := by
  have hle := m.length_take_le a d.encoding.size
  unfold decodeAs
  generalize m.take a d.encoding.size = bytes at hle ⊢
  simp only
  split
  · next hshort =>
    have hne : bytes.length ≠ d.encoding.size := by omega
    simp [hshort, hne, eq_comm]
  · next hfull =>
    -- With all bytes there the fields cannot run over the end, so only a refused byte is left.
    have hlength : bytes.length = d.encoding.size := by omega
    rw [or_iff_right (fun h => hfull h.1), and_iff_right hlength]
    cases hfields : d.encoding.decode registers bytes with
    | error err =>
      obtain ⟨s, b, hfirst, rfl⟩ := (Encoding.decode_eq_error_iff_firstRefused hlength).mp hfields
      simp only [Except.error.injEq]
      constructor
      · intro h
        exact ⟨s, b, hfirst, h.symm⟩
      · intro h
        obtain ⟨s', b', hfirst', rfl⟩ := h
        have hfields' : d.encoding.decode registers bytes = .error (s'.fault b') :=
          (Encoding.decode_eq_error_iff_firstRefused hlength).mpr ⟨s', b', hfirst', rfl⟩
        rw [hfields] at hfields'
        rw [Except.error.inj hfields']
    | ok operands =>
      simp only [reduceCtorEq, false_iff]
      intro h
      obtain ⟨s, b, hfirst, _⟩ := h
      have herror : d.encoding.decode registers bytes = .error (s.fault b) :=
        (Encoding.decode_eq_error_iff_firstRefused hlength).mpr ⟨s, b, hfirst, rfl⟩
      rw [hfields] at herror
      cases herror

theorem exists_decodeAs_eq_ok_iff
    (hlength : (m.take a d.encoding.size).length = d.encoding.size) :
    (∃ i, decodeAs registers m a n d = .ok i) ↔
      ∀ q ∈ d.encoding.slots.zip ((m.take a d.encoding.size).drop 1), q.1.Accepts registers q.2 := by
  rw [← Encoding.exists_decode_eq_ok_iff_accepts hlength]
  constructor
  · intro h
    obtain ⟨i, hi⟩ := h
    obtain ⟨_, operands, hoperands, _⟩ := decodeAs_eq_ok_iff.mp hi
    exact ⟨operands, hoperands⟩
  · intro h
    obtain ⟨operands, hoperands⟩ := h
    exact ⟨_, decodeAs_eq_ok_iff.mpr ⟨hlength, operands, hoperands, rfl⟩⟩

theorem decodeAs_eq_truncated_iff :
    decodeAs registers m a n d = .error (.truncated a d.mnemonic d.encoding.size
        (m.take a d.encoding.size).length) ↔
      (m.take a d.encoding.size).length < d.encoding.size := by
  rw [decodeAs_eq_error_iff]
  constructor
  · intro h
    rcases h with ⟨hshort, _⟩ | ⟨_, s, b, _, he⟩
    · exact hshort
    · cases s <;> cases he
  · intro hshort
    exact .inl ⟨hshort, rfl⟩

theorem decodeAs_eq_badRegister_iff (hlength : (m.take a d.encoding.size).length = d.encoding.size)
    {b : UInt8} :
    decodeAs registers m a n d = .error (.badRegister a b) ↔
      ∃ s, s ≠ .width ∧
        Slot.FirstRefused registers d.encoding.slots ((m.take a d.encoding.size).drop 1) s b := by
  rw [decodeAs_eq_error_iff, or_iff_right (fun h => Nat.ne_of_lt h.1 hlength), and_iff_right hlength]
  constructor
  · intro h
    obtain ⟨s, c, hfirst, he⟩ := h
    obtain ⟨hs, rfl⟩ := DecodeError.ofField_fault_eq_badRegister_iff.mp he.symm
    exact ⟨s, hs, hfirst⟩
  · intro h
    obtain ⟨s, hs, hfirst⟩ := h
    exact ⟨s, b, hfirst, (DecodeError.ofField_fault_eq_badRegister_iff.mpr ⟨hs, rfl⟩).symm⟩

theorem decodeAs_eq_badWidth_iff (hlength : (m.take a d.encoding.size).length = d.encoding.size)
    {b : UInt8} :
    decodeAs registers m a n d = .error (.badWidth a b) ↔
      Slot.FirstRefused registers d.encoding.slots ((m.take a d.encoding.size).drop 1)
        .width b := by
  rw [decodeAs_eq_error_iff, or_iff_right (fun h => Nat.ne_of_lt h.1 hlength), and_iff_right hlength]
  constructor
  · intro h
    obtain ⟨s, c, hfirst, he⟩ := h
    obtain ⟨rfl, rfl⟩ := DecodeError.ofField_fault_eq_badWidth_iff.mp he.symm
    exact hfirst
  · intro hfirst
    exact ⟨.width, b, hfirst, rfl⟩

/-- Why an address holds no instruction, in the order in which it is looked at. -/
theorem decode_eq_error_iff :
    table.decode registers m a = .error e ↔
      (m a = none ∧ e = .unmapped a) ∨
      ∃ opcode, m a = some opcode ∧
        ((table.resolve? opcode = none ∧ e = .unrecognizedOpcode a opcode) ∨
          ∃ n d, table.resolve? opcode = some (n, d) ∧ decodeAs registers m a n d = .error e) := by
  unfold decode
  cases hm : m a with
  | none => simp [eq_comm]
  | some opcode =>
    cases hr : table.resolve? opcode with
    | none => simp [hr, eq_comm]
    | some entry =>
      obtain ⟨n, d⟩ := entry
      simp [hr]

theorem address_of_decode_eq_error (h : table.decode registers m a = .error e) :
    e.address = a := by
  rcases decode_eq_error_iff.mp h with ⟨_, rfl⟩ | ⟨opcode, _, ⟨_, rfl⟩ | ⟨n, d, _, has⟩⟩
  · rfl
  · rfl
  · rcases decodeAs_eq_error_iff.mp has with ⟨_, rfl⟩ | ⟨_, s, b, _, rfl⟩
    · rfl
    · exact DecodeError.address_ofField a d (s.fault b)

/-- An error leaves a byte to show exactly where there is one. -/
theorem isData_of_decode_eq_error (h : table.decode registers m a = .error e) :
    e.isData ↔ (m a).isSome := by
  rw [DecodeError.isData_iff, Option.isSome_iff_ne_none]
  constructor
  · intro hdata hnone
    rw [decode_eq_unmapped_iff.mpr ⟨hnone, rfl⟩] at h
    exact hdata a (Except.error.inj h).symm
  · intro hmapped b hb
    rw [hb] at h
    exact hmapped (decode_eq_unmapped_iff.mp h).1

theorem truncated_of_decode {mnemonic : String} {needed available : Nat} {b : Address}
    (h : table.decode registers m a = .error (.truncated b mnemonic needed available)) :
    0 < available ∧ available < needed := by
  rcases decode_eq_error_iff.mp h with ⟨_, he⟩ | ⟨opcode, hm, ⟨_, he⟩ | ⟨n, d, _, has⟩⟩
  · cases he
  · cases he
  · rcases decodeAs_eq_error_iff.mp has with ⟨hshort, he⟩ | ⟨_, s, c, _, he⟩
    · cases he
      exact ⟨ByteSource.length_take_pos (by simp [hm]) d.encoding.size_pos, hshort⟩
    · cases s <;> cases he

theorem WellFormed.decode_eq_unrecognized_iff (h : table.WellFormed) {b : UInt8} :
    table.decode registers m a = .error (.unrecognizedOpcode a b) ↔
      m a = some b ∧ ∀ d ∈ table, d.opcode ≠ b := by
  rw [decode_eq_error_iff]
  constructor
  · intro hb
    rcases hb with ⟨_, he⟩ | ⟨opcode, hm, ⟨hnone, he⟩ | ⟨n, d, _, has⟩⟩
    · cases he
    · cases he
      exact ⟨hm, h.resolve?_eq_none_iff.mp hnone⟩
    · rcases decodeAs_eq_error_iff.mp has with ⟨_, he⟩ | ⟨_, s, c, _, he⟩
      · cases he
      · cases s <;> cases he
  · intro hb
    obtain ⟨hm, hfresh⟩ := hb
    exact .inr ⟨b, hm, .inl ⟨h.resolve?_eq_none_iff.mpr hfresh, rfl⟩⟩

theorem WellFormed.exists_decode_eq_decodeAs (h : table.WellFormed) (hd : d ∈ table)
    (hm : m a = some d.opcode) :
    ∃ n, table.decode registers m a = decodeAs registers m a n d := by
  obtain ⟨n, hn⟩ := h.exists_resolve? hd
  exact ⟨n, by simp [decode, hm, hn]⟩

/-- What decoding at an address comes to. Without a byte the address is unmapped, and without a
definition for the byte the opcode is not recognized. Otherwise the one definition says how many
bytes are needed: with a gap among them the instruction is truncated there, behind at least one
byte; the first byte that may not stand in its slot makes it a bad register or a bad width; and if
there is none it is decoded. -/
theorem decode_classifies (h : table.validate = .ok ()) (registers : RegisterTable) (m : ByteSource)
    (a : Address) :
    let r := table.decode registers m a
    (r = .error (.unmapped a) ↔ m a = none) ∧
    (∀ b, r = .error (.unrecognizedOpcode a b) ↔ m a = some b ∧ ∀ d ∈ table, d.opcode ≠ b) ∧
    (∀ d ∈ table, m a = some d.opcode →
      (∀ c ∈ table, c.opcode = d.opcode → c = d) ∧
      ∃ k, m.Leads a d.encoding.size k ∧ 1 ≤ k ∧
        (r = .error (.truncated a d.mnemonic d.encoding.size k) ↔ k < d.encoding.size) ∧
        (k = d.encoding.size → ∃ bytes : List UInt8, bytes.length = d.encoding.size ∧
          (∀ j < d.encoding.size, m (a + UInt32.ofNat j) = bytes[j]?) ∧
          (∀ b, r = .error (.badRegister a b) ↔
            ∃ s, s ≠ .width ∧ Slot.FirstRefused registers d.encoding.slots (bytes.drop 1) s b) ∧
          (∀ b, r = .error (.badWidth a b) ↔
            Slot.FirstRefused registers d.encoding.slots (bytes.drop 1) .width b) ∧
          ((∃ i, r = .ok i) ↔
            ∀ q ∈ d.encoding.slots.zip (bytes.drop 1), q.1.Accepts registers q.2))) ∧
    (∀ i, r = .ok i → i.address = a) ∧
    (∀ e, r = .error e → e.address = a ∧ (e.isData ↔ (m a).isSome)) ∧
    (∀ mnemonic needed available, r = .error (.truncated a mnemonic needed available) →
      1 ≤ available ∧ available < needed) := by
  intro r
  have hwell := validate_eq_ok_iff_wellFormed.mp h
  refine ⟨?_, fun b => hwell.decode_eq_unrecognized_iff, ?_, fun i => address_of_decode, ?_,
    fun _ _ _ => truncated_of_decode⟩
  · rw [decode_eq_unmapped_iff, and_iff_left rfl]
  · intro d hd hm
    obtain ⟨n, hr⟩ : ∃ n, r = decodeAs registers m a n d := hwell.exists_decode_eq_decodeAs hd hm
    have hpos : 0 < (m.take a d.encoding.size).length :=
      ByteSource.length_take_pos (by simp [hm]) d.encoding.size_pos
    refine ⟨fun c hc hopcode => hwell.eq_of_opcode_eq hc hd hopcode,
      (m.take a d.encoding.size).length, m.leads_length_take a d.encoding.size, hpos, ?_, ?_⟩
    · rw [hr, decodeAs_eq_truncated_iff]
    · intro hlength
      refine ⟨m.take a d.encoding.size, hlength, ?_, ?_, ?_, ?_⟩
      · intro j hj
        exact ByteSource.getElem?_take (by omega)
      · intro b
        rw [hr, decodeAs_eq_badRegister_iff hlength]
      · intro b
        rw [hr, decodeAs_eq_badWidth_iff hlength]
      · rw [hr, exists_decodeAs_eq_ok_iff hlength]
  · intro e he
    exact ⟨address_of_decode_eq_error he, isData_of_decode_eq_error he⟩

/-- A jump over the end of the address space, with a gap before its last two bytes. -/
theorem decode_classifies_cut_off :
    let m : ByteSource := fun a =>
      if a = 0xfffffffe then some 0x46 else if a = 0xffffffff then some 0x34
      else if a = 0 then some 0x12 else none
    standard.validate = .ok () ∧ m.Leads 0xfffffffe 5 3 ∧
      standard.decode .standard m 0xfffffffe =
        .error (.truncated 0xfffffffe "vm_jmp" 5 3) := by
  intro m
  let d : Definition := ⟨0x46, "vm_jmp", .goto, .far32⟩
  have hleads : m.Leads 0xfffffffe 5 3 := by
    exact ⟨by decide, by decide +kernel, fun _ => by rfl⟩
  obtain ⟨_, _, hdefinition, _⟩ :=
    decode_classifies validate_standard .standard m 0xfffffffe
  obtain ⟨_, k, hk, _, htruncated, _⟩ := hdefinition d (by decide) (by rfl)
  have hk3 : k = 3 := hk.unique hleads
  subst hk3
  exact ⟨validate_standard, hleads, htruncated.mpr (by decide)⟩

end InstructionTable

end Disassembly
