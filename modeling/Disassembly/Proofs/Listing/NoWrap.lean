import Disassembly.Proofs.Flow.MaximalChain
import Disassembly.Proofs.Isa.Classification
import Disassembly.Proofs.Listing.Sweep

namespace Disassembly

theorem Segment.base_le_of_contains {s : Segment} {a : Address} (h : s.contains a) : s.base ≤ a := by
  simp only [contains, Bool.and_eq_true, decide_eq_true_eq] at h
  exact h.1

namespace Image

variable {img : Image} {s : Segment} {a : Address}

/-- A byte is read from the first segment that contains the address, and from inside it. -/
theorem read_eq_getElem (h : img.segment? a = some s) :
    s.base ≤ a ∧ ∃ hlt : (a - s.base).toNat < s.bytes.size,
      img.read a = some s.bytes[(a - s.base).toNat] := by
  have hin : s.contains a := by simpa using List.find?_some h
  have hlt := s.offset_lt_size hin
  refine ⟨s.base_le_of_contains hin, hlt, ?_⟩
  rw [read, h, Option.bind_some, Array.getElem?_eq_getElem hlt]

theorem not_isMapped_last (img : Image) : ¬ img.isMapped 0xffffffff := by
  intro h
  exact absurd (succ_lt_size_of_isMapped h) (by decide)

end Image

namespace Processor

variable {p : Processor} {img : Image} {a : Address} {i : Instruction} {e : DecodeError}

/-- An instruction of an image ends below the end of the address space, and all of it is there. -/
theorem fits_of_decode (h : p.decode img.read a = .ok i) :
    i.address.toNat + i.size.toNat < UInt32.size ∧
      ∀ k < i.size.toNat, img.isMapped (i.address + UInt32.ofNat k) := by
  obtain rfl : i.address = a := InstructionTable.address_of_decode h
  obtain ⟨hnext, _⟩ := InstructionTable.toNat_next_of_decode h
  constructor
  · rw [← hnext]
    exact i.next.toNat_lt_size
  · intro k hk
    rw [← Image.isSome_read]
    exact InstructionTable.isSome_of_decode h hk

/-- Behind a byte that is shown as data there is another address. -/
theorem succ_ne_zero_of_isData (h : p.decode img.read a = .error e) (hdata : e.isData) :
    a + 1 ≠ 0 := by
  intro hzero
  have hread := (InstructionTable.isData_of_decode_eq_error h).mp hdata
  rw [Image.isSome_read] at hread
  have hsucc := toNat_succ_of_isMapped hread
  rw [hzero] at hsucc
  cases hsucc

end Processor

namespace Image

/-- Bytes are read inside their segment, also where it wraps, and the last address has none. So an
instruction ends below the end of the address space and what is behind it is above it; a sweep
stops at its end or at a gap only, and a block at a jump, at a stop, at a gap or at another
block. -/
theorem code_never_wraps (img : Image) :
    (∀ a s, img.segment? a = some s → s.base ≤ a ∧
      ∃ h : (a - s.base).toNat < s.bytes.size,
        img.read a = some s.bytes[(a - s.base).toNat]) ∧
    (∀ a, img.isMapped a ↔ (img.read a).isSome) ∧
    ¬ img.isMapped 0xffffffff ∧
    ∀ p : Processor,
      (∀ a i, p.decode img.read a = .ok i →
        i.address.toNat + i.size.toNat < UInt32.size ∧
        (∀ k < i.size.toNat, img.isMapped (i.address + UInt32.ofNat k)) ∧ i.address < i.next) ∧
      (∀ a e, p.decode img.read a = .error e → e.isData → a + 1 ≠ 0) ∧
      (∀ start stop, ∃ n, p.Sweeps img start stop n ∧
        Row.sweep p img start stop = Row.sweptTo p img start stop n) ∧
      ∀ (limit : Nat) (entries : List Address) (starts : AddressSet),
        let x := p.explore img limit entries
        (∀ (a : Address) (i : Instruction), x.instructions[a]? = some i → a < i.next) ∧
        ∀ b ∈ x.blocks starts, b.IsMaximal x starts := by
  refine ⟨fun a s => read_eq_getElem, ?_, img.not_isMapped_last, ?_⟩
  · intro a
    rw [isSome_read]
  · intro p
    refine ⟨?_, fun a e => Processor.succ_ne_zero_of_isData, ?_, ?_⟩
    · intro a i hi
      obtain ⟨hend, hmapped⟩ := Processor.fits_of_decode hi
      have haddress : i.address = a := InstructionTable.address_of_decode hi
      have hnext : a < i.next := InstructionTable.lt_next_of_decode hi
      exact ⟨hend, hmapped, haddress ▸ hnext⟩
    · intro start stop
      obtain ⟨n, hn⟩ := p.exists_sweeps img start stop
      exact ⟨n, hn, Row.sweep_of_sweeps hn⟩
    · intro limit entries starts x
      have hx : x.Faithful p img := p.explore_faithful img limit entries
      refine ⟨fun _ _ => hx.lt_next, ?_⟩
      intro b hb
      exact (hx.mem_blocks_iff_isMaximal.mp hb).2

/-- An instruction whose last byte has the greatest address that a byte can have. The segment in
front of it wraps there and hides nothing. -/
theorem code_never_wraps_top_of_memory :
    let p := Processor.standard {}
    let wrapping := Segment.raw "wrapping" 0xfffffffe #[1, 1, 1]
    let top := Segment.raw "top" 0xfffffffd #[0x30, 7]
    let img : Image := ⟨[wrapping, top]⟩
    let i : Instruction := ⟨0xfffffffd, 25, 2, [.imm 7]⟩
    wrapping.stop = 1 ∧ img.segment? 0xfffffffe = some top ∧ (img.read 0xfffffffe).isSome ∧
      ¬ img.isMapped 0xffffffff ∧ p.decode img.read 0xfffffffd = .ok i ∧
      i.address.toNat + i.size.toNat < UInt32.size ∧ i.address < i.next ∧
      ∃ n, p.Sweeps img 0xfffffffd 0xffffffff n ∧
        Row.sweep p img 0xfffffffd 0xffffffff = Row.sweptTo p img 0xfffffffd 0xffffffff n := by
  intro p wrapping top img i
  have hsegment : img.segment? 0xfffffffe = some top := by decide +kernel
  have hsome : (p.decode img.read 0xfffffffd).toOption = some i := by decide +kernel
  have hdecode : p.decode img.read 0xfffffffd = .ok i := by
    cases hresult : p.decode img.read 0xfffffffd with
    | error e => simp [hresult, Except.toOption] at hsome
    | ok j => simpa [hresult, Except.toOption] using hsome
  obtain ⟨hread, _, hlast, hcode⟩ := img.code_never_wraps
  obtain ⟨hdecoded, _, hsweep, _⟩ := hcode p
  obtain ⟨_, _, hbyte⟩ := hread 0xfffffffe top hsegment
  obtain ⟨hfits, _, hnext⟩ := hdecoded 0xfffffffd i hdecode
  exact ⟨by decide +kernel, hsegment, by rw [hbyte, Option.isSome_some], hlast, hdecode, hfits, hnext,
    hsweep 0xfffffffd 0xffffffff⟩

end Image

end Disassembly
