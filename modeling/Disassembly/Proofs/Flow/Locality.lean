import Disassembly.Proofs.Flow.Truncation

namespace Disassembly

namespace Image

/-- The images hold the same bytes at the mapped ones of the `count` addresses from `start` on. -/
def AgreesOn (img img' : Image) (start : Address) (count : Nat) : Prop :=
  ∀ a : Address, img.isMapped a → start.toNat ≤ a.toNat → a.toNat < start.toNat + count →
    img'.read a = img.read a

variable {img img' : Image} {a : Address} {m n : Nat}

theorem AgreesOn.mono (h : img.AgreesOn img' a n) (hle : m ≤ n) : img.AgreesOn img' a m := by
  intro b hmapped hstart hstop
  exact h b hmapped hstart (by omega)

theorem read_eq_none (h : ¬ img.isMapped a) : img.read a = none := by
  have hsome := img.isSome_read a
  simpa [h] using hsome

/-- No run of bytes of an image wraps, so the range in which they have to agree does not either. -/
theorem AgreesOn.decode_eq {table : InstructionTable} {registers : RegisterTable}
    (h : img.AgreesOn img' a (table.span img.read a))
    (hmapped : ∀ b, img'.isMapped b = img.isMapped b) :
    table.decode registers img'.read a = table.decode registers img.read a := by
  apply InstructionTable.decode_congr
  intro k hk hle
  have hfit := img.add_length_take_lt a (table.span img.read a)
  have hb : (a + UInt32.ofNat k).toNat = a.toNat + k := toNat_add_ofNat (by omega)
  by_cases hb' : img.isMapped (a + UInt32.ofNat k)
  · exact h _ hb' (by omega) (by omega)
  · rw [read_eq_none hb', read_eq_none (by rw [hmapped]; exact hb')]

end Image

namespace Exploration

/-- The images have the same addresses mapped, and wherever the exploration has looked they hold
the same bytes: in its instructions, and behind each data address as far as an instruction could
reach. -/
structure SeesAlike (x : Exploration) (img img' : Image) : Prop where
  mapped : ∀ a, img'.isMapped a = img.isMapped a
  code : ∀ (a : Address) i, x.instructions[a]? = some i → img.AgreesOn img' a i.size.toNat
  data : ∀ a ∈ x.data, img.AgreesOn img' a Encoding.maxSize

theorem SeesAlike.decode_eq {p : Processor} {img img' : Image} {x : Exploration} {a : Address}
    (h : x.SeesAlike img img') (hx : x.Faithful p img) (hv : x.isVisited a) :
    p.decode img'.read a = p.decode img.read a := by
  rcases isVisited_iff.mp hv with hmem | hmem
  · obtain ⟨i, hi⟩ := AddressMap.mem_iff.mp hmem
    have hspan : p.table.span img.read a = i.size.toNat :=
      InstructionTable.span_of_decode (hx.decodes a i hi)
    have hcode := h.code a i hi
    rw [← hspan] at hcode
    exact hcode.decode_eq h.mapped
  · have hspan := (p.table.span_bounds img.read a).2
    exact ((h.data a hmem).mono hspan).decode_eq h.mapped

end Exploration

namespace Processor

variable {p : Processor} {img img' : Image} {x : Exploration} {a : Address} {i : Instruction}

theorem note_congr (h : ∀ a, img'.isMapped a = img.isMapped a) :
    p.note img' x a i = p.note img x a i := by
  simp only [note, callTargets, h]

theorem pending_congr (h : ∀ a, img'.isMapped a = img.isMapped a) (es : List Edge) :
    pending img' x es = pending img x es := by
  simp only [pending, h]

end Processor

namespace Search

variable {p : Processor} {img img' : Image} {limit : Nat} {s t : Search}

/-- A turn asks an image which addresses are mapped, and what is decoded at the address that it
visits. -/
theorem Turn.transfer (hmapped : ∀ a, img'.isMapped a = img.isMapped a)
    (hdecode : ∀ a, t.found.isVisited a → p.decode img'.read a = p.decode img.read a)
    (h : Turn p img limit s t) : Turn p img' limit s t := by
  cases h with
  | skip room visited => exact .skip room visited
  | @data a _ _ _ room fresh fails =>
    have hsame := hdecode a (Exploration.isVisited_addData.mpr (.inl rfl))
    exact .data room fresh (hsame.trans fails)
  | @instruction a _ _ _ room fresh decodes =>
    have hsame := hdecode a (Processor.isVisited_note.mpr (.inl rfl))
    rw [← Processor.note_congr hmapped, ← Processor.pending_congr hmapped]
    exact .instruction room fresh (hsame.trans decodes)

/-- What a turn visits stays visited, so agreement on what is visited in the end is enough for
all turns before. -/
theorem Run.transfer (hmapped : ∀ a, img'.isMapped a = img.isMapped a)
    (hdecode : ∀ a, t.found.isVisited a → p.decode img'.read a = p.decode img.read a)
    (run : Run p img limit s t) : Run p img' limit s t := by
  induction run using Relation.ReflTransGen.head_induction_on with
  | refl => exact .refl
  | head hturn hrest ih =>
    have hgrows := Exploration.TruncationOf.run hrest
    exact .head (hturn.transfer hmapped fun a ha => hdecode a (hgrows.isVisited ha)) ih

end Search

namespace Processor

variable {p : Processor} {img img' : Image} {limit : Nat} {entries : List Address}

theorem explore_congr (hmapped : ∀ a, img'.isMapped a = img.isMapped a)
    (hdecode : ∀ a, (p.explore img limit entries).isVisited a →
      p.decode img'.read a = p.decode img.read a) :
    p.explore img' limit entries = p.explore img limit entries := by
  obtain ⟨rest, hrun, hover⟩ := p.run_explore img limit entries
  have hrun' := hrun.transfer hmapped hdecode
  have hstart : entries.filter img'.isMapped = entries.filter img.isMapped :=
    List.filter_congr fun a _ => hmapped a
  rw [← hstart] at hrun'
  exact explore_eq_of_run hrun' hover

/-- Only the bytes that are decoded matter. What is decoded at an address depends on the bytes of
the definition that is found there, and an exploration on the bytes of its instructions, on those
that an instruction at one of its data addresses could have, and on which addresses are mapped. -/
theorem explore_eq_of_seesAlike (p : Processor) :
    (∀ (table : InstructionTable) (registers : RegisterTable) (m m' : ByteSource) (a : Address)
      (opcode : UInt8) (n : Nat) (d : Definition),
      m a = some opcode → table.resolve? opcode = some (n, d) →
      (∀ k < d.encoding.size, m' (a + UInt32.ofNat k) = m (a + UInt32.ofNat k)) →
      table.decode registers m' a = table.decode registers m a) ∧
    ∀ (img img' : Image) (limit : Nat) (entries : List Address),
      (p.explore img limit entries).SeesAlike img img' →
      p.explore img' limit entries = p.explore img limit entries := by
  constructor
  · intro table registers m m' a opcode n d hopcode hresolve hbytes
    apply InstructionTable.decode_congr
    rw [InstructionTable.span_of_resolve? hopcode hresolve]
    intro k hk _
    exact hbytes k hk
  · intro img img' limit entries h
    have hx := p.explore_faithful img limit entries
    exact explore_congr h.mapped fun a hv => h.decode_eq hx hv

/-- An instruction that wraps around the end of the address space, in a memory that holds nothing
else and in one that is full. And a branch to code and to a byte that is no opcode, in two images
that differ at the first address behind those that an instruction there could have. -/
theorem explore_eq_of_seesAlike_next_byte :
    let p := Processor.standard {}
    let push : ByteSource := fun a =>
      if a = 0xffffffff then some 0x30 else if a = 0 then some 7 else none
    let full : ByteSource := fun a => if a = 0xffffffff then some 0x30 else some 7
    let code := Segment.raw "code" 0 #[0x41, 4, 0, 0xee, 1, 0, 0, 0, 0, 0, 0, 0, 0, 0]
    let img : Image := ⟨[code, .raw "rest" 14 #[0]]⟩
    let img' : Image := ⟨[code, .raw "rest" 14 #[1]]⟩
    p.decode full 0xffffffff = p.decode push 0xffffffff ∧
      (p.decode push 0xffffffff).toOption = some ⟨0xffffffff, 25, 2, [.imm 7]⟩ ∧
      (p.explore img 100 [0]).SeesAlike img img' ∧
      p.explore img' 100 [0] = p.explore img 100 [0] ∧
      img'.read 14 ≠ img.read 14 ∧ (p.explore img 100 [0]).data.toList = [3] := by
  intro p push full code img img'
  obtain ⟨hdecode, hexplore⟩ := explore_eq_of_seesAlike p
  have hsame : p.decode full 0xffffffff = p.decode push 0xffffffff :=
    hdecode p.table p.registers push full 0xffffffff 0x30 25 ⟨0x30, "push", .use1, .imm8⟩
      (by decide +kernel) (by decide +kernel) (by decide +kernel)
  have hbytes (a : Address) (ha : a.toNat < 14) : img'.read a = img.read a := by
    have hin : code.contains a := by
      have hlt : a < 14 := UInt32.lt_iff_toNat_lt.mpr ha
      simpa [Segment.contains, code, Segment.raw, Segment.stop] using hlt
    simp [img, img', Image.read, Image.segment?, hin]
  have hcode : ∀ entry ∈ (p.explore img 100 [0]).instructions.toList,
      entry.1.toNat + entry.2.size.toNat ≤ 14 := by decide +kernel
  have hdata : (p.explore img 100 [0]).data.toList = [3] := by decide +kernel
  have hsees : (p.explore img 100 [0]).SeesAlike img img' := by
    refine ⟨?_, ?_, ?_⟩
    · intro a
      simp only [Image.isMapped, Image.segment?, List.isSome_find?]
      rfl
    · intro a i hi b _ _ hb
      have ha := hcode (a, i) (Std.ExtTreeMap.mem_toList_iff_getElem?_eq_some.mpr hi)
      exact hbytes b (by simp only at ha; omega)
    · intro a ha b _ _ hb
      rw [← Std.ExtTreeSet.mem_toList, hdata, List.mem_singleton] at ha
      subst ha
      exact hbytes b hb
  exact ⟨hsame, by decide +kernel, hsees, hexplore img img' 100 [0] hsees, by decide +kernel, hdata⟩

end Processor

end Disassembly
