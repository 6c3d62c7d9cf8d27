import Disassembly.Proofs.Flow.Discovery

namespace Disassembly

namespace Processor

/-- The least set of addresses that contains the mapped entries and, with every address that
decodes, the mapped targets of its instruction. -/
inductive Reachable (p : Processor) (img : Image) (entries : List Address) : Address → Prop
  | entry {a : Address} (given : a ∈ entries) (mapped : img.isMapped a) : Reachable p img entries a
  | target {a : Address} {i : Instruction} {e : Edge} (source : Reachable p img entries a)
      (decodes : p.decode img.read a = .ok i) (leaves : e ∈ p.edges i)
      (mapped : img.isMapped e.target) : Reachable p img entries e.target

variable {p : Processor} {img : Image} {limit : Nat} {entries : List Address} {a : Address}

theorem Reachable.isMapped (h : p.Reachable img entries a) : img.isMapped a := by
  cases h with
  | entry _ mapped => exact mapped
  | target _ _ _ mapped => exact mapped

theorem Reachable.of_entries {entries' : List Address} (h : p.Reachable img entries a)
    (hsub : ∀ a ∈ entries, a ∈ entries') : p.Reachable img entries' a := by
  induction h with
  | entry given mapped => exact .entry (hsub _ given) mapped
  | target _ decodes leaves mapped ih => exact .target ih decodes leaves mapped

/-- Edges that were noted are edges of instructions that decode. -/
theorem reachable_of_traced {x : Exploration} (hx : x.Faithful p img)
    (h : x.Traced img entries a) : p.Reachable img entries a := by
  induction h with
  | entry given mapped => exact .entry given mapped
  | @edge e noted _ mapped ih =>
    obtain ⟨i, hi, he⟩ := (hx.edges e).mp noted
    exact .target ih (hx.decodes _ i hi) he mapped

theorem reachable_of_isVisited (h : (p.explore img limit entries).isVisited a) :
    p.Reachable img entries a :=
  reachable_of_traced (p.explore_faithful img limit entries) (explore_traced h)

/-- With room to spare nothing is left waiting, so what is visited is closed under the edges. -/
theorem isVisited_of_reachable
    (hroom : (p.explore img limit entries).instructions.size < limit)
    (h : p.Reachable img entries a) : (p.explore img limit entries).isVisited a := by
  obtain ⟨rest, hsound, hover⟩ := p.explore_sound img limit entries
  have hempty : rest = [] := by
    rcases hover with hempty | hfull
    · exact hempty
    · exact absurd hroom (Nat.not_lt.mpr hfull)
  subst hempty
  have hvisited {b : Address} (hb : Search.Knows ⟨[], p.explore img limit entries⟩ b) :
      (p.explore img limit entries).isVisited b := by
    rcases hb with hb | hb
    · cases hb
    · exact hb
  induction h with
  | entry given mapped => exact hvisited (hsound.entries _ given mapped)
  | @target b i e _ decodes leaves mapped ih =>
    have haddr : e.source = b :=
      (source_of_mem_edges leaves).trans (InstructionTable.address_of_decode decodes)
    have hnoted : e ∈ (p.explore img limit entries).edges := by
      rw [hsound.faithful.edges, haddr]
      exact ⟨i, hsound.faithful.getElem?_of_decode ih decodes, leaves⟩
    exact hvisited (hsound.targets e hnoted mapped)

theorem isVisited_explore_iff
    (hroom : (p.explore img limit entries).instructions.size < limit) :
    (p.explore img limit entries).isVisited a ↔ p.Reachable img entries a :=
  ⟨reachable_of_isVisited, isVisited_of_reachable hroom⟩

/-- An exploration that ends below its limit has found the reachable addresses and nothing else:
those that decode as instructions, the others as data. -/
theorem explore_eq_reachable
    (hroom : (p.explore img limit entries).instructions.size < limit) :
    (∀ a i, (p.explore img limit entries).instructions[a]? = some i ↔
      p.Reachable img entries a ∧ p.decode img.read a = .ok i) ∧
    (∀ a, a ∈ (p.explore img limit entries).data ↔
      p.Reachable img entries a ∧ ∃ err, p.decode img.read a = .error err) ∧
    (∀ a ∈ (p.explore img limit entries).data,
      img.isMapped a ∧ ∀ b, p.decode img.read a ≠ .error (.unmapped b)) ∧
    (∀ a ∈ (p.explore img limit entries).instructions,
      a ∉ (p.explore img limit entries).data) := by
  have hx := p.explore_faithful img limit entries
  have hdata (a : Address) (ha : a ∈ (p.explore img limit entries).data) :
      p.Reachable img entries a :=
    reachable_of_isVisited (Exploration.isVisited_iff.mpr (.inr ha))
  refine ⟨?_, ?_, ?_, ?_⟩
  · intro a i
    constructor
    · intro hi
      have hmem := AddressMap.mem_iff.mpr ⟨i, hi⟩
      exact ⟨reachable_of_isVisited (Exploration.isVisited_iff.mpr (.inl hmem)), hx.decodes a i hi⟩
    · intro h
      exact hx.getElem?_of_decode (isVisited_of_reachable hroom h.1) h.2
  · intro a
    constructor
    · intro ha
      exact ⟨hdata a ha, hx.fails a ha⟩
    · intro h
      obtain ⟨hreach, err, hd⟩ := h
      exact hx.mem_data_of_decode (isVisited_of_reachable hroom hreach) hd
  · intro a ha
    have hmapped := (hdata a ha).isMapped
    refine ⟨hmapped, ?_⟩
    intro b hd
    have hnone := (InstructionTable.decode_eq_unmapped_iff.mp hd).1
    rw [← Image.isSome_read, hnone] at hmapped
    cases hmapped
  · intro a hmem ha
    obtain ⟨i, hi⟩ := AddressMap.mem_iff.mp hmem
    have hd := hx.decodes a i hi
    obtain ⟨err, herr⟩ := hx.fails a ha
    rw [hd] at herr
    cases herr

/-- A branch into the middle of another jump, a jump into the middle of the branch itself and a
jump out of memory. The byte at 2 would decode, but control never comes there. -/
theorem explore_eq_reachable_overlapping :
    let p := Processor.standard {}
    let img := Image.single 0 #[0x41, 5, 0, 0x40, 1, 0, 0x46, 0, 0x10, 0, 0]
    (p.explore img 100 [0]).instructions.size < 100 ∧
      p.Reachable img [0] 5 ∧ p.Reachable img [0] 1 ∧ ¬ p.Reachable img [0] 2 := by
  intro p img
  have hroom : (p.explore img 100 [0]).instructions.size < 100 := by decide +kernel
  obtain ⟨hins, hdata, _, _⟩ := explore_eq_reachable hroom
  have h5 : (p.explore img 100 [0]).instructions[(5 : Address)]? = some ⟨5, 0, 1, []⟩ := by
    decide +kernel
  have h1 : (1 : Address) ∈ (p.explore img 100 [0]).data := by decide +kernel
  refine ⟨hroom, ((hins 5 _).mp h5).1, ((hdata 1).mp h1).1, ?_⟩
  intro h2
  have hd : p.decode img.read 2 = .ok ⟨2, 0, 1, []⟩ := by rfl
  have hnone : (p.explore img 100 [0]).instructions[(2 : Address)]? = none := by decide +kernel
  rw [(hins 2 _).mpr ⟨h2, hd⟩] at hnone
  cases hnone

end Processor

end Disassembly
