import Disassembly.Flow.Graph
import Disassembly.Proofs.Flow.Discovery
import Disassembly.Proofs.Flow.Owner

namespace Disassembly

namespace Exploration

variable {p : Processor} {img : Image} {x : Exploration} {starts : AddressSet} {e : Edge}
  {a b : Address}

theorem mem_blockStarts_iff {seeds : List Address} :
    a ∈ x.blockStarts seeds ↔ a ∈ x.instructions ∧
      (a ∈ seeds ∨ ∃ e ∈ x.edges, (e.kind = .jump ∨ x.isJumpSource e.source) ∧ e.target = a) := by
  unfold blockStarts
  simp only [AddressSet.mem_filter, Std.ExtTreeSet.mem_ofList, List.contains_iff_mem,
    List.mem_append, List.mem_map, List.mem_filter, Array.mem_toList_iff, Bool.or_eq_true,
    beq_iff_eq, Std.ExtTreeMap.contains_iff_mem, and_assoc]
  exact and_comm

theorem mem_roots_iff {entries : List Address} :
    a ∈ x.roots entries ↔ a ∈ entries ∨ (a ∈ x.callTargets ∧ a ∈ x.instructions) := by
  unfold roots
  simp only [List.mem_append, List.mem_filter, Std.ExtTreeSet.mem_toList, Bool.and_eq_true,
    Bool.not_eq_true', Std.ExtTreeMap.contains_iff_mem]
  by_cases ha : a ∈ entries
  · simp [ha]
  · simp [ha]

namespace Faithful

theorem source_decoded (hx : x.Faithful p img) (he : e ∈ x.edges) : e.source ∈ x.instructions := by
  obtain ⟨i, hi, _⟩ := (hx.edges e).mp he
  exact AddressMap.mem_iff.mpr ⟨i, hi⟩

/-- Control that comes to a decoded address where no block begins has fallen through to it and
stays in its block. -/
theorem continues_of_not_mem_blockStarts {seeds : List Address} (hx : x.Faithful p img)
    (he : e ∈ x.edges) (hdecoded : e.target ∈ x.instructions)
    (hinner : e.target ∉ x.blockStarts seeds) :
    x.Continues (x.blockStarts seeds) e.source e.target := by
  have hplain : ¬ (e.kind = .jump ∨ x.isJumpSource e.source) := by
    intro hleads
    exact hinner (mem_blockStarts_iff.mpr ⟨hdecoded, .inr ⟨e, he, hleads, rfl⟩⟩)
  have hk : e.kind = .flow := by
    cases hkind : e.kind with
    | flow => rfl
    | jump => exact absurd (.inl hkind) hplain
  obtain ⟨i, hi, hedge⟩ := (hx.edges e).mp he
  have htarget : e.target = i.next := Processor.target_of_flow_mem_edges hedge hk
  have hlt : e.source < i.next := InstructionTable.lt_next_of_decode (hx.decodes _ i hi)
  have hfalls : x.fallsThrough e.source :=
    fallsThrough_iff.mpr ((hx.sources .flow _).mpr ⟨e, he, hk, rfl⟩)
  exact ⟨⟨i, hi, htarget.symm⟩, hfalls, fun hs => hplain (.inr hs), hinner, htarget ▸ hlt, hdecoded⟩

/-- From an instruction that is not the last of its block, control only falls through. -/
theorem edge_of_continues (hx : x.Faithful p img) (h : x.Continues starts a b) :
    ∀ e, (e ∈ x.edges ∧ e.source = a) ↔ e = ⟨a, b, .flow⟩ := by
  obtain ⟨i, hi, hnext⟩ := h.next
  obtain ⟨f, hf, hfk, hfs⟩ := (hx.sources .flow a).mp (fallsThrough_iff.mp h.falls)
  have honly (e : Edge) (he : e ∈ x.edges) (hs : e.source = a) : e = ⟨a, b, .flow⟩ := by
    obtain ⟨source, target, kind⟩ := e
    simp only at hs
    subst hs
    cases kind with
    | jump =>
      have hjump := isJumpSource_iff.mpr ((hx.sources .jump _).mpr ⟨_, he, rfl, rfl⟩)
      exact absurd hjump h.straight
    | flow =>
      obtain ⟨j, hj, hedge⟩ := (hx.edges _).mp he
      simp only [hi, Option.some.injEq] at hj
      subst hj
      have htarget : target = i.next := Processor.target_of_flow_mem_edges hedge rfl
      rw [htarget, hnext]
  intro e
  constructor
  · intro he
    exact honly e he.1 he.2
  · intro he
    subst he
    rw [← honly f hf hfs]
    exact ⟨hf, hfs⟩

end Faithful

/-- Every decoded instruction is in a block. -/
def Covered (x : Exploration) (starts : AddressSet) : Prop :=
  ∀ a ∈ x.instructions, ∃ start, x.InBlock starts start a

/-- By induction on how an instruction was come by: an entry or the target of a jump begins a
block, and any other goes on with the block before it. -/
theorem Faithful.covered {entries : List Address} (hx : x.Faithful p img)
    (htraced : ∀ a ∈ x.instructions, x.Traced img entries a) :
    x.Covered (x.blockStarts (x.roots entries)) := by
  let starts := x.blockStarts (x.roots entries)
  have hself (b : Address) (hb : b ∈ starts) : ∃ start, x.InBlock starts start b :=
    ⟨b, hb, (mem_blockStarts_iff.mp hb).1, .refl⟩
  intro a ha
  have htrace := htraced a ha
  induction htrace with
  | @entry b given _ =>
    have hroot : b ∈ x.roots entries := mem_roots_iff.mpr (.inl given)
    exact hself b (mem_blockStarts_iff.mpr ⟨ha, .inl hroot⟩)
  | @edge e noted _ _ ih =>
    by_cases hinner : e.target ∈ starts
    · exact hself e.target hinner
    · have hcont : x.Continues starts e.source e.target :=
        hx.continues_of_not_mem_blockStarts noted ha hinner
      obtain ⟨start, hin⟩ := ih (hx.source_decoded noted)
      exact ⟨start, hin.start_mem, hin.decoded, hin.chain.tail hcont⟩

end Exploration

namespace Processor

theorem explore_covered (p : Processor) (img : Image) (limit : Nat) (entries : List Address) :
    (p.explore img limit entries).Covered ((p.explore img limit entries).blockStarts
      ((p.explore img limit entries).roots entries)) := by
  apply (p.explore_faithful img limit entries).covered
  intro a ha
  exact explore_traced (Exploration.isVisited_iff.mpr (.inl ha))

theorem owners_graph (p : Processor) (img : Image) (limit : Nat) (entries : List Address) :
    (p.graph img limit entries).owners =
      (p.graph img limit entries).found.owners (p.graph img limit entries).starts := rfl

/-- The blocks take up every decoded instruction, and jumps enter them at the head only. -/
theorem blocks_cover (p : Processor) (img : Image) (limit : Nat) (entries : List Address) :
    let g := p.graph img limit entries
    (∀ a, a ∈ g.owners ↔ a ∈ g.found.instructions) ∧
    (∀ a start, g.owners[a]? = some start → ∃ b ∈ g.blocks, b.start = start ∧ a ∈ b.body) ∧
    (∀ b ∈ g.blocks, b.IsChain g.found ∧
      ∀ e ∈ g.found.edges, e.kind = .jump ∨ g.found.isJumpSource e.source →
        e.target ∉ b.body.tail) := by
  intro g
  refine ⟨?_, ?_, ?_⟩
  · intro a
    rw [owners_graph]
    constructor
    · exact Exploration.decoded_of_mem_owners
    · intro ha
      exact Exploration.mem_owners_iff.mpr (p.explore_covered img limit entries a ha)
  · intro a start ha
    rw [owners_graph] at ha
    obtain ⟨hin, _⟩ := Exploration.getElem?_owners_iff.mp ha
    obtain ⟨b, hb, rfl⟩ := Exploration.exists_block_of_mem hin.start_mem hin.decoded
    exact ⟨b, hb, rfl, (Exploration.mem_body_iff hb).mpr hin⟩
  · intro b hb
    obtain ⟨hchain, htail⟩ := Exploration.isChain_of_mem_blocks hb
    refine ⟨hchain, ?_⟩
    intro e he hleads hmem
    have hin := (Exploration.mem_body_iff hb).mp (List.mem_of_mem_tail hmem)
    have hdecoded := Exploration.Chain.decoded hin.chain hin.decoded
    exact htail e.target hmem
      (Exploration.mem_blockStarts_iff.mpr ⟨hdecoded, .inr ⟨e, he, hleads, rfl⟩⟩)

end Processor

end Disassembly
