import Disassembly.Proofs.Flow.Cover

namespace Disassembly

namespace Exploration

/-- Two instructions fall through to `a`. -/
def Merges (x : Exploration) (a : Address) : Prop :=
  ∃ e ∈ x.edges, ∃ f ∈ x.edges, e.kind = .flow ∧ f.kind = .flow ∧
    e.target = a ∧ f.target = a ∧ e.source ≠ f.source

variable {p : Processor} {img : Image} {x : Exploration} {starts : AddressSet}
  {start other a : Address}

/-- By induction along the chain of one block: where another chain joins it, two instructions
fall through to the same address. -/
theorem Faithful.inBlock_unique (hx : x.Faithful p img)
    (hmerge : ∀ a ∈ x.instructions, x.Merges a → a ∈ starts)
    (hs : x.InBlock starts start a) (ho : x.InBlock starts other a) : start = other := by
  obtain ⟨hstart, hdecoded, hchain⟩ := hs
  induction hchain with
  | refl => exact (Chain.eq_of_mem_starts ho.chain hstart).symm
  | @tail c a hsc hca ih =>
    obtain ⟨hother, hodecoded, hochain⟩ := ho
    cases hochain with
    | refl => exact absurd hother hca.inner
    | @tail d _ hod hda =>
      by_cases hcd : c = d
      · subst hcd
        exact ih ⟨hother, hodecoded, hod⟩
      · have hc := (hx.edge_of_continues hca ⟨c, a, .flow⟩).mpr rfl
        have hd := (hx.edge_of_continues hda ⟨d, a, .flow⟩).mpr rfl
        have hmeet : x.Merges a := ⟨_, hc.1, _, hd.1, rfl, rfl, rfl, rfl, hcd⟩
        exact absurd (hmerge a hca.decoded hmeet) hca.inner

/-- Two instructions that fall through to the inside of blocks do so in different ones. -/
theorem Faithful.exists_shared {seeds : List Address} (hx : x.Faithful p img)
    (hcover : x.Covered (x.blockStarts seeds)) (hdecoded : a ∈ x.instructions)
    (hmerge : x.Merges a) (hinner : a ∉ x.blockStarts seeds) :
    ∃ s t, s ≠ t ∧ x.InBlock (x.blockStarts seeds) s a ∧ x.InBlock (x.blockStarts seeds) t a := by
  obtain ⟨e, he, f, hf, _, _, rfl, hfa, hne⟩ := hmerge
  have hce : x.Continues (x.blockStarts seeds) e.source e.target :=
    hx.continues_of_not_mem_blockStarts he hdecoded hinner
  have hcf : x.Continues (x.blockStarts seeds) f.source e.target := by
    rw [← hfa] at hdecoded hinner ⊢
    exact hx.continues_of_not_mem_blockStarts hf hdecoded hinner
  obtain ⟨s, hs⟩ := hcover e.source (hx.source_decoded he)
  obtain ⟨t, ht⟩ := hcover f.source (hx.source_decoded hf)
  refine ⟨s, t, ?_, ⟨hs.start_mem, hs.decoded, hs.chain.tail hce⟩,
    ⟨ht.start_mem, ht.decoded, ht.chain.tail hcf⟩⟩
  intro hst
  subst hst
  exact hne (Chain.eq_of_continues hs.chain ht.chain hce hcf)

/-- Without shared instructions, an edge that leaves a block leads to a head. -/
theorem Faithful.blockOf_target {seeds : List Address} {e : Edge} (hx : x.Faithful p img)
    (hcover : x.Covered (x.blockStarts seeds))
    (hmerge : ∀ a ∈ x.instructions, x.Merges a → a ∈ x.blockStarts seeds)
    (he : e ∈ x.edges) (hdecoded : e.target ∈ x.instructions)
    (hleaves : ¬ ((x.owners (x.blockStarts seeds))[e.target]? =
      some (blockOf (x.owners (x.blockStarts seeds)) e.source) ∧ e.kind = .flow)) :
    blockOf (x.owners (x.blockStarts seeds)) e.target = e.target := by
  by_cases hinner : e.target ∈ x.blockStarts seeds
  · exact blockOf_of_getElem? (getElem?_owners_of_mem_starts hinner hdecoded)
  · have hcont : x.Continues (x.blockStarts seeds) e.source e.target :=
      hx.continues_of_not_mem_blockStarts he hdecoded hinner
    obtain ⟨s, hs⟩ := hcover e.source (hx.source_decoded he)
    have howner {a : Address} (ha : x.InBlock (x.blockStarts seeds) s a) :
        (x.owners (x.blockStarts seeds))[a]? = some s :=
      getElem?_owners_of_unique ha (fun _ hother => hx.inBlock_unique hmerge hother ha)
    have htarget := howner ⟨hs.start_mem, hs.decoded, hs.chain.tail hcont⟩
    have hflow : e.kind = .flow := by
      rw [(hx.edge_of_continues hcont e).mp ⟨he, rfl⟩]
    rw [blockOf_of_getElem? (howner hs)] at hleaves
    exact absurd ⟨htarget, hflow⟩ hleaves

end Exploration

namespace Graph

/-- No two blocks share an instruction, and an edge between blocks that leads to decoded code
leads to the head of a block. -/
def IsBasic (g : Graph) : Prop :=
  (∀ b ∈ g.blocks, ∀ c ∈ g.blocks, b ≠ c → ∀ a ∈ b.body, a ∉ c.body) ∧
  (∀ e ∈ g.found.edges, e.target ∈ g.found.instructions →
    ∀ f, e.betweenBlocks? g.owners = some f → f.target = e.target)

end Graph

namespace Processor

/-- The blocks are basic blocks exactly if a block begins wherever two instructions fall through
to one address. -/
theorem isBasic_graph_iff (p : Processor) (img : Image) (limit : Nat) (entries : List Address) :
    (p.graph img limit entries).IsBasic ↔
      ∀ a ∈ (p.graph img limit entries).found.instructions,
        (p.graph img limit entries).found.Merges a → a ∈ (p.graph img limit entries).starts := by
  have hx := p.explore_faithful img limit entries
  have hcover := p.explore_covered img limit entries
  constructor
  · intro hbasic a ha hmerge
    by_contra hinner
    obtain ⟨s, t, hst, hs, ht⟩ := hx.exists_shared hcover ha hmerge hinner
    obtain ⟨b, hb, rfl⟩ := Exploration.exists_block_of_mem hs.start_mem hs.decoded
    obtain ⟨c, hc, rfl⟩ := Exploration.exists_block_of_mem ht.start_mem ht.decoded
    exact hbasic.1 b hb c hc (fun hbc => hst (congrArg Block.start hbc)) a
      ((Exploration.mem_body_iff hb).mpr hs) ((Exploration.mem_body_iff hc).mpr ht)
  · intro hmerge
    constructor
    · intro b hb c hc hbc a hab hac
      have hstart := hx.inBlock_unique hmerge ((Exploration.mem_body_iff hb).mp hab)
        ((Exploration.mem_body_iff hc).mp hac)
      exact hbc (Exploration.eq_of_start_eq hb hc hstart)
    · intro e he hdecoded f hf
      obtain ⟨hleaves, rfl⟩ := Edge.betweenBlocks?_eq_some_iff.mp hf
      exact hx.blockOf_target hcover hmerge he hdecoded hleaves

/-- A branch over one instruction into its operand: both streams fall through to the instruction
at 5. It is in two blocks, and the edge to it is shown as an edge to the head of the second. -/
theorem not_isBasic_graph_shared_tail :
    let g := (Processor.standard {}).graph (Image.single 0 #[0x41, 4, 0, 0x30, 0, 1]) 100 [0]
    ¬ g.IsBasic ∧ (⟨3, 5, .flow⟩ : Edge) ∈ g.found.edges ∧
      (⟨3, 5, .flow⟩ : Edge).betweenBlocks? g.owners = some ⟨3, 4, .flow⟩ := by
  intro g
  have hfirst : (⟨3, [3, 5], 6⟩ : Block) ∈ g.blocks := by decide +kernel
  have hsecond : (⟨4, [4, 5], 6⟩ : Block) ∈ g.blocks := by decide +kernel
  refine ⟨?_, by decide +kernel, by decide +kernel⟩
  intro hbasic
  exact hbasic.1 _ hfirst _ hsecond (by decide) 5 (by decide) (by decide)

end Processor

end Disassembly
