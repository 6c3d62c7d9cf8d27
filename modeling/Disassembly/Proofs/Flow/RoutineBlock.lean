import Disassembly.Proofs.Flow.RoutineBody

namespace Disassembly

namespace Exploration

/-- The routines that begin at `seeds`. -/
def routines (x : Exploration) (seeds : List Address) : List Routine :=
  Routine.along ((x.blockEdges (x.owners (x.blockStarts seeds))).map Edge.link) seeds

variable {img : Image} {entries seeds : List Address} {x : Exploration} {starts : AddressSet}
  {a : Address} {b : Block} {r : Routine}

theorem Traced.exists_reaches (h : x.Traced img entries a) :
    ∃ entry ∈ entries, x.Reaches entry a := by
  induction h with
  | entry given _ => exact ⟨_, given, .refl⟩
  | @edge e noted _ _ ih =>
    obtain ⟨entry, hentry, hreach⟩ := ih
    exact ⟨entry, hentry, hreach.tail ⟨e, noted, rfl⟩⟩

theorem entry_mem_seeds (hr : r ∈ x.routines seeds) : r.entry ∈ seeds :=
  Routine.entry_mem hr

theorem exists_routine (h : a ∈ seeds) : ∃ r ∈ x.routines seeds, r.entry = a :=
  Routine.exists_mem_along _ h

/-- A routine lists nothing but its entry and the blocks of targets of edges. -/
theorem exists_blockOf_eq_of_mem_routine (hr : r ∈ x.routines seeds) (ha : a ∈ r.blocks) :
    ∃ c, (c = r.entry ∨ ∃ e ∈ x.edges, e.target = c) ∧
      blockOf (x.owners (x.blockStarts seeds)) c = a := by
  have hpath : Relation.ReflTransGen (x.Links (x.blockStarts seeds)) r.entry a :=
    (Routine.mem_blocks_iff hr).mp ha
  cases hpath with
  | refl => exact ⟨r.entry, .inl rfl, blockOf_seed (entry_mem_seeds hr)⟩
  | tail _ hlink =>
    obtain ⟨e, he, _, _, htarget⟩ := links_iff.mp hlink
    exact ⟨e.target, .inr ⟨e, he, rfl⟩, htarget⟩

theorem blockOf_mem_routine (hr : r ∈ x.routines seeds) (h : x.Reaches r.entry a) :
    blockOf (x.owners (x.blockStarts seeds)) a ∈ r.blocks := by
  have hlinks : Relation.ReflTransGen (x.Links (x.blockStarts seeds))
      (blockOf (x.owners (x.blockStarts seeds)) r.entry)
      (blockOf (x.owners (x.blockStarts seeds)) a) := links_of_reaches h
  rw [blockOf_seed (entry_mem_seeds hr)] at hlinks
  exact (Routine.mem_blocks_iff hr).mpr hlinks

theorem start_decoded (hb : b ∈ x.blocks starts) : b.start ∈ x.instructions := by
  obtain ⟨i, hi, _⟩ := block?_eq_some_iff.mp (mem_blocks_iff.mp hb).2
  exact AddressMap.mem_iff.mpr ⟨i, hi⟩

theorem blockOf_start (hb : b ∈ x.blocks starts) : blockOf (x.owners starts) b.start = b.start :=
  blockOf_of_getElem? (getElem?_owners_of_mem_starts (mem_blocks_iff.mp hb).1 (start_decoded hb))

/-- The path by which an address was found begins at an entry, and it does not end when the
addresses on it are replaced by their blocks. -/
theorem Traced.exists_routine (h : x.Traced img entries a) (hsub : ∀ c ∈ entries, c ∈ seeds) :
    ∃ r ∈ x.routines seeds, r.entry ∈ entries ∧
      blockOf (x.owners (x.blockStarts seeds)) a ∈ r.blocks := by
  obtain ⟨entry, hentry, hreach⟩ := h.exists_reaches
  obtain ⟨r, hr, rfl⟩ := Exploration.exists_routine (x := x) (hsub entry hentry)
  exact ⟨r, hr, hentry, blockOf_mem_routine hr hreach⟩

theorem exists_block_of_decoded (hcover : x.Covered starts) (ha : a ∈ x.instructions) :
    ∃ b ∈ x.blocks starts, b.start = blockOf (x.owners starts) a := by
  obtain ⟨start, hstart⟩ := AddressMap.mem_iff.mp (mem_owners_iff.mpr (hcover a ha))
  obtain ⟨hin, _⟩ := getElem?_owners_iff.mp hstart
  rw [blockOf_of_getElem? hstart]
  exact exists_block_of_mem hin.start_mem hin.decoded

/-- What is not decoded stands for itself among the blocks, so it stays apart from them. -/
theorem blockOf_decoded_iff (hcover : x.Covered starts) :
    blockOf (x.owners starts) a ∈ x.instructions ↔ a ∈ x.instructions := by
  by_cases ha : a ∈ x.instructions
  · obtain ⟨b, hb, hstart⟩ := exists_block_of_decoded hcover ha
    have hdecoded := start_decoded hb
    rw [hstart] at hdecoded
    simp [ha, hdecoded]
  · rw [blockOf_of_not_mem (fun hmem => ha (decoded_of_mem_owners hmem))]

/-- Among what a routine lists, the blocks are what is decoded. -/
theorem exists_block_of_mem_routine_iff (hcover : x.Covered (x.blockStarts seeds))
    (hr : r ∈ x.routines seeds) (ha : a ∈ r.blocks) :
    (∃ b ∈ x.blocks (x.blockStarts seeds), b.start = a) ↔ a ∈ x.instructions := by
  obtain ⟨c, _, rfl⟩ := exists_blockOf_eq_of_mem_routine hr ha
  constructor
  · intro h
    obtain ⟨b, hb, hstart⟩ := h
    rw [← hstart]
    exact start_decoded hb
  · intro h
    exact exists_block_of_decoded hcover ((blockOf_decoded_iff hcover).mp h)

theorem decoded_of_mem_routine (hcover : x.Covered (x.blockStarts seeds))
    (hentry : r.entry ∈ x.instructions) (htargets : ∀ e ∈ x.edges, e.target ∈ x.instructions)
    (hr : r ∈ x.routines seeds) (ha : a ∈ r.blocks) : a ∈ x.instructions := by
  obtain ⟨c, hc, rfl⟩ := exists_blockOf_eq_of_mem_routine hr ha
  apply (blockOf_decoded_iff hcover).mpr
  rcases hc with rfl | ⟨e, he, rfl⟩
  · exact hentry
  · exact htargets e he

/-- Whatever a routine reaches has its block there. -/
theorem decoded_of_reaches (hcover : x.Covered (x.blockStarts seeds)) (hr : r ∈ x.routines seeds)
    (hall : ∀ a ∈ r.blocks, a ∈ x.instructions) (h : x.Reaches r.entry a) :
    a ∈ x.instructions :=
  (blockOf_decoded_iff hcover).mp (hall _ (blockOf_mem_routine hr h))

end Exploration

namespace Graph

/-- Every address that a routine lists is the start of a block. -/
def RoutinesAreBlocks (g : Graph) : Prop :=
  ∀ r ∈ g.routines, ∀ a ∈ r.blocks, ∃ b ∈ g.blocks, b.start = a

end Graph

namespace Processor

theorem routines_graph (p : Processor) (img : Image) (limit : Nat) (entries : List Address) :
    (p.graph img limit entries).routines =
      (p.graph img limit entries).found.routines (p.graph img limit entries).roots := rfl

theorem root_decoded {p : Processor} {img : Image} {limit : Nat} {entries : List Address}
    {a : Address} (h : ∀ a ∈ entries, a ∈ (p.graph img limit entries).found.instructions)
    (ha : a ∈ (p.graph img limit entries).roots) :
    a ∈ (p.graph img limit entries).found.instructions := by
  rcases Exploration.mem_roots_iff.mp ha with hentry | hcall
  · exact h a hentry
  · exact hcall.2

/-- What a routine lists besides blocks are the addresses at which nothing is decoded. It lists
none of these exactly if all entries and all targets of edges are decoded. -/
theorem routinesAreBlocks_graph_iff (p : Processor) (img : Image) (limit : Nat)
    (entries : List Address) :
    let g := p.graph img limit entries
    (∀ r ∈ g.routines, ∀ a ∈ r.blocks,
      (∃ b ∈ g.blocks, b.start = a) ↔ a ∈ g.found.instructions) ∧
    (g.RoutinesAreBlocks ↔
      (∀ a ∈ entries, a ∈ g.found.instructions) ∧
      ∀ e ∈ g.found.edges, e.target ∈ g.found.instructions) := by
  intro g
  have hx : g.found.Faithful p img := p.explore_faithful img limit entries
  have hcover : g.found.Covered g.starts := p.explore_covered img limit entries
  have hroutines : g.routines = g.found.routines g.roots := p.routines_graph img limit entries
  have hblock : ∀ r ∈ g.routines, ∀ a ∈ r.blocks,
      (∃ b ∈ g.blocks, b.start = a) ↔ a ∈ g.found.instructions := by
    rw [hroutines]
    intro r hr a ha
    exact Exploration.exists_block_of_mem_routine_iff hcover hr ha
  refine ⟨hblock, ?_, ?_⟩
  · intro hall
    have hreached {entry c : Address} (hentry : entry ∈ entries)
        (h : g.found.Reaches entry c) : c ∈ g.found.instructions := by
      have hroot : entry ∈ g.roots := Exploration.mem_roots_iff.mpr (.inl hentry)
      obtain ⟨r, hr, rfl⟩ := Exploration.exists_routine (x := g.found) hroot
      refine Exploration.decoded_of_reaches hcover hr ?_ h
      rw [← hroutines] at hr
      intro a ha
      exact (hblock r hr a ha).mp (hall r hr a ha)
    constructor
    · intro a ha
      exact hreached ha .refl
    · intro e he
      have hvisited : g.found.isVisited e.source :=
        Exploration.isVisited_iff.mpr (.inl (hx.source_decoded he))
      obtain ⟨entry, hentry, hreach⟩ := (explore_traced hvisited).exists_reaches
      exact hreached hentry (hreach.tail ⟨e, he, rfl⟩)
  · intro h
    obtain ⟨hentries, htargets⟩ := h
    intro r hr a ha
    apply (hblock r hr a ha).mpr
    rw [hroutines] at hr
    have hentry : r.entry ∈ g.found.instructions :=
      root_decoded hentries (Exploration.entry_mem_seeds hr)
    exact Exploration.decoded_of_mem_routine hcover hentry htargets hr ha

/-- A call out of memory: the routine lists the target, where there is no block. -/
theorem not_routinesAreBlocks_unmapped_call :
    let g := (Processor.standard {}).graph (Image.single 0 #[0x47, 0, 0x10, 0, 0, 1]) 100 [0]
    ¬ g.RoutinesAreBlocks ∧ (∃ r ∈ g.routines, r.entry = 0 ∧ 0x1000 ∈ r.blocks) ∧
      g.blocks = [⟨0, [0], 5⟩, ⟨5, [5], 6⟩] := by
  intro g
  have hblocks : g.blocks = [⟨0, [0], 5⟩, ⟨5, [5], 6⟩] := by decide +kernel
  have hroutine : ∃ r ∈ g.routines, r.entry = 0 ∧ 0x1000 ∈ r.blocks := by
    have hroot : 0 ∈ g.roots := by decide +kernel
    have hedge : ⟨0, 0x1000, .jump⟩ ∈ g.found.edges := by decide +kernel
    have hself : blockOf (g.found.owners g.starts) 0x1000 = 0x1000 := by decide +kernel
    obtain ⟨r, hr, hentry⟩ := Exploration.exists_routine (x := g.found) hroot
    have hreach : g.found.Reaches r.entry 0x1000 := by
      rw [hentry]
      exact .single ⟨_, hedge, rfl⟩
    have hlisted : blockOf (g.found.owners g.starts) 0x1000 ∈ r.blocks :=
      Exploration.blockOf_mem_routine hr hreach
    rw [hself] at hlisted
    exact ⟨r, hr, hentry, hlisted⟩
  refine ⟨?_, hroutine, hblocks⟩
  intro hall
  obtain ⟨r, hr, _, hlisted⟩ := hroutine
  obtain ⟨b, hb, hstart⟩ := hall r hr 0x1000 hlisted
  rw [hblocks] at hb
  simp only [List.mem_cons, List.not_mem_nil, or_false] at hb
  rcases hb with rfl | rfl
  · exact absurd hstart (by decide)
  · exact absurd hstart (by decide)

/-- No block is orphaned: each one belongs to a routine that begins at one of the entries, and
not only to routines that begin at the target of a call. -/
theorem block_mem_entry_routine (p : Processor) (img : Image) (limit : Nat)
    (entries : List Address) :
    let g := p.graph img limit entries
    ∀ b ∈ g.blocks, ∃ r ∈ g.routines, r.entry ∈ entries ∧ b.start ∈ r.blocks := by
  intro g b hb
  have hdecoded : b.start ∈ g.found.instructions := Exploration.start_decoded hb
  have htraced : g.found.Traced img entries b.start :=
    explore_traced (Exploration.isVisited_iff.mpr (.inl hdecoded))
  have hroots : ∀ c ∈ entries, c ∈ g.roots := fun c hc => Exploration.mem_roots_iff.mpr (.inl hc)
  obtain ⟨r, hr, hentry, hlisted⟩ := htraced.exists_routine hroots
  have hself : blockOf (g.found.owners (g.found.blockStarts g.roots)) b.start = b.start :=
    Exploration.blockOf_start hb
  rw [hself] at hlisted
  exact ⟨r, hr, hentry, hlisted⟩

/-- The block at 5 is the target of a call and a root by itself. The routine of the entry has it
nevertheless. -/
theorem block_mem_entry_routine_call :
    let g := (Processor.standard {}).graph
      (Image.single 0 #[0x45, 5, 0, 1, 0, 0x28, 0, 2]) 100 [0]
    (⟨5, [5, 7], 8⟩ : Block) ∈ g.blocks ∧ g.roots = [0, 5] ∧
      ∃ r ∈ g.routines, r.entry = 0 ∧ 5 ∈ r.blocks := by
  intro g
  have hb : (⟨5, [5, 7], 8⟩ : Block) ∈ g.blocks := by decide +kernel
  have hroots : g.roots = [0, 5] := by decide +kernel
  obtain ⟨r, hr, hentry, hlisted⟩ := block_mem_entry_routine _ _ _ _ _ hb
  exact ⟨hb, hroots, r, hr, List.mem_singleton.mp hentry, hlisted⟩

end Processor

end Disassembly
