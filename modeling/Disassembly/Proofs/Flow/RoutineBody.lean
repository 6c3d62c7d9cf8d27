import Disassembly.Proofs.Flow.Cover
import Disassembly.Proofs.Flow.Routine

namespace Disassembly

namespace Exploration

/-- Zero or more of the noted edges lead from one address to the other. -/
abbrev Reaches (x : Exploration) : Address → Address → Prop :=
  Relation.ReflTransGen (fun a b => ∃ e ∈ x.edges, e.link = (a, b))

/-- An edge leads from one block to the other. -/
abbrev Links (x : Exploration) (starts : AddressSet) (s t : Address) : Prop :=
  (s, t) ∈ (x.blockEdges (x.owners starts)).map Edge.link

variable {p : Processor} {img : Image} {x : Exploration} {starts : AddressSet} {e : Edge}
  {a b s t : Address}

theorem links_iff :
    x.Links starts s t ↔ ∃ e ∈ x.edges,
      ¬ ((x.owners starts)[e.target]? = some (blockOf (x.owners starts) e.source) ∧
        e.kind = .flow) ∧
      blockOf (x.owners starts) e.source = s ∧ blockOf (x.owners starts) e.target = t := by
  simp only [Links, blockEdges, List.mem_map, List.mem_filterMap, Array.mem_toList_iff,
    Edge.betweenBlocks?_eq_some_iff]
  constructor
  · intro h
    obtain ⟨f, ⟨e, he, hleaves, rfl⟩, hlink⟩ := h
    simp only [Edge.link, Prod.mk.injEq] at hlink
    exact ⟨e, he, hleaves, hlink⟩
  · intro h
    obtain ⟨e, he, hleaves, rfl, rfl⟩ := h
    exact ⟨_, ⟨e, he, hleaves, rfl⟩, rfl⟩

theorem blockOf_mem_owners_iff :
    blockOf (x.owners starts) a ∈ x.owners starts ↔ a ∈ x.owners starts := by
  by_cases ha : a ∈ x.owners starts
  · obtain ⟨s, hs⟩ := AddressMap.mem_iff.mp ha
    have howner : s ∈ x.owners starts := AddressMap.mem_iff.mpr ⟨s, getElem?_owners_owner hs⟩
    simp [blockOf_of_getElem? hs, howner, ha]
  · rw [blockOf_of_not_mem ha]

/-- Two addresses of one block are the same or are both owned by it. -/
theorem owner_of_blockOf_eq (h : blockOf (x.owners starts) a = blockOf (x.owners starts) b) :
    a = b ∨ ∃ start, (x.owners starts)[a]? = some start ∧ (x.owners starts)[b]? = some start := by
  have hboth : a ∈ x.owners starts ↔ b ∈ x.owners starts := by
    rw [← blockOf_mem_owners_iff, h, blockOf_mem_owners_iff]
  by_cases ha : a ∈ x.owners starts
  · obtain ⟨s, hs⟩ := AddressMap.mem_iff.mp ha
    obtain ⟨t, ht⟩ := AddressMap.mem_iff.mp (hboth.mp ha)
    rw [blockOf_of_getElem? hs, blockOf_of_getElem? ht] at h
    subst h
    exact .inr ⟨s, hs, ht⟩
  · have hb : b ∉ x.owners starts := fun hb => ha (hboth.mpr hb)
    rw [blockOf_of_not_mem ha, blockOf_of_not_mem hb] at h
    exact .inl h

theorem Faithful.reaches_of_chain (hx : x.Faithful p img) (h : x.Chain starts a b) :
    x.Reaches a b := by
  refine Relation.ReflTransGen.mono ?_ a b h
  intro c d hcd
  have hedge := (hx.edge_of_continues hcd ⟨c, d, .flow⟩).mpr rfl
  exact ⟨_, hedge.1, rfl⟩

/-- A block owns a first part of its chain, and control leaves that part from its last
instruction only. -/
theorem Faithful.chain_of_leaves (hx : x.Faithful p img) (he : e ∈ x.edges)
    (hleaves : ¬ ((x.owners starts)[e.target]? = some (blockOf (x.owners starts) e.source) ∧
      e.kind = .flow))
    (h : blockOf (x.owners starts) a = blockOf (x.owners starts) e.source) :
    x.Chain starts a e.source := by
  rcases owner_of_blockOf_eq h with rfl | ⟨start, ha, hs⟩
  · exact .refl
  · have hina := (getElem?_owners_iff.mp ha).1
    have hins := (getElem?_owners_iff.mp hs).1
    rcases Chain.total hina.chain hins.chain with hchain | hchain
    · exact hchain
    · rcases Relation.ReflTransGen.cases_head hchain with hsa | ⟨c, hcont, hca⟩
      · rw [hsa]
      · have hedge := (hx.edge_of_continues hcont e).mp ⟨he, rfl⟩
        have htarget : e.target = c := congrArg Edge.target hedge
        have hkind : e.kind = .flow := congrArg Edge.kind hedge
        have howner := getElem?_owners_of_chain ha (hins.chain.tail hcont) hca
        rw [htarget, blockOf_of_getElem? hs] at hleaves
        exact absurd ⟨howner, hkind⟩ hleaves

theorem links_of_reaches (h : x.Reaches a b) :
    Relation.ReflTransGen (x.Links starts) (blockOf (x.owners starts) a)
      (blockOf (x.owners starts) b) := by
  induction h with
  | refl => exact .refl
  | @tail b c _ hstep ih =>
    obtain ⟨e, he, hlink⟩ := hstep
    simp only [Edge.link, Prod.mk.injEq] at hlink
    obtain ⟨rfl, rfl⟩ := hlink
    by_cases hin : (x.owners starts)[e.target]? = some (blockOf (x.owners starts) e.source) ∧
        e.kind = .flow
    · rw [blockOf_of_getElem? hin.1]
      exact ih
    · exact ih.tail (links_iff.mpr ⟨e, he, hin, rfl, rfl⟩)

theorem Faithful.exists_of_links (hx : x.Faithful p img)
    (h : Relation.ReflTransGen (x.Links starts) (blockOf (x.owners starts) a) t) :
    ∃ b, x.Reaches a b ∧ blockOf (x.owners starts) b = t := by
  induction h with
  | refl => exact ⟨a, .refl, rfl⟩
  | @tail s t _ hlink ih =>
    obtain ⟨b, hab, rfl⟩ := ih
    obtain ⟨e, he, hleaves, hsource, rfl⟩ := links_iff.mp hlink
    have hchain := hx.chain_of_leaves he hleaves hsource.symm
    have hout : x.Reaches e.source e.target := .single ⟨e, he, rfl⟩
    exact ⟨e.target, (hab.trans (hx.reaches_of_chain hchain)).trans hout, rfl⟩

/-- A root is the head of its block, or it does not decode and stands for itself. -/
theorem blockOf_seed {seeds : List Address} (h : a ∈ seeds) :
    blockOf (x.owners (x.blockStarts seeds)) a = a := by
  by_cases ha : a ∈ x.instructions
  · have hstart : a ∈ x.blockStarts seeds := mem_blockStarts_iff.mpr ⟨ha, .inl h⟩
    exact blockOf_of_getElem? (getElem?_owners_of_mem_starts hstart ha)
  · exact blockOf_of_not_mem (fun hmem => ha (decoded_of_mem_owners hmem))

end Exploration

namespace Processor

/-- A routine consists of the blocks of all that control reaches from its entry, also where
blocks share their last instructions. -/
theorem routines_eq_reached (p : Processor) (img : Image) (limit : Nat) (entries : List Address) :
    let g := p.graph img limit entries
    g.routines.map Routine.entry = g.roots ∧
    ∀ r ∈ g.routines, r.blocks.Pairwise (· < ·) ∧
      ∀ b, b ∈ r.blocks ↔ ∃ a, g.found.Reaches r.entry a ∧ blockOf g.owners a = b := by
  intro g
  have hx := p.explore_faithful img limit entries
  have hentries : g.routines.map Routine.entry = g.roots := Routine.map_entry_along _ _
  refine ⟨hentries, ?_⟩
  intro r hr
  refine ⟨Routine.pairwise_blocks hr, ?_⟩
  have hroot : r.entry ∈ g.roots := by
    rw [← hentries]
    exact List.mem_map_of_mem hr
  have hself : blockOf (g.found.owners g.starts) r.entry = r.entry :=
    Exploration.blockOf_seed hroot
  intro b
  have hblocks : b ∈ r.blocks ↔ Relation.ReflTransGen (g.found.Links g.starts) r.entry b :=
    Routine.mem_blocks_iff hr
  rw [hblocks]
  constructor
  · intro h
    rw [← hself] at h
    exact hx.exists_of_links h
  · intro h
    obtain ⟨a, hreach, rfl⟩ := h
    have hlinks : Relation.ReflTransGen (g.found.Links g.starts)
        (blockOf (g.found.owners g.starts) r.entry) (blockOf (g.found.owners g.starts) a) :=
      Exploration.links_of_reaches hreach
    rw [hself] at hlinks
    exact hlinks

end Processor

end Disassembly
