import Disassembly.Proofs.Flow.EdgeRecord
import Disassembly.Proofs.Flow.Label
import Disassembly.Proofs.Flow.Reachability
import Disassembly.Proofs.Flow.RoutineBlock

namespace Disassembly

namespace Exploration

/-- The explorations have found the same, though perhaps in another order. -/
structure SameFindings (x y : Exploration) : Prop where
  instructions : x.instructions = y.instructions
  data : x.data = y.data
  callTargets : x.callTargets = y.callTargets
  jumpSources : x.jumpSources = y.jumpSources
  flowSources : x.flowSources = y.flowSources
  edges : x.edges.toList.Perm y.edges.toList

variable {p : Processor} {img : Image} {x y : Exploration}

theorem Faithful.instructions_eq (hx : x.Faithful p img) (hy : y.Faithful p img)
    (hvisited : ∀ a, x.isVisited a ↔ y.isVisited a) : x.instructions = y.instructions := by
  apply Std.ExtTreeMap.ext_getElem?
  intro a
  apply Option.ext
  intro i
  constructor
  · intro hi
    have hv : x.isVisited a := isVisited_iff.mpr (.inl (AddressMap.mem_iff.mpr ⟨i, hi⟩))
    exact hy.getElem?_of_decode ((hvisited a).mp hv) (hx.decodes a i hi)
  · intro hi
    have hv : y.isVisited a := isVisited_iff.mpr (.inl (AddressMap.mem_iff.mpr ⟨i, hi⟩))
    exact hx.getElem?_of_decode ((hvisited a).mpr hv) (hy.decodes a i hi)

theorem Faithful.data_eq (hx : x.Faithful p img) (hy : y.Faithful p img)
    (hvisited : ∀ a, x.isVisited a ↔ y.isVisited a) : x.data = y.data := by
  apply Std.ExtTreeSet.ext_mem
  intro a
  constructor
  · intro ha
    obtain ⟨err, herr⟩ := hx.fails a ha
    exact hy.mem_data_of_decode ((hvisited a).mp (isVisited_iff.mpr (.inr ha))) herr
  · intro ha
    obtain ⟨err, herr⟩ := hy.fails a ha
    exact hx.mem_data_of_decode ((hvisited a).mpr (isVisited_iff.mpr (.inr ha))) herr

namespace SameFindings

/-- All records of an exploration follow from the addresses that it has visited. -/
theorem of_isVisited_iff (hx : x.Faithful p img) (hx' : x.Exact p img) (hy : y.Faithful p img)
    (hy' : y.Exact p img) (hvisited : ∀ a, x.isVisited a ↔ y.isVisited a) : x.SameFindings y := by
  have hinstructions := hx.instructions_eq hy hvisited
  have hedges (e : Edge) : e ∈ x.edges ↔ e ∈ y.edges := by
    rw [hx.edges, hy.edges, hinstructions]
  have hsources (k : EdgeKind) : x.sources k = y.sources k := by
    apply Std.ExtTreeSet.ext_mem
    intro a
    simp only [hx.sources, hy.sources, hedges]
  refine ⟨hinstructions, hx.data_eq hy hvisited, ?_, hsources .jump, hsources .flow, ?_⟩
  · apply Std.ExtTreeSet.ext_mem
    intro t
    simp only [hx'.calls, hy'.calls, hedges, IsCall, hinstructions]
  · apply (List.perm_ext_iff_of_nodup hx'.nodup hy'.nodup).mpr
    intro e
    simp only [Array.mem_toList_iff, hedges]

variable {entries entries' seeds seeds' : List Address} {starts : AddressSet} {a : Address}
  {i : Instruction}

theorem mem_edges_iff (h : x.SameFindings y) (e : Edge) : e ∈ x.edges ↔ e ∈ y.edges := by
  rw [← Array.mem_toList_iff, h.edges.mem_iff, Array.mem_toList_iff]

theorem isJumpSource_eq (h : x.SameFindings y) (a : Address) :
    x.isJumpSource a = y.isJumpSource a := by
  simp only [isJumpSource, h.jumpSources]

theorem fallsThrough_eq (h : x.SameFindings y) (a : Address) :
    x.fallsThrough a = y.fallsThrough a := by
  simp only [fallsThrough, h.flowSources]

theorem roots_iff (h : x.SameFindings y) (hentries : ∀ a, a ∈ entries ↔ a ∈ entries')
    (a : Address) : a ∈ x.roots entries ↔ a ∈ y.roots entries' := by
  rw [mem_roots_iff, mem_roots_iff, hentries, h.callTargets, h.instructions]

theorem blockStarts_eq (h : x.SameFindings y) (hseeds : ∀ a, a ∈ seeds ↔ a ∈ seeds') :
    x.blockStarts seeds = y.blockStarts seeds' := by
  apply Std.ExtTreeSet.ext_mem
  intro a
  simp only [mem_blockStarts_iff, hseeds, h.instructions, h.mem_edges_iff, h.isJumpSource_eq]

theorem continuation?_eq (h : x.SameFindings y) :
    x.continuation? starts a i = y.continuation? starts a i := by
  simp only [continuation?, h.fallsThrough_eq, h.isJumpSource_eq, h.instructions]

theorem blockFrom_eq (h : x.SameFindings y) (start : Address) (body : List Address) :
    x.blockFrom starts start body a i = y.blockFrom starts start body a i := by
  fun_induction blockFrom x starts start body a i with
  | case1 body a i j hj ih =>
    rw [h.continuation?_eq] at hj
    rw [ih, blockFrom.eq_1 y starts start body a i]
    split
    · next k hk =>
      rw [hj] at hk
      cases hk
      rfl
    · next hk =>
      rw [hj] at hk
      cases hk
  | case2 body a i hj =>
    rw [h.continuation?_eq] at hj
    rw [blockFrom]
    split
    · next k hk =>
      rw [hj] at hk
      cases hk
    · rfl

theorem blocks_eq (h : x.SameFindings y) : x.blocks starts = y.blocks starts := by
  have hblock (s : Address) : x.block? starts s = y.block? starts s := by
    simp only [block?, h.instructions]
    cases y.instructions[s]? with
    | none => rfl
    | some i => simp only [Option.map_some, h.blockFrom_eq]
  simp only [blocks, funext hblock]

theorem perm_blockEdges (h : x.SameFindings y) (owners : AddressMap Address) :
    (x.blockEdges owners).Perm (y.blockEdges owners) :=
  h.edges.filterMap _

theorem jumpTargets_iff (h : x.SameFindings y) (a : Address) :
    a ∈ Labels.jumpTargets x ↔ a ∈ Labels.jumpTargets y := by
  simp only [Labels.jumpTargets, List.mem_map, List.mem_filter, h.edges.mem_iff, h.instructions]

theorem complete_eq (h : x.SameFindings y) {roots roots' : List Address}
    (hroots : ∀ a, a ∈ roots ↔ a ∈ roots') (known : Labels) (blocks : List Block) :
    known.complete roots blocks x = known.complete roots' blocks y := by
  simp only [Labels.complete]
  rw [Labels.nameAll_congr hroots, Labels.nameAll_congr h.jumpTargets_iff]

end SameFindings

end Exploration

namespace Graph

/-- The graphs say the same, though roots, edges and routines may come in another order, and roots
and routines more than once. -/
structure SameUpToOrder (g g' : Graph) : Prop where
  found : g.found.SameFindings g'.found
  roots : ∀ a, a ∈ g.roots ↔ a ∈ g'.roots
  starts : g.starts = g'.starts
  blocks : g.blocks = g'.blocks
  owners : g.owners = g'.owners
  edges : g.edges.Perm g'.edges
  routines : ∀ r, r ∈ g.routines ↔ r ∈ g'.routines
  bodies : ∀ r ∈ g.routines, ∀ r' ∈ g'.routines, r.entry = r'.entry → r.blocks = r'.blocks

theorem sameUpToOrder_ofExploration {x y : Exploration} (h : x.SameFindings y)
    {entries entries' : List Address} (hentries : ∀ a, a ∈ entries ↔ a ∈ entries') :
    (ofExploration x entries none).SameUpToOrder (ofExploration y entries' none) := by
  let g := ofExploration x entries none
  let g' := ofExploration y entries' none
  have hroots (a : Address) : a ∈ g.roots ↔ a ∈ g'.roots := h.roots_iff hentries a
  have hstarts : g.starts = g'.starts := h.blockStarts_eq hroots
  have hblocks : g.blocks = g'.blocks := by
    change x.blocks g.starts = y.blocks g'.starts
    rw [hstarts, h.blocks_eq]
  have howners : g.owners = g'.owners := congrArg Block.owners hblocks
  have hedges : g.edges.Perm g'.edges := by
    change (x.blockEdges g.owners).Perm (y.blockEdges g'.owners)
    rw [howners]
    exact h.perm_blockEdges g'.owners
  have hlinks (l : Address × Address) : l ∈ g.edges.map Edge.link ↔ l ∈ g'.edges.map Edge.link :=
    (hedges.map Edge.link).mem_iff
  refine ⟨h, hroots, hstarts, hblocks, howners, hedges, ?_, ?_⟩
  · intro r
    constructor
    · intro hr
      exact Routine.mem_along_of_mem hlinks (fun a => (hroots a).mp) hr
    · intro hr
      exact Routine.mem_along_of_mem (fun l => (hlinks l).symm) (fun a => (hroots a).mpr) hr
  · intro r hr r' hr' hentry
    exact Routine.blocks_eq_of_entry_eq hlinks hr hr' hentry

theorem SameUpToOrder.labels_eq {g g' : Graph} (h : g.SameUpToOrder g') (known : Labels) :
    g.labels known = g'.labels known := by
  simp only [labels, h.blocks]
  exact h.found.complete_eq h.roots known g'.blocks

end Graph

namespace Processor

/-- The order of the entries and their repetition do not matter to an exploration that ends below
its limit, nor to the graph and the labels that are made from it. -/
theorem graph_sameUpToOrder (p : Processor) (img : Image) {limit : Nat}
    {entries entries' : List Address} (hentries : ∀ a, a ∈ entries ↔ a ∈ entries')
    (hroom : (p.explore img limit entries).instructions.size < limit)
    (hroom' : (p.explore img limit entries').instructions.size < limit) :
    (p.graph img limit entries).SameUpToOrder (p.graph img limit entries') ∧
      ∀ known, (p.graph img limit entries).labels known =
        (p.graph img limit entries').labels known := by
  have hvisited (a : Address) : (p.explore img limit entries).isVisited a ↔
      (p.explore img limit entries').isVisited a := by
    rw [isVisited_explore_iff hroom, isVisited_explore_iff hroom']
    exact ⟨fun h => h.of_entries fun a => (hentries a).mp,
      fun h => h.of_entries fun a => (hentries a).mpr⟩
  have hfound : (p.explore img limit entries).SameFindings (p.explore img limit entries') :=
    .of_isVisited_iff (p.explore_faithful img limit entries) (p.explore_exact img limit entries)
      (p.explore_faithful img limit entries') (p.explore_exact img limit entries') hvisited
  have hgraph : (p.graph img limit entries).SameUpToOrder (p.graph img limit entries') :=
    Graph.sameUpToOrder_ofExploration hfound hentries
  exact ⟨hgraph, hgraph.labels_eq⟩

/-- The second entry is reached first, and twice: its edge is noted first, and the rest is as
before. -/
theorem graph_sameUpToOrder_swapped :
    let p := Processor.standard {}
    let img := Image.single 0 #[0x41, 6, 0, 0, 0x28, 0, 1]
    (p.graph img 100 [0, 4]).SameUpToOrder (p.graph img 100 [4, 0, 4]) ∧
      (p.graph img 100 [0, 4]).labels ∅ = (p.graph img 100 [4, 0, 4]).labels ∅ ∧
      (p.graph img 100 [0, 4]).edges ≠ (p.graph img 100 [4, 0, 4]).edges := by
  intro p img
  have hentries (a : Address) : a ∈ [0, 4] ↔ a ∈ [4, 0, 4] := by
    simp only [List.mem_cons, List.not_mem_nil, or_false]
    tauto
  have hroom : (p.explore img 100 [0, 4]).instructions.size < 100 := by decide +kernel
  have hroom' : (p.explore img 100 [4, 0, 4]).instructions.size < 100 := by decide +kernel
  obtain ⟨hgraph, hlabels⟩ := graph_sameUpToOrder p img hentries hroom hroom'
  exact ⟨hgraph, hlabels ∅, by decide +kernel⟩

end Processor

end Disassembly
