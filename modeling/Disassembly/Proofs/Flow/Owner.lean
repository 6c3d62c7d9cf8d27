import Disassembly.Proofs.Flow.Chain
import Mathlib.Data.List.Induction

namespace Disassembly

theorem blockOf_of_getElem? {owners : AddressMap Address} {a start : Address}
    (h : owners[a]? = some start) : blockOf owners a = start := by
  unfold blockOf
  rw [Std.ExtTreeMap.getD_eq_getD_getElem?, h]
  rfl

theorem blockOf_of_not_mem {owners : AddressMap Address} {a : Address} (h : a ∉ owners) :
    blockOf owners a = a :=
  Std.ExtTreeMap.getD_eq_fallback h

theorem Edge.betweenBlocks?_eq_some_iff {owners : AddressMap Address} {e f : Edge} :
    e.betweenBlocks? owners = some f ↔
      ¬ (owners[e.target]? = some (blockOf owners e.source) ∧ e.kind = .flow) ∧
      f = ⟨blockOf owners e.source, blockOf owners e.target, e.kind⟩ := by
  unfold betweenBlocks?
  by_cases h : owners[e.target]? = some (blockOf owners e.source) ∧ e.kind = .flow
  · simp [h]
  · rw [if_neg h]
    constructor
    · intro hf
      exact ⟨h, (Option.some.inj hf).symm⟩
    · intro hf
      rw [hf.2]

namespace Block

theorem getElem?_foldl_insert (owners : AddressMap Address) (start : Address) (body : List Address)
    (a : Address) :
    (body.foldl (fun m c => m.insert c start) owners)[a]? =
      if a ∈ body then some start else owners[a]? := by
  induction body generalizing owners with
  | nil => simp
  | cons c body ih =>
    rw [List.foldl_cons, ih, AddressMap.getElem?_insert]
    by_cases ha : a ∈ body
    · simp [ha]
    · by_cases hc : c = a
      · simp [hc]
      · simp [ha, hc, Ne.symm hc]

theorem getElem?_owners_append (bs : List Block) (b : Block) (a : Address) :
    (owners (bs ++ [b]))[a]? = if a ∈ b.body then some b.start else (owners bs)[a]? := by
  unfold owners
  rw [List.foldl_append]
  exact getElem?_foldl_insert _ b.start b.body a

theorem mem_owners_iff (bs : List Block) (a : Address) :
    a ∈ owners bs ↔ ∃ b ∈ bs, a ∈ b.body := by
  rw [AddressMap.mem_iff]
  induction bs using List.reverseRecOn with
  | nil => simp [owners]
  | append_singleton bs b ih =>
    rw [getElem?_owners_append]
    by_cases ha : a ∈ b.body
    · simp [ha]
    · simp [ha, ih]

/-- Among blocks in ascending order the last one that holds an instruction owns it. -/
theorem getElem?_owners_iff (bs : List Block)
    (hasc : bs.Pairwise (fun b c => b.start < c.start)) (a start : Address) :
    (owners bs)[a]? = some start ↔
      ∃ b ∈ bs, b.start = start ∧ a ∈ b.body ∧ ∀ c ∈ bs, a ∈ c.body → c.start ≤ start := by
  induction bs using List.reverseRecOn with
  | nil => simp [owners]
  | append_singleton bs b ih =>
    have hpair := List.pairwise_append.mp hasc
    have hlast (c : Block) (hc : c ∈ bs) : c.start < b.start := hpair.2.2 c hc b (by simp)
    rw [getElem?_owners_append]
    by_cases ha : a ∈ b.body
    · rw [if_pos ha]
      constructor
      · intro h
        refine ⟨b, by simp, Option.some.inj h, ha, ?_⟩
        intro c hc _
        rw [← Option.some.inj h]
        rcases List.mem_append.mp hc with hc | hc
        · exact UInt32.le_of_lt (hlast c hc)
        · rw [List.mem_singleton.mp hc]
          exact UInt32.le_refl _
      · intro h
        obtain ⟨c, hc, rfl, _, hmax⟩ := h
        rcases List.mem_append.mp hc with hc | hc
        · have hle := hmax b (by simp) ha
          exact absurd (UInt32.lt_of_lt_of_le (hlast c hc) hle) (UInt32.lt_irrefl _)
        · rw [List.mem_singleton.mp hc]
    · rw [if_neg ha, ih hpair.1]
      constructor
      · intro h
        obtain ⟨c, hc, hs, hac, hmax⟩ := h
        refine ⟨c, by simp [hc], hs, hac, ?_⟩
        intro d hd had
        rcases List.mem_append.mp hd with hd | hd
        · exact hmax d hd had
        · exact absurd (List.mem_singleton.mp hd ▸ had) ha
      · intro h
        obtain ⟨c, hc, hs, hac, hmax⟩ := h
        rcases List.mem_append.mp hc with hc | hc
        · exact ⟨c, hc, hs, hac, fun d hd => hmax d (by simp [hd])⟩
        · exact absurd (List.mem_singleton.mp hc ▸ hac) ha

end Block

namespace Exploration

/-- The start of the block of each instruction. -/
def owners (x : Exploration) (starts : AddressSet) : AddressMap Address :=
  Block.owners (x.blocks starts)

variable {x : Exploration} {starts : AddressSet} {start a b : Address}

theorem mem_owners_iff : a ∈ x.owners starts ↔ ∃ start, x.InBlock starts start a := by
  unfold owners
  rw [Block.mem_owners_iff]
  constructor
  · intro h
    obtain ⟨b, hb, ha⟩ := h
    exact ⟨b.start, (mem_body_iff hb).mp ha⟩
  · intro h
    obtain ⟨start, ha⟩ := h
    obtain ⟨b, hb, rfl⟩ := exists_block_of_mem ha.start_mem ha.decoded
    exact ⟨b, hb, (mem_body_iff hb).mpr ha⟩

/-- A turn of a loop that builds blocks and owners together: a start that has an owner is passed
over, and else the block from there on takes its instructions. -/
def addBlock (x : Exploration) (starts : AddressSet) (known : List Block × AddressMap Address)
    (start : Address) : List Block × AddressMap Address :=
  if known.2.contains start then known
  else match x.block? starts start with
    | some b => (known.1 ++ [b], b.claim known.2)
    | none => known

/-- No start is passed over: the blocks from other starts do not come to it. -/
theorem not_mem_owners_of_before {before : List Address}
    (h : before ++ [start] <+: starts.toList) :
    start ∉ Block.owners (before.filterMap (x.block? starts)) := by
  have hmem (a : Address) (ha : a ∈ before ++ [start]) : a ∈ starts :=
    Std.ExtTreeSet.mem_toList.mp (h.subset ha)
  have hordered := List.pairwise_append.mp (Std.ExtTreeSet.ordered_toList.sublist h.sublist)
  rw [Block.mem_owners_iff]
  rintro ⟨b, hb, hbody⟩
  obtain ⟨s, hs, hblock⟩ := List.mem_filterMap.mp hb
  obtain ⟨i, -, rfl⟩ := block?_eq_some_iff.mp hblock
  have hstarts : s ∈ starts := hmem s (List.mem_append_left _ hs)
  have hmemBlocks : x.blockFrom starts s [] s i ∈ x.blocks starts := by
    rw [mem_blocks_iff, start_blockFrom]
    exact ⟨hstarts, hblock⟩
  have hin := (mem_body_iff hmemBlocks).mp hbody
  rw [start_blockFrom] at hin
  have hlt : s < start := Std.compare_eq_lt.mp (hordered.2.2 s hs start List.mem_cons_self)
  have heq : s = start := Chain.eq_of_mem_starts hin.chain (hmem start (by simp))
  exact UInt32.lt_irrefl start (heq ▸ hlt)

theorem foldl_addBlock_of_prefix {before : List Address} (h : before <+: starts.toList) :
    before.foldl (x.addBlock starts) ([], ∅) =
      (before.filterMap (x.block? starts), Block.owners (before.filterMap (x.block? starts))) := by
  induction before using List.reverseRecOn with
  | nil => rfl
  | append_singleton before start ih =>
    have hfree := not_mem_owners_of_before (x := x) h
    rw [Std.ExtTreeMap.mem_iff_contains] at hfree
    rw [List.foldl_append, ih ((List.prefix_append before [start]).trans h), List.foldl_cons,
      List.foldl_nil, addBlock, if_neg hfree, List.filterMap_append]
    cases hblock : x.block? starts start with
    | none => simp [hblock]
    | some b => simp [hblock, Block.owners]

/-- Building blocks and owners in one loop over the starts gives the same blocks and owners. -/
theorem foldl_addBlock (x : Exploration) (starts : AddressSet) :
    starts.toList.foldl (x.addBlock starts) ([], ∅) = (x.blocks starts, x.owners starts) :=
  foldl_addBlock_of_prefix (List.prefix_refl _)

/-- Where blocks share an instruction, the one with the greatest start owns it. -/
theorem getElem?_owners_iff :
    (x.owners starts)[a]? = some start ↔
      x.InBlock starts start a ∧ ∀ other, x.InBlock starts other a → other ≤ start := by
  unfold owners
  rw [Block.getElem?_owners_iff _ (x.pairwise_blocks starts)]
  constructor
  · intro h
    obtain ⟨b, hb, rfl, ha, hmax⟩ := h
    refine ⟨(mem_body_iff hb).mp ha, ?_⟩
    intro other hother
    obtain ⟨c, hc, rfl⟩ := exists_block_of_mem hother.start_mem hother.decoded
    exact hmax c hc ((mem_body_iff hc).mpr hother)
  · intro h
    obtain ⟨hin, hmax⟩ := h
    obtain ⟨b, hb, rfl⟩ := exists_block_of_mem hin.start_mem hin.decoded
    exact ⟨b, hb, rfl, (mem_body_iff hb).mpr hin,
      fun c hc hac => hmax c.start ((mem_body_iff hc).mp hac)⟩

theorem decoded_of_mem_owners (h : a ∈ x.owners starts) : a ∈ x.instructions := by
  obtain ⟨start, hin⟩ := mem_owners_iff.mp h
  exact Chain.decoded hin.chain hin.decoded

theorem getElem?_owners_of_unique (h : x.InBlock starts start a)
    (hunique : ∀ other, x.InBlock starts other a → other = start) :
    (x.owners starts)[a]? = some start := by
  refine getElem?_owners_iff.mpr ⟨h, ?_⟩
  intro other hother
  rw [hunique other hother]
  exact UInt32.le_refl start

theorem getElem?_owners_of_mem_starts (hmem : a ∈ starts) (hdecoded : a ∈ x.instructions) :
    (x.owners starts)[a]? = some a :=
  getElem?_owners_of_unique ⟨hmem, hdecoded, .refl⟩
    (fun _ hother => Chain.eq_of_mem_starts hother.chain hmem)

theorem getElem?_owners_owner (h : (x.owners starts)[a]? = some start) :
    (x.owners starts)[start]? = some start := by
  obtain ⟨hin, _⟩ := getElem?_owners_iff.mp h
  exact getElem?_owners_of_mem_starts hin.start_mem hin.decoded

/-- What a block owns of its chain, it owns from the start of the chain on. -/
theorem getElem?_owners_of_chain (h : (x.owners starts)[b]? = some start)
    (hsa : x.Chain starts start a) (hab : x.Chain starts a b) :
    (x.owners starts)[a]? = some start := by
  obtain ⟨hin, hmax⟩ := getElem?_owners_iff.mp h
  refine getElem?_owners_iff.mpr ⟨⟨hin.start_mem, hin.decoded, hsa⟩, ?_⟩
  intro other hother
  exact hmax other ⟨hother.start_mem, hother.decoded, hother.chain.trans hab⟩

end Exploration

end Disassembly
