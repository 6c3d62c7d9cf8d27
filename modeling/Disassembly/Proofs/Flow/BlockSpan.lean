import Disassembly.Listing.Report
import Disassembly.Proofs.Flow.Placement

namespace Disassembly

namespace Exploration

variable {p : Processor} {img : Image} {x : Exploration} {starts : AddressSet} {a c : Address}
  {i : Instruction} {b : Block}

theorem next?_eq_some_iff :
    x.next? a = some c ↔ ∃ i, x.instructions[a]? = some i ∧ i.next = c := by
  simp [next?]

namespace Faithful

/-- By induction along the chain: where one instruction ends the next one begins, so together
they take up all bytes from the first address to the end. -/
theorem span_iff (hx : x.Faithful p img) (rest : List Address) (a stop : Address)
    (h : (a :: rest).map x.next? = (rest ++ [stop]).map some) :
    a < stop ∧ ∀ c, a ≤ c ∧ c < stop ↔
      ∃ d ∈ a :: rest, ∃ i, x.instructions[d]? = some i ∧ i.Covers c := by
  induction rest generalizing a with
  | nil =>
    obtain ⟨i, hi, rfl⟩ := next?_eq_some_iff.mp (by simpa using h)
    refine ⟨hx.lt_next hi, ?_⟩
    intro c
    simp [hi, hx.covers_iff hi]
  | cons d rest ih =>
    simp only [List.map_cons, List.cons_append, List.cons.injEq] at h
    obtain ⟨hd, hrest⟩ := h
    obtain ⟨i, hi, rfl⟩ := next?_eq_some_iff.mp hd
    obtain ⟨hlt, hspan⟩ := ih i.next (by simpa using hrest)
    have ha := hx.lt_next hi
    refine ⟨UInt32.lt_trans ha hlt, ?_⟩
    intro c
    have hsplit : a ≤ c ∧ c < stop ↔ (a ≤ c ∧ c < i.next) ∨ (i.next ≤ c ∧ c < stop) := by
      simp only [UInt32.le_iff_toNat_le, UInt32.lt_iff_toNat_lt] at ha hlt ⊢
      omega
    rw [hsplit, hspan, List.exists_mem_cons_iff (a := a)]
    simp [hi, hx.covers_iff hi]

theorem start_lt_stop (hx : x.Faithful p img) (hb : b ∈ x.blocks starts) : b.start < b.stop := by
  obtain ⟨⟨hhead, hmap⟩, _⟩ := isChain_of_mem_blocks hb
  obtain ⟨rest, hbody⟩ := List.head?_eq_some_iff.mp hhead
  rw [hbody] at hmap
  exact (hx.span_iff rest b.start b.stop hmap).1

theorem mem_span_iff (hx : x.Faithful p img) (hb : b ∈ x.blocks starts) :
    b.start ≤ c ∧ c < b.stop ↔
      ∃ a i, x.InBlock starts b.start a ∧ x.instructions[a]? = some i ∧ i.Covers c := by
  obtain ⟨⟨hhead, hmap⟩, _⟩ := isChain_of_mem_blocks hb
  obtain ⟨rest, hbody⟩ := List.head?_eq_some_iff.mp hhead
  rw [hbody] at hmap
  rw [(hx.span_iff rest b.start b.stop hmap).2, ← hbody]
  simp only [mem_body_iff hb]
  constructor
  · intro h
    obtain ⟨a, hin, i, hi, hcovers⟩ := h
    exact ⟨a, i, hin, hi, hcovers⟩
  · intro h
    obtain ⟨a, i, hin, hi, hcovers⟩ := h
    exact ⟨a, hin, i, hi, hcovers⟩

/-- Without overlaps what begins in the span of a block belongs to it. -/
theorem inBlock_iff_span (hx : x.Faithful p img) (h : ¬ x.Overlaps) (hb : b ∈ x.blocks starts)
    (hi : x.instructions[a]? = some i) :
    x.InBlock starts b.start a ↔ b.start ≤ a ∧ a < b.stop := by
  rw [hx.mem_span_iff hb]
  constructor
  · intro hin
    exact ⟨a, i, hin, hi, hx.covers_first hi⟩
  · intro hspan
    obtain ⟨d, j, hin, hj, hcovers⟩ := hspan
    rwa [eq_of_covers h hi hj (hx.covers_first hi) hcovers]

theorem owner_iff_span (hx : x.Faithful p img) (h : ¬ x.Overlaps) (hb : b ∈ x.blocks starts)
    (hi : x.instructions[a]? = some i) :
    (x.owners starts)[a]? = some b.start ↔ b.start ≤ a ∧ a < b.stop := by
  rw [← hx.inBlock_iff_span h hb hi]
  constructor
  · intro howner
    exact (getElem?_owners_iff.mp howner).1
  · intro hin
    refine getElem?_owners_of_unique hin ?_
    intro other hother
    exact hx.inBlock_unique (fun _ _ hmerge => absurd hmerge (hx.not_merges h)) hother hin

/-- A block that began before another one ends could only have its start inside. -/
theorem pairwise_spans (hx : x.Faithful p img) (h : ¬ x.Overlaps) (starts : AddressSet) :
    (x.blocks starts).Pairwise (fun b c => b.stop ≤ c.start) := by
  refine (x.pairwise_blocks starts).imp_of_mem ?_
  intro b c hb hc hlt
  by_contra hstop
  obtain ⟨hstart, hblock⟩ := mem_blocks_iff.mp hc
  obtain ⟨i, hi, _⟩ := block?_eq_some_iff.mp hblock
  have hin : x.InBlock starts b.start c.start :=
    (hx.inBlock_iff_span h hb hi).mpr ⟨UInt32.le_of_lt hlt, UInt32.not_le.mp hstop⟩
  rw [hin.chain.eq_of_mem_starts hstart] at hlt
  exact UInt32.lt_irrefl _ hlt

theorem exists_span_iff (hx : x.Faithful p img) (hcover : x.Covered starts) :
    (∃ b ∈ x.blocks starts, b.start ≤ c ∧ c < b.stop) ↔ ∃ i ∈ x.code, i.Covers c := by
  constructor
  · intro h
    obtain ⟨b, hb, hspan⟩ := h
    obtain ⟨a, i, _, hi, hcovers⟩ := (hx.mem_span_iff hb).mp hspan
    exact ⟨i, mem_code_iff.mpr ⟨a, hi⟩, hcovers⟩
  · intro h
    obtain ⟨i, hmem, hcovers⟩ := h
    obtain ⟨a, hi⟩ := mem_code_iff.mp hmem
    obtain ⟨start, hin⟩ := hcover a (AddressMap.mem_iff.mpr ⟨i, hi⟩)
    obtain ⟨b, hb, rfl⟩ := exists_block_of_mem hin.start_mem hin.decoded
    exact ⟨b, hb, (hx.mem_span_iff hb).mpr ⟨a, i, hin, hi, hcovers⟩⟩

end Faithful

end Exploration

theorem toNat_add_ofNat_of_lt {a b : Address} {k : Nat} (h : k < b.toNat - a.toNat) :
    (a + UInt32.ofNat k).toNat = a.toNat + k := by
  have hb := b.toNat_lt_size
  exact toNat_add_ofNat (by omega)

namespace Report

variable {p : Processor} {img : Image} {r : Report} {b : Block} {i : Instruction}

theorem mem_blockInstructions_iff :
    i ∈ r.blockInstructions b ↔
      ∃ a, (b.start ≤ a ∧ a < b.stop) ∧ r.graph.found.instructions[a]? = some i := by
  simp only [blockInstructions, List.mem_filterMap, List.mem_range, UInt32.le_iff_toNat_le,
    UInt32.lt_iff_toNat_lt]
  constructor
  · intro h
    obtain ⟨k, hk, hi⟩ := h
    have ha := toNat_add_ofNat_of_lt hk
    exact ⟨b.start + UInt32.ofNat k, ⟨by omega, by omega⟩, hi⟩
  · intro h
    obtain ⟨a, ⟨hstart, hstop⟩, hi⟩ := h
    have hk : a.toNat - b.start.toNat < b.stop.toNat - b.start.toNat := by omega
    have ha : b.start + UInt32.ofNat (a.toNat - b.start.toNat) = a := by
      apply UInt32.toNat_inj.mp
      rw [toNat_add_ofNat_of_lt hk]
      omega
    refine ⟨a.toNat - b.start.toNat, hk, ?_⟩
    rw [ha]
    exact hi

theorem pairwise_blockInstructions (hx : r.graph.found.Faithful p img) (b : Block) :
    (r.blockInstructions b).Pairwise (fun i j => i.address < j.address) := by
  rw [blockInstructions, List.pairwise_filterMap]
  refine List.pairwise_lt_range.imp_of_mem ?_
  intro k l hk hl hkl i hi j hj
  have hik := toNat_add_ofNat_of_lt (List.mem_range.mp hk)
  have hjl := toNat_add_ofNat_of_lt (List.mem_range.mp hl)
  rw [hx.address_eq hi, hx.address_eq hj, UInt32.lt_iff_toNat_lt]
  omega

theorem blockInstructions_eq_filter (hx : r.graph.found.Faithful p img)
    (howner : ∀ (a : Address) (i : Instruction), r.graph.found.instructions[a]? = some i →
      (r.graph.owners[a]? = some b.start ↔ b.start ≤ a ∧ a < b.stop)) :
    r.blockInstructions b =
      r.graph.found.code.filter fun i => r.graph.owners[i.address]? = some b.start := by
  refine Instruction.eq_of_ascending (pairwise_blockInstructions hx b)
    (hx.pairwise_code.filter _) ?_
  intro i
  rw [mem_blockInstructions_iff, List.mem_filter, Exploration.mem_code_iff, decide_eq_true_eq]
  constructor
  · intro h
    obtain ⟨a, hspan, hi⟩ := h
    rw [hx.address_eq hi]
    exact ⟨⟨a, hi⟩, (howner a i hi).mpr hspan⟩
  · intro h
    obtain ⟨⟨a, hi⟩, hmap⟩ := h
    rw [hx.address_eq hi] at hmap
    exact ⟨a, (howner a i hi).mp hmap, hi⟩

theorem flatMap_blockInstructions (hx : r.graph.found.Faithful p img)
    (hspans : r.graph.blocks.Pairwise (fun b c => b.stop ≤ c.start))
    (hcover : ∀ c, (∃ b ∈ r.graph.blocks, b.start ≤ c ∧ c < b.stop) ↔
      ∃ i ∈ r.graph.found.code, i.Covers c) :
    r.graph.blocks.flatMap r.blockInstructions = r.graph.found.code := by
  refine Instruction.eq_of_ascending ?_ hx.pairwise_code ?_
  · rw [List.pairwise_flatMap]
    refine ⟨fun b _ => pairwise_blockInstructions hx b, hspans.imp ?_⟩
    intro b c hbc i hi j hj
    obtain ⟨a, hab, hi⟩ := mem_blockInstructions_iff.mp hi
    obtain ⟨d, hdc, hj⟩ := mem_blockInstructions_iff.mp hj
    rw [hx.address_eq hi, hx.address_eq hj]
    exact UInt32.lt_of_lt_of_le hab.2 (UInt32.le_trans hbc hdc.1)
  · intro i
    simp only [List.mem_flatMap, mem_blockInstructions_iff]
    constructor
    · intro h
      obtain ⟨_, _, a, _, hi⟩ := h
      exact Exploration.mem_code_iff.mpr ⟨a, hi⟩
    · intro hmem
      obtain ⟨a, hi⟩ := Exploration.mem_code_iff.mp hmem
      obtain ⟨b, hb, hspan⟩ := (hcover a).mpr ⟨i, hmem, hx.covers_first hi⟩
      exact ⟨b, hb, a, hspan, hi⟩

end Report

namespace Processor

/-- Unless decoded instructions overlap, the blocks lie one behind the other, they take up the
bytes of the decoded instructions and no others, and a report lists under each block the
instructions that it owns, so that all of its blocks together list each instruction once. -/
theorem blocks_tile (p : Processor) (img : Image) (limit : Nat) (entries : List Address)
    (page : Page) (labels : Labels) :
    let g := p.graph img limit entries
    let r : Report := ⟨page, entries, g, labels⟩
    g.found.Overlaps ∨
      ((∀ b ∈ g.blocks, b.start < b.stop) ∧
       g.blocks.Pairwise (fun b c => b.stop ≤ c.start) ∧
       (∀ c, (∃ b ∈ g.blocks, b.start ≤ c ∧ c < b.stop) ↔ ∃ i ∈ g.found.code, i.Covers c) ∧
       (∀ b ∈ g.blocks, r.blockInstructions b =
          g.found.code.filter fun i => g.owners[i.address]? = some b.start) ∧
       g.blocks.flatMap r.blockInstructions = g.found.code) := by
  intro g r
  have hx : g.found.Faithful p img := p.explore_faithful img limit entries
  have hcover : g.found.Covered g.starts := p.explore_covered img limit entries
  by_cases h : g.found.Overlaps
  · exact .inl h
  · have hspans : g.blocks.Pairwise (fun b c => b.stop ≤ c.start) := hx.pairwise_spans h g.starts
    have hbytes (c : Address) : (∃ b ∈ g.blocks, b.start ≤ c ∧ c < b.stop) ↔
        ∃ i ∈ g.found.code, i.Covers c := hx.exists_span_iff hcover
    refine .inr ⟨fun b hb => hx.start_lt_stop hb, hspans, hbytes, ?_,
      Report.flatMap_blockInstructions (r := r) hx hspans hbytes⟩
    intro b hb
    exact Report.blockInstructions_eq_filter (r := r) hx fun a i hi => hx.owner_iff_span h hb hi

/-- A loop of two instructions between the instruction before it and the one behind it. -/
theorem blocks_tile_loop :
    let p := Processor.standard {}
    let img := Image.single 0 #[0x11, 0, 3, 0, 0, 0, 0x29, 0, 0x42, 6, 0, 1, 0xff]
    let g := p.graph img 100 [0]
    let r : Report := ⟨⟨p, img, fun _ => none, false, false⟩, [0], g, ∅⟩
    ¬ g.found.Overlaps ∧ g.blocks = [⟨0, [0], 6⟩, ⟨6, [6, 8], 11⟩, ⟨11, [11], 12⟩] ∧
      g.blocks.flatMap r.blockInstructions = g.found.code := by
  intro p img g r
  have hx : g.found.Faithful p img := p.explore_faithful _ _ _
  have hno : ¬ g.found.Overlaps := hx.not_overlaps_iff.mpr (by decide +kernel)
  have htile := (blocks_tile p img 100 [0] r.page ∅).resolve_left hno
  exact ⟨hno, by decide +kernel, htile.2.2.2.2⟩

end Processor

end Disassembly
