import Disassembly.Proofs.Flow.BlockSpan

namespace Disassembly

namespace Block

/-- The block follows control from its start for as long as it only falls through: past every
instruction but the last it goes on, to no other start, and behind the last one it has to stop. -/
structure IsMaximal (x : Exploration) (starts : AddressSet) (b : Block) : Prop where
  chain : b.IsChain x
  inner : ∀ a ∈ b.body.tail, a ∉ starts
  straight : ∀ a ∈ b.body.dropLast, x.fallsThrough a ∧ ¬ x.isJumpSource a
  ended : ∀ a ∈ b.body.getLast?, x.isJumpSource a ∨ ¬ x.fallsThrough a ∨
    b.stop ∉ x.instructions ∨ b.stop ∈ starts

variable {x : Exploration} {starts : AddressSet} {a c stop : Address} {rest : List Address}

theorem isMaximal_singleton_iff :
    IsMaximal x starts ⟨a, [a], stop⟩ ↔ x.next? a = some stop ∧
      (x.isJumpSource a ∨ ¬ x.fallsThrough a ∨ stop ∉ x.instructions ∨ stop ∈ starts) := by
  constructor
  · intro h
    have hnext : x.next? a = some stop := by simpa [IsChain] using h.chain
    exact ⟨hnext, h.ended a rfl⟩
  · intro h
    obtain ⟨hnext, hended⟩ := h
    refine ⟨by simp [IsChain, hnext], by simp, by simp, ?_⟩
    rintro _ ⟨⟩
    exact hended

theorem isMaximal_cons_iff :
    IsMaximal x starts ⟨a, a :: c :: rest, stop⟩ ↔
      x.next? a = some c ∧ (x.fallsThrough a ∧ ¬ x.isJumpSource a) ∧ c ∉ starts ∧
        IsMaximal x starts ⟨c, c :: rest, stop⟩ := by
  constructor
  · intro h
    have hmap := h.chain.2
    simp only [List.map_cons, List.tail_cons, List.cons_append, List.cons.injEq] at hmap
    obtain ⟨hc, hinner⟩ := List.forall_mem_cons.mp h.inner
    obtain ⟨ha, hstraight⟩ := List.forall_mem_cons.mp h.straight
    exact ⟨hmap.1, ha, hc, ⟨rfl, hmap.2⟩, hinner, hstraight, h.ended⟩
  · intro h
    obtain ⟨hnext, ha, hc, hrest⟩ := h
    have hmap : (a :: c :: rest).map x.next? = (c :: rest ++ [stop]).map some := by
      rw [List.map_cons, hnext, hrest.chain.2]
      rfl
    exact ⟨⟨rfl, hmap⟩, List.forall_mem_cons.mpr ⟨hc, hrest.inner⟩,
      List.forall_mem_cons.mpr ⟨ha, hrest.straight⟩, hrest.ended⟩

end Block

namespace Exploration

variable {p : Processor} {img : Image} {x : Exploration} {starts : AddressSet}
  {a c stop stop' : Address} {rest rest' : List Address} {b : Block}

namespace Trail

theorem decoded (h : x.Trail starts a rest stop) : a ∈ x.instructions := by
  cases h with
  | last hi _ => exact AddressMap.mem_iff.mpr ⟨_, hi⟩
  | step goes _ =>
    obtain ⟨i, hi, _⟩ := goes.next
    exact AddressMap.mem_iff.mpr ⟨i, hi⟩

/-- There is one way to go on and one place to stop. -/
theorem unique (h : x.Trail starts a rest stop) (h' : x.Trail starts a rest' stop') :
    rest = rest' ∧ stop = stop' := by
  induction h generalizing rest' stop' with
  | last hi ends =>
    cases h' with
    | last hi' _ =>
      rw [hi] at hi'
      cases hi'
      exact ⟨rfl, rfl⟩
    | step goes' _ => exact absurd goes' (ends _)
  | step goes _ ih =>
    cases h' with
    | last _ ends' => exact absurd goes (ends' _)
    | step goes' trail' =>
      obtain rfl := goes.unique goes'
      obtain ⟨rfl, rfl⟩ := ih trail'
      exact ⟨rfl, rfl⟩

end Trail

namespace Faithful

/-- Addresses never wrap behind an instruction, so a block is not cut short for that. -/
theorem continues_iff (hx : x.Faithful p img) :
    x.Continues starts a c ↔ x.next? a = some c ∧ (x.fallsThrough a ∧ ¬ x.isJumpSource a) ∧
      c ∉ starts ∧ c ∈ x.instructions := by
  constructor
  · intro h
    exact ⟨next?_eq_some_iff.mpr h.next, ⟨h.falls, h.straight⟩, h.inner, h.decoded⟩
  · intro h
    obtain ⟨hnext, ⟨hfalls, hstraight⟩, hinner, hdecoded⟩ := h
    obtain ⟨i, hi, rfl⟩ := next?_eq_some_iff.mp hnext
    exact ⟨⟨i, hi, rfl⟩, hfalls, hstraight, hinner, hx.lt_next hi, hdecoded⟩

theorem not_continues_iff (hx : x.Faithful p img) (hnext : x.next? a = some stop) :
    (∀ c, ¬ x.Continues starts a c) ↔
      x.isJumpSource a ∨ ¬ x.fallsThrough a ∨ stop ∉ x.instructions ∨ stop ∈ starts := by
  have honly (c : Address) : x.Continues starts a c ↔ stop = c ∧
      (x.fallsThrough a ∧ ¬ x.isJumpSource a) ∧ c ∉ starts ∧ c ∈ x.instructions := by
    rw [hx.continues_iff, hnext, Option.some.injEq]
  simp only [honly]
  grind

/-- By induction on the rest of the body, one instruction at a time on either side. -/
theorem trail_iff_isMaximal (hx : x.Faithful p img) :
    x.Trail starts a rest stop ↔ Block.IsMaximal x starts ⟨a, a :: rest, stop⟩ := by
  induction rest generalizing a with
  | nil =>
    rw [Block.isMaximal_singleton_iff]
    constructor
    · intro h
      cases h with
      | @last _ i hi ends =>
        have hnext : x.next? a = some i.next := next?_eq_some_iff.mpr ⟨i, hi, rfl⟩
        exact ⟨hnext, (hx.not_continues_iff hnext).mp ends⟩
    · intro h
      obtain ⟨hnext, hended⟩ := h
      have hends := (hx.not_continues_iff hnext).mpr hended
      obtain ⟨i, hi, rfl⟩ := next?_eq_some_iff.mp hnext
      exact .last hi hends
  | cons c rest ih =>
    rw [Block.isMaximal_cons_iff, ← ih]
    constructor
    · intro h
      cases h with
      | step goes trail =>
        obtain ⟨hnext, hstraight, hinner, _⟩ := hx.continues_iff.mp goes
        exact ⟨hnext, hstraight, hinner, trail⟩
    · intro h
      obtain ⟨hnext, hstraight, hinner, htrail⟩ := h
      exact .step (hx.continues_iff.mpr ⟨hnext, hstraight, hinner, htrail.decoded⟩) htrail

/-- The blocks are the maximal chains from the starts. -/
theorem mem_blocks_iff_isMaximal (hx : x.Faithful p img) :
    b ∈ x.blocks starts ↔ b.start ∈ starts ∧ b.IsMaximal x starts := by
  constructor
  · intro hb
    obtain ⟨rest, hbody, htrail⟩ := exists_trail_of_mem_blocks hb
    obtain ⟨start, body, stop⟩ := b
    simp only at hbody htrail
    subst hbody
    exact ⟨(mem_blocks_iff.mp hb).1, hx.trail_iff_isMaximal.mp htrail⟩
  · intro h
    obtain ⟨hstart, hmax⟩ := h
    obtain ⟨rest, hbody⟩ := List.head?_eq_some_iff.mp hmax.chain.1
    have htrail : x.Trail starts b.start rest b.stop := by
      apply hx.trail_iff_isMaximal.mpr
      rwa [← hbody]
    -- the start has some block, and that goes the same way
    obtain ⟨c, hc, hcs⟩ := exists_block_of_mem hstart htrail.decoded
    obtain ⟨rest', hbody', htrail'⟩ := exists_trail_of_mem_blocks hc
    rw [hcs] at htrail' hbody'
    obtain ⟨rfl, hstop⟩ := htrail.unique htrail'
    have hbc : b = c := by
      obtain ⟨start, body, stop⟩ := b
      obtain ⟨start', body', stop'⟩ := c
      simp only at hbody hbody' hstop hcs
      rw [hbody, hbody', hstop, hcs]
    rw [hbc]
    exact hc

end Faithful

theorem exists_block_iff :
    (∃ b ∈ x.blocks starts, b.start = a) ↔ a ∈ starts ∧ a ∈ x.instructions := by
  constructor
  · intro h
    obtain ⟨b, hb, rfl⟩ := h
    obtain ⟨rest, _, htrail⟩ := exists_trail_of_mem_blocks hb
    exact ⟨(mem_blocks_iff.mp hb).1, htrail.decoded⟩
  · intro h
    exact exists_block_of_mem h.1 h.2

end Exploration

namespace Processor

/-- Whatever the starts, an exploration has one block for each decoded one, by ascending address.
The blocks are the maximal chains from there, and of all blocks with an instruction the one with
the greatest start owns it. -/
theorem blocks_follow_chains (p : Processor) (img : Image) (limit : Nat) (entries : List Address)
    (starts : AddressSet) :
    let x := p.explore img limit entries
    let blocks := x.blocks starts
    let owners := Block.owners blocks
    blocks.Pairwise (fun b c => b.start < c.start) ∧
    (∀ s, (∃ b ∈ blocks, b.start = s) ↔ s ∈ starts ∧ s ∈ x.instructions) ∧
    (∀ b, b ∈ blocks ↔ b.start ∈ starts ∧ b.IsMaximal x starts) ∧
    (∀ b ∈ blocks, b.start < b.stop) ∧
    (∀ a, a ∈ owners ↔ ∃ b ∈ blocks, a ∈ b.body) ∧
    (∀ a s, owners[a]? = some s ↔
      ∃ b ∈ blocks, b.start = s ∧ a ∈ b.body ∧ ∀ c ∈ blocks, a ∈ c.body → c.start ≤ s) := by
  intro x blocks owners
  have hx : x.Faithful p img := p.explore_faithful img limit entries
  have hascending : blocks.Pairwise (fun b c => b.start < c.start) := x.pairwise_blocks starts
  refine ⟨hascending, ?_, ?_, ?_, ?_, ?_⟩
  · intro s
    exact Exploration.exists_block_iff
  · intro b
    exact hx.mem_blocks_iff_isMaximal
  · intro b hb
    exact hx.start_lt_stop hb
  · intro a
    exact Block.mem_owners_iff blocks a
  · intro a s
    exact Block.getElem?_owners_iff blocks hascending a s

end Processor

end Disassembly
