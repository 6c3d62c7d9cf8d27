import Disassembly.Flow.Block
import Mathlib.Logic.Relation

namespace Disassembly

namespace Exploration

/-- The block of the instruction at `a` goes on with the one at `b`. -/
structure Continues (x : Exploration) (starts : AddressSet) (a b : Address) : Prop where
  next : ∃ i, x.instructions[a]? = some i ∧ i.next = b
  falls : x.fallsThrough a
  straight : ¬ x.isJumpSource a
  inner : b ∉ starts
  ascends : a < b
  decoded : b ∈ x.instructions

/-- From `a` on, a block comes to `b`. -/
abbrev Chain (x : Exploration) (starts : AddressSet) : Address → Address → Prop :=
  Relation.ReflTransGen (x.Continues starts)

variable {x : Exploration} {starts : AddressSet} {a b c : Address} {i j : Instruction}

theorem Continues.unique (hb : x.Continues starts a b) (hc : x.Continues starts a c) : b = c := by
  obtain ⟨i, hi, rfl⟩ := hb.next
  obtain ⟨j, hj, rfl⟩ := hc.next
  rw [hi] at hj
  rw [Option.some.inj hj]

theorem continuation?_eq_some_iff (hi : x.instructions[a]? = some i) :
    x.continuation? starts a i = some j ↔
      x.Continues starts a i.next ∧ x.instructions[i.next]? = some j := by
  unfold continuation?
  constructor
  · intro h
    split at h
    · next hc =>
      simp only [Bool.and_eq_true, Bool.not_eq_true', decide_eq_true_eq] at hc
      obtain ⟨⟨⟨hfalls, hstraight⟩, hinner⟩, hlt⟩ := hc
      have hdecoded : i.next ∈ x.instructions := AddressMap.mem_iff.mpr ⟨j, h⟩
      refine ⟨⟨⟨i, hi, rfl⟩, hfalls, by simp [hstraight], ?_, hlt, hdecoded⟩, h⟩
      intro hmem
      rw [Std.ExtTreeSet.mem_iff_contains, hinner] at hmem
      cases hmem
    · cases h
  · intro h
    obtain ⟨hcont, hj⟩ := h
    have hinner : starts.contains i.next = false := by
      rw [Bool.eq_false_iff, ne_eq, ← Std.ExtTreeSet.mem_iff_contains]
      exact hcont.inner
    have hstraight : x.isJumpSource a = false := by
      simpa using hcont.straight
    simp [hcont.falls, hstraight, hinner, hcont.ascends, hj]

theorem continuation?_eq_none_iff (hi : x.instructions[a]? = some i) :
    x.continuation? starts a i = none ↔ ∀ b, ¬ x.Continues starts a b := by
  constructor
  · intro hnone b hcont
    obtain ⟨i', hi', rfl⟩ := hcont.next
    rw [hi] at hi'
    cases hi'
    obtain ⟨j, hj⟩ := AddressMap.mem_iff.mp hcont.decoded
    rw [(continuation?_eq_some_iff hi).mpr ⟨hcont, hj⟩] at hnone
    cases hnone
  · intro hend
    cases hj : x.continuation? starts a i with
    | none => rfl
    | some j => exact absurd ((continuation?_eq_some_iff hi).mp hj).1 (hend i.next)

namespace Chain

theorem decoded (h : x.Chain starts a b) (ha : a ∈ x.instructions) : b ∈ x.instructions := by
  induction h with
  | refl => exact ha
  | tail _ hcont _ => exact hcont.decoded

theorem le (h : x.Chain starts a b) : a ≤ b := by
  induction h with
  | refl => exact UInt32.le_refl a
  | tail _ hcont ih => exact UInt32.le_trans ih (UInt32.le_of_lt hcont.ascends)

/-- A chain comes to a start only where it begins. -/
theorem eq_of_mem_starts (h : x.Chain starts a b) (hb : b ∈ starts) : a = b := by
  cases h with
  | refl => rfl
  | tail _ hcont => exact absurd hb hcont.inner

/-- Of two addresses on a chain one comes before the other. -/
theorem total (hb : x.Chain starts a b) (hc : x.Chain starts a c) :
    x.Chain starts b c ∨ x.Chain starts c b :=
  Relation.ReflTransGen.total_of_right_unique (fun _ _ _ => Continues.unique) hb hc

/-- Addresses ascend along a chain, so it comes to an address from one place only. -/
theorem eq_of_continues {d : Address} (hc : x.Chain starts a c) (hd : x.Chain starts a d)
    (hcb : x.Continues starts c b) (hdb : x.Continues starts d b) : c = d := by
  have hback {c d : Address} (h : x.Chain starts c d) (hcb : x.Continues starts c b)
      (hdb : x.Continues starts d b) : c = d := by
    rcases Relation.ReflTransGen.cases_head h with hcd | ⟨e, hce, hed⟩
    · exact hcd
    · rw [hce.unique hcb] at hed
      exact absurd (UInt32.lt_of_le_of_lt (le hed) hdb.ascends) (UInt32.lt_irrefl b)
  rcases total hc hd with h | h
  · exact hback h hcb hdb
  · exact (hback h hdb hcb).symm

theorem iff_of_continues (hcont : x.Continues starts a b) :
    x.Chain starts a c ↔ c = a ∨ x.Chain starts b c := by
  constructor
  · intro h
    rcases Relation.ReflTransGen.cases_head h with rfl | ⟨d, hd, h⟩
    · exact .inl rfl
    · rw [hcont.unique hd]
      exact .inr h
  · intro h
    rcases h with rfl | h
    · exact .refl
    · exact .head hcont h

theorem iff_of_end (hend : ∀ b, ¬ x.Continues starts a b) : x.Chain starts a c ↔ c = a := by
  constructor
  · intro h
    rcases Relation.ReflTransGen.cases_head h with rfl | ⟨d, hd, _⟩
    · rfl
    · exact absurd hd (hend d)
  · intro h
    rw [h]

end Chain

theorem start_blockFrom (start : Address) (body : List Address) :
    (x.blockFrom starts start body a i).start = start := by
  fun_induction blockFrom x starts start body a i with
  | case1 body a i j hj ih => exact ih
  | case2 body a i hnone => rfl

/-- The address behind the instruction at `a`. -/
def next? (x : Exploration) (a : Address) : Option Address :=
  x.instructions[a]?.map Instruction.next

/-- From `a` on a block goes through `rest` and stops behind the last of these addresses. -/
inductive Trail (x : Exploration) (starts : AddressSet) : Address → List Address → Address → Prop
  | last {a : Address} {i : Instruction} (decoded : x.instructions[a]? = some i)
      (ends : ∀ b, ¬ x.Continues starts a b) : Trail x starts a [] i.next
  | step {a b stop : Address} {rest : List Address} (goes : x.Continues starts a b)
      (trail : Trail x starts b rest stop) : Trail x starts a (b :: rest) stop

namespace Trail

variable {rest : List Address} {stop : Address}

theorem map_next? (h : x.Trail starts a rest stop) :
    (a :: rest).map x.next? = (rest ++ [stop]).map some := by
  induction h with
  | last decoded _ => simp [next?, decoded]
  | step goes _ ih =>
    obtain ⟨i, hi, hnext⟩ := goes.next
    rw [List.map_cons, ih]
    simp [next?, hi, hnext]

theorem mem_iff (h : x.Trail starts a rest stop) : c ∈ a :: rest ↔ x.Chain starts a c := by
  induction h with
  | last _ ends => rw [Chain.iff_of_end ends, List.mem_singleton]
  | step goes _ ih => rw [List.mem_cons, ih, Chain.iff_of_continues goes]

theorem not_mem_starts (h : x.Trail starts a rest stop) : ∀ c ∈ rest, c ∉ starts := by
  induction h with
  | last _ _ => exact List.forall_mem_nil _
  | step goes _ ih => exact List.forall_mem_cons.mpr ⟨goes.inner, ih⟩

end Trail

theorem exists_trail_blockFrom (starts : AddressSet) (start : Address) (body : List Address)
    (hi : x.instructions[a]? = some i) :
    ∃ rest stop, x.blockFrom starts start body a i = ⟨start, body.reverse ++ a :: rest, stop⟩ ∧
      x.Trail starts a rest stop := by
  fun_induction blockFrom x starts start body a i with
  | case1 body a i j hj ih =>
    obtain ⟨hcont, hnext⟩ := (continuation?_eq_some_iff hi).mp hj
    obtain ⟨rest, stop, hblock, htrail⟩ := ih hnext
    refine ⟨i.next :: rest, stop, ?_, .step hcont htrail⟩
    rw [hblock]
    simp
  | case2 body a i hnone =>
    have hend := (continuation?_eq_none_iff hi).mp hnone
    exact ⟨[], i.next, by simp, .last hi hend⟩

end Exploration

namespace Block

/-- The body begins at the start, behind each of its instructions stands the next one, and
behind the last one the block stops. -/
def IsChain (x : Exploration) (b : Block) : Prop :=
  b.body.head? = some b.start ∧ b.body.map x.next? = (b.body.tail ++ [b.stop]).map some

end Block

namespace Exploration

/-- The instruction at `a` is in the block that begins at `start`. -/
structure InBlock (x : Exploration) (starts : AddressSet) (start a : Address) : Prop where
  start_mem : start ∈ starts
  decoded : start ∈ x.instructions
  chain : x.Chain starts start a

variable {x : Exploration} {starts : AddressSet} {start a : Address} {b : Block}

theorem block?_eq_some_iff :
    x.block? starts start = some b ↔
      ∃ i, x.instructions[start]? = some i ∧ x.blockFrom starts start [] start i = b := by
  simp [block?]

theorem mem_blocks_iff :
    b ∈ x.blocks starts ↔ b.start ∈ starts ∧ x.block? starts b.start = some b := by
  simp only [blocks, List.mem_filterMap, Std.ExtTreeSet.mem_toList]
  constructor
  · intro h
    obtain ⟨start, hmem, hb⟩ := h
    obtain ⟨i, hi, rfl⟩ := block?_eq_some_iff.mp hb
    rw [start_blockFrom]
    exact ⟨hmem, hb⟩
  · intro h
    exact ⟨b.start, h⟩

theorem exists_block_of_mem (hmem : start ∈ starts) (hdecoded : start ∈ x.instructions) :
    ∃ b ∈ x.blocks starts, b.start = start := by
  obtain ⟨i, hi⟩ := AddressMap.mem_iff.mp hdecoded
  refine ⟨x.blockFrom starts start [] start i, ?_, start_blockFrom start []⟩
  rw [mem_blocks_iff, start_blockFrom]
  exact ⟨hmem, block?_eq_some_iff.mpr ⟨i, hi, rfl⟩⟩

theorem exists_trail_of_mem_blocks (hb : b ∈ x.blocks starts) :
    ∃ rest, b.body = b.start :: rest ∧ x.Trail starts b.start rest b.stop := by
  obtain ⟨i, hi, hfrom⟩ := block?_eq_some_iff.mp (mem_blocks_iff.mp hb).2
  obtain ⟨rest, stop, hblock, htrail⟩ := exists_trail_blockFrom starts b.start [] hi
  rw [hfrom] at hblock
  have hbody : b.body = b.start :: rest := congrArg Block.body hblock
  have hstop : b.stop = stop := congrArg Block.stop hblock
  exact ⟨rest, hbody, hstop ▸ htrail⟩

/-- The body of a block is what lies on its chain. -/
theorem mem_body_iff (hb : b ∈ x.blocks starts) : a ∈ b.body ↔ x.InBlock starts b.start a := by
  obtain ⟨hmem, hblock⟩ := mem_blocks_iff.mp hb
  obtain ⟨i, hi, _⟩ := block?_eq_some_iff.mp hblock
  have hdecoded : b.start ∈ x.instructions := AddressMap.mem_iff.mpr ⟨i, hi⟩
  obtain ⟨rest, hbody, htrail⟩ := exists_trail_of_mem_blocks hb
  rw [hbody, htrail.mem_iff]
  constructor
  · intro hchain
    exact ⟨hmem, hdecoded, hchain⟩
  · intro hin
    exact hin.chain

theorem isChain_of_mem_blocks (hb : b ∈ x.blocks starts) :
    b.IsChain x ∧ ∀ a ∈ b.body.tail, a ∉ starts := by
  obtain ⟨rest, hbody, htrail⟩ := exists_trail_of_mem_blocks hb
  rw [Block.IsChain, hbody]
  exact ⟨⟨rfl, htrail.map_next?⟩, htrail.not_mem_starts⟩

theorem pairwise_blocks (x : Exploration) (starts : AddressSet) :
    (x.blocks starts).Pairwise (fun b c => b.start < c.start) := by
  unfold blocks
  rw [List.pairwise_filterMap]
  refine Std.ExtTreeSet.ordered_toList.imp ?_
  intro s t hlt b hb c hc
  obtain ⟨i, _, rfl⟩ := block?_eq_some_iff.mp hb
  obtain ⟨j, _, rfl⟩ := block?_eq_some_iff.mp hc
  rw [start_blockFrom, start_blockFrom]
  exact Std.compare_eq_lt.mp hlt

theorem eq_of_start_eq {c : Block} (hb : b ∈ x.blocks starts) (hc : c ∈ x.blocks starts)
    (h : b.start = c.start) : b = c := by
  have hblock := (mem_blocks_iff.mp hb).2
  rw [h, (mem_blocks_iff.mp hc).2] at hblock
  exact (Option.some.inj hblock).symm

end Exploration

end Disassembly
