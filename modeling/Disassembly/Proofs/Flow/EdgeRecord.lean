import Disassembly.Proofs.Flow.Discovery

namespace Disassembly

/-- The jump and the way on are edges of different kinds, also where they lead to one address. -/
theorem Definition.nodup_edges (d : Definition) (i : Instruction) : (d.edges i).Nodup := by
  unfold edges
  by_cases hj : d.isJump
  · by_cases hu : d.isUncond <;> cases i.target? <;> simp [hj, hu]
  · by_cases hs : d.isStop <;> simp [hj, hs]

namespace Exploration

theorem callTargets_addEdge (x : Exploration) (e : Edge) :
    (x.addEdge e).callTargets = x.callTargets := by
  unfold addEdge
  cases e.kind <;> rfl

theorem callTargets_foldl_addEdge (x : Exploration) (es : List Edge) :
    (es.foldl addEdge x).callTargets = x.callTargets := by
  induction es generalizing x with
  | nil => rfl
  | cons e es ih => rw [List.foldl_cons, ih, callTargets_addEdge]

end Exploration

namespace Processor

variable {p : Processor} {img : Image} {x : Exploration} {a t : Address} {i : Instruction}

theorem nodup_edges (p : Processor) (i : Instruction) : (p.edges i).Nodup := by
  unfold edges InstructionTable.edges
  cases p.table[i.definition]? with
  | none => exact .nil
  | some d => exact d.nodup_edges i

theorem mem_callTargets :
    t ∈ p.callTargets img i ↔
      (p.definition? i).any Definition.isCall ∧ img.isMapped t ∧
        ∃ e ∈ p.edges i, e.kind = .jump ∧ e.target = t := by
  unfold callTargets
  by_cases hcall : (p.definition? i).any Definition.isCall
  · simp only [hcall, if_true, List.mem_map, List.mem_filter, decide_eq_true_eq, true_and]
    constructor
    · intro h
      obtain ⟨e, ⟨he, hk, hmapped⟩, rfl⟩ := h
      exact ⟨hmapped, e, he, hk, rfl⟩
    · intro h
      obtain ⟨hmapped, e, he, hk, rfl⟩ := h
      exact ⟨e, ⟨he, hk, hmapped⟩, rfl⟩
  · simp [hcall]

theorem mem_callTargets_note :
    t ∈ (p.note img x a i).callTargets ↔ t ∈ x.callTargets ∨ t ∈ p.callTargets img i := by
  simp only [note, Exploration.addInstruction, Exploration.addCallTargets,
    Exploration.callTargets_foldl_addEdge, Std.ExtTreeSet.mem_insertMany_list,
    List.contains_iff_mem]

end Processor

namespace Exploration

/-- The instruction at `a` is a call. -/
def IsCall (p : Processor) (x : Exploration) (a : Address) : Prop :=
  ∃ i d, x.instructions[a]? = some i ∧ p.definition? i = some d ∧ d.isCall

/-- Each edge is noted once, and the call targets are the mapped targets of the calls. -/
structure Exact (p : Processor) (img : Image) (x : Exploration) : Prop where
  nodup : x.edges.toList.Nodup
  calls : ∀ t, t ∈ x.callTargets ↔
    img.isMapped t ∧ ∃ e ∈ x.edges, e.kind = .jump ∧ e.target = t ∧ x.IsCall p e.source

variable {p : Processor} {img : Image} {x : Exploration} {a b : Address} {i : Instruction}

theorem isCall_note_of_ne (h : b ≠ a) : (p.note img x a i).IsCall p b ↔ x.IsCall p b := by
  simp only [IsCall, Processor.instructions_note, AddressMap.getElem?_insert, if_neg (Ne.symm h)]

theorem isCall_note_self :
    (p.note img x a i).IsCall p a ↔ (p.definition? i).any Definition.isCall := by
  simp [IsCall, Option.any_eq_true]

theorem Faithful.source_ne (hx : x.Faithful p img) (fresh : ¬ x.isVisited a) {e : Edge}
    (he : e ∈ x.edges) : e.source ≠ a := by
  intro hs
  obtain ⟨j, hj, _⟩ := (hx.edges e).mp he
  rw [hs] at hj
  exact fresh (isVisited_iff.mpr (.inl (AddressMap.mem_iff.mpr ⟨j, hj⟩)))

namespace Exact

theorem empty : Exact p img {} where
  nodup := .nil
  calls := by simp

theorem addData (h : x.Exact p img) : (x.addData a).Exact p img :=
  ⟨h.nodup, h.calls⟩

theorem note (h : x.Exact p img) (hx : x.Faithful p img) (fresh : ¬ x.isVisited a)
    (hd : p.decode img.read a = .ok i) : (p.note img x a i).Exact p img := by
  have haddress : i.address = a := InstructionTable.address_of_decode hd
  -- New edges start at `a` and old ones elsewhere: none comes twice, and no old call changes.
  have hold {e : Edge} (he : e ∈ x.edges) : e.source ≠ a := hx.source_ne fresh he
  have hnew {e : Edge} (he : e ∈ p.edges i) : e.source = a :=
    (Processor.source_of_mem_edges he).trans haddress
  constructor
  · rw [Processor.toList_edges_note, List.nodup_append]
    refine ⟨h.nodup, p.nodup_edges i, ?_⟩
    intro e he f hf hef
    exact hold (Array.mem_toList_iff.mp he) (hef ▸ hnew hf)
  · intro t
    rw [Processor.mem_callTargets_note, h.calls, Processor.mem_callTargets]
    constructor
    · intro ht
      rcases ht with ⟨hmapped, e, he, hk, htarget, hcall⟩ | ⟨hcall, hmapped, e, he, hk, htarget⟩
      · refine ⟨hmapped, e, Processor.mem_edges_note.mpr (.inl he), hk, htarget, ?_⟩
        exact (isCall_note_of_ne (hold he)).mpr hcall
      · refine ⟨hmapped, e, Processor.mem_edges_note.mpr (.inr he), hk, htarget, ?_⟩
        rw [hnew he]
        exact isCall_note_self.mpr hcall
    · intro ht
      obtain ⟨hmapped, e, he, hk, htarget, hcall⟩ := ht
      rcases Processor.mem_edges_note.mp he with he | he
      · exact .inl ⟨hmapped, e, he, hk, htarget, (isCall_note_of_ne (hold he)).mp hcall⟩
      · rw [hnew he] at hcall
        exact .inr ⟨isCall_note_self.mp hcall, hmapped, e, he, hk, htarget⟩

theorem turn {limit : Nat} {s t : Search} (h : Search.Turn p img limit s t)
    (hx : s.found.Faithful p img) (hs : s.found.Exact p img) : t.found.Exact p img := by
  cases h with
  | skip => exact hs
  | data => exact hs.addData
  | instruction _ fresh decodes => exact hs.note hx fresh decodes

end Exact

end Exploration

namespace Processor

theorem explore_exact (p : Processor) (img : Image) (limit : Nat) (entries : List Address) :
    (p.explore img limit entries).Exact p img := by
  obtain ⟨rest, hrun, _⟩ := p.run_explore img limit entries
  let Inv (s : Search) : Prop := Search.Sound p img entries s ∧ s.found.Exact p img
  have hturn (s t : Search) (h : Search.Turn p img limit s t) (hs : Inv s) : Inv t :=
    ⟨hs.1.turn h, hs.2.turn h hs.1.faithful⟩
  have hend : Inv ⟨rest, p.explore img limit entries⟩ := hrun.keeps hturn ⟨.start, .empty⟩
  exact hend.2

/-- The records of an exploration say the same: each edge of each instruction is there once, the
two sets of sources are where the edges of their kind start, and the call targets are the mapped
targets of the jumps of calls. -/
theorem explore_edges_exact (p : Processor) (img : Image) (limit : Nat) (entries : List Address) :
    let x := p.explore img limit entries
    x.edges.toList.Nodup ∧
    (∀ e, e ∈ x.edges ↔ ∃ i, x.instructions[e.source]? = some i ∧ e ∈ p.edges i) ∧
    (∀ a, x.isJumpSource a ↔ ∃ e ∈ x.edges, e.kind = .jump ∧ e.source = a) ∧
    (∀ a, x.fallsThrough a ↔ ∃ e ∈ x.edges, e.kind = .flow ∧ e.source = a) ∧
    (∀ t, t ∈ x.callTargets ↔ img.isMapped t ∧ ∃ e ∈ x.edges, e.kind = .jump ∧ e.target = t ∧
      ∃ i d, x.instructions[e.source]? = some i ∧ p.definition? i = some d ∧ d.isCall) := by
  intro x
  have hx : x.Faithful p img := p.explore_faithful img limit entries
  have hexact : x.Exact p img := p.explore_exact img limit entries
  refine ⟨hexact.nodup, hx.edges, ?_, ?_, hexact.calls⟩
  · intro a
    rw [Exploration.isJumpSource_iff, hx.sources]
  · intro a
    rw [Exploration.fallsThrough_iff, hx.sources]

end Processor

end Disassembly
