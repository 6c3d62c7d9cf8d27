import Disassembly.Proofs.Flow.Search
import Disassembly.Proofs.Isa.Decoding
import Mathlib.Tactic.Tauto

namespace Disassembly

namespace Exploration

/-- Where an edge of the given kind starts. -/
def sources (x : Exploration) : EdgeKind → AddressSet
  | .jump => x.jumpSources
  | .flow => x.flowSources

theorem isJumpSource_iff {x : Exploration} {a : Address} :
    x.isJumpSource a ↔ a ∈ x.sources .jump := by
  simp [isJumpSource, sources]

theorem fallsThrough_iff {x : Exploration} {a : Address} :
    x.fallsThrough a ↔ a ∈ x.sources .flow := by
  simp [fallsThrough, sources]

theorem isVisited_iff {x : Exploration} {a : Address} :
    x.isVisited a ↔ a ∈ x.instructions ∨ a ∈ x.data := by
  simp [isVisited]

theorem isVisited_addData {x : Exploration} {a b : Address} :
    (x.addData a).isVisited b ↔ b = a ∨ x.isVisited b := by
  simp only [isVisited_iff, addData, AddressSet.mem_insert]
  tauto

theorem toList_edges_addEdge (x : Exploration) (e : Edge) :
    (x.addEdge e).edges.toList = x.edges.toList ++ [e] := by
  unfold addEdge
  cases e.kind <;> simp

theorem toList_edges_foldl_addEdge (x : Exploration) (es : List Edge) :
    (es.foldl addEdge x).edges.toList = x.edges.toList ++ es := by
  induction es generalizing x with
  | nil => simp
  | cons e es ih =>
    rw [List.foldl_cons, ih, toList_edges_addEdge]
    simp

theorem mem_sources_addEdge {x : Exploration} {e : Edge} {k : EdgeKind} {a : Address} :
    a ∈ (x.addEdge e).sources k ↔ a ∈ x.sources k ∨ (e.kind = k ∧ e.source = a) := by
  unfold addEdge
  cases e.kind <;> cases k <;> simp [sources, or_comm]

theorem mem_sources_foldl_addEdge {x : Exploration} {es : List Edge} {k : EdgeKind} {a : Address} :
    a ∈ (es.foldl addEdge x).sources k ↔
      a ∈ x.sources k ∨ ∃ e ∈ es, e.kind = k ∧ e.source = a := by
  induction es generalizing x with
  | nil => simp
  | cons e es ih =>
    rw [List.foldl_cons, ih, mem_sources_addEdge]
    simp [or_assoc]

end Exploration

namespace Processor

variable {p : Processor} {img : Image} {x : Exploration} {a b : Address} {i : Instruction}

@[simp]
theorem instructions_note : (p.note img x a i).instructions = x.instructions.insert a i :=
  x.instructions_addInstruction a i _ _

@[simp]
theorem data_note : (p.note img x a i).data = x.data :=
  x.data_addInstruction a i _ _

theorem toList_edges_note : (p.note img x a i).edges.toList = x.edges.toList ++ p.edges i := by
  simp only [note, Exploration.addInstruction, Exploration.addCallTargets]
  rw [Exploration.toList_edges_foldl_addEdge]

theorem mem_edges_note {e : Edge} :
    e ∈ (p.note img x a i).edges ↔ e ∈ x.edges ∨ e ∈ p.edges i := by
  rw [← Array.mem_toList_iff, toList_edges_note, List.mem_append, Array.mem_toList_iff]

theorem mem_sources_note {k : EdgeKind} :
    b ∈ (p.note img x a i).sources k ↔
      b ∈ x.sources k ∨ ∃ e ∈ p.edges i, e.kind = k ∧ e.source = b := by
  let y : Exploration := { x with instructions := x.instructions.insert a i }
  have h : b ∈ ((p.edges i).foldl Exploration.addEdge y).sources k ↔
      b ∈ y.sources k ∨ ∃ e ∈ p.edges i, e.kind = k ∧ e.source = b :=
    Exploration.mem_sources_foldl_addEdge
  cases k <;> exact h

theorem size_note (fresh : ¬ x.isVisited a) :
    (p.note img x a i).instructions.size = x.instructions.size + 1 := by
  have hnew : a ∉ x.instructions := fun hmem => fresh (Exploration.isVisited_iff.mpr (.inl hmem))
  simp [Std.ExtTreeMap.size_insert, hnew]

theorem isVisited_note : (p.note img x a i).isVisited b ↔ b = a ∨ x.isVisited b := by
  simp only [Exploration.isVisited_iff, instructions_note, data_note, Std.ExtTreeMap.mem_insert,
    Std.compare_eq_iff_eq]
  tauto

theorem mem_pending {es : List Edge} :
    b ∈ pending img x es ↔ ∃ e ∈ es, img.isMapped e.target ∧ ¬ x.isVisited e.target ∧
      e.target = b := by
  simp [pending, and_assoc]

end Processor

namespace Exploration

/-- What has been noted agrees with what the image holds, and the edges are those of the noted
instructions. -/
structure Faithful (p : Processor) (img : Image) (x : Exploration) : Prop where
  decodes : ∀ a i, x.instructions[a]? = some i → p.decode img.read a = .ok i
  fails : ∀ a ∈ x.data, ∃ err, p.decode img.read a = .error err
  edges : ∀ e, e ∈ x.edges ↔ ∃ i, x.instructions[e.source]? = some i ∧ e ∈ p.edges i
  sources : ∀ k a, a ∈ x.sources k ↔ ∃ e ∈ x.edges, e.kind = k ∧ e.source = a

namespace Faithful

variable {p : Processor} {img : Image} {x : Exploration} {a : Address}

theorem empty : Faithful p img {} where
  decodes := by simp
  fails := by simp
  edges := by simp
  sources := by
    intro k a
    cases k <;> simp [Exploration.sources]

theorem addData {err : DecodeError} (h : x.Faithful p img) (hd : p.decode img.read a = .error err) :
    (x.addData a).Faithful p img where
  decodes := h.decodes
  fails := by
    intro b hb
    rcases AddressSet.mem_insert.mp hb with rfl | hb
    · exact ⟨err, hd⟩
    · exact h.fails b hb
  edges := h.edges
  sources := by
    intro k
    cases k with
    | flow => exact h.sources .flow
    | jump => exact h.sources .jump

theorem note {i : Instruction} (h : x.Faithful p img) (fresh : ¬ x.isVisited a)
    (hd : p.decode img.read a = .ok i) : (p.note img x a i).Faithful p img where
  decodes := by
    intro b j hj
    rw [Processor.instructions_note, AddressMap.getElem?_insert] at hj
    split at hj
    · next hab =>
      cases hj
      rw [← hab]
      exact hd
    · exact h.decodes b j hj
  fails := by
    intro b hb
    rw [Processor.data_note] at hb
    exact h.fails b hb
  edges := by
    intro e
    rw [Processor.mem_edges_note, h.edges, Processor.instructions_note, AddressMap.getElem?_insert]
    by_cases hs : e.source = a
    · -- No edge of an address that has not been visited is known.
      have hnone : x.instructions[a]? = none := by
        apply Std.ExtTreeMap.getElem?_eq_none
        intro hmem
        exact fresh (isVisited_iff.mpr (.inl hmem))
      simp [hs, hnone]
    · have hnot : e ∉ p.edges i := by
        intro he
        have haddr := InstructionTable.address_of_decode hd
        exact hs ((Processor.source_of_mem_edges he).trans haddr)
      simp [hnot, Ne.symm hs]
  sources := by
    intro k b
    rw [Processor.mem_sources_note, h.sources]
    simp only [Processor.mem_edges_note]
    grind

theorem getElem?_of_decode {i : Instruction} (h : x.Faithful p img) (hv : x.isVisited a)
    (hd : p.decode img.read a = .ok i) : x.instructions[a]? = some i := by
  rcases isVisited_iff.mp hv with hmem | hmem
  · obtain ⟨j, hj⟩ := AddressMap.mem_iff.mp hmem
    have hdj := h.decodes a j hj
    rw [hd] at hdj
    rw [hj, ← Except.ok.inj hdj]
  · obtain ⟨err, herr⟩ := h.fails a hmem
    rw [hd] at herr
    cases herr

theorem mem_data_of_decode {err : DecodeError} (h : x.Faithful p img) (hv : x.isVisited a)
    (hd : p.decode img.read a = .error err) : a ∈ x.data := by
  rcases isVisited_iff.mp hv with hmem | hmem
  · obtain ⟨j, hj⟩ := AddressMap.mem_iff.mp hmem
    have hdj := h.decodes a j hj
    rw [hd] at hdj
    cases hdj
  · exact hmem

end Faithful

/-- Noted edges lead from an entry to the address, through mapped memory. -/
inductive Traced (img : Image) (entries : List Address) (x : Exploration) : Address → Prop
  | entry {a : Address} (given : a ∈ entries) (mapped : img.isMapped a) : Traced img entries x a
  | edge {e : Edge} (noted : e ∈ x.edges) (source : Traced img entries x e.source)
      (mapped : img.isMapped e.target) : Traced img entries x e.target

namespace Traced

variable {img : Image} {entries : List Address} {x y : Exploration} {a : Address}

theorem mono (h : Traced img entries x a) (hsub : ∀ e ∈ x.edges, e ∈ y.edges) :
    Traced img entries y a := by
  induction h with
  | entry given mapped => exact .entry given mapped
  | edge noted _ mapped ih => exact .edge (hsub _ noted) ih mapped

end Traced

end Exploration

namespace Search

/-- A turn visits the address in front, if it was not visited before, and no other. -/
theorem Turn.isVisited_iff {p : Processor} {img : Image} {limit : Nat} {a b : Address}
    {rest : List Address} {x : Exploration} {t : Search}
    (h : Turn p img limit ⟨a :: rest, x⟩ t) : t.found.isVisited b ↔ b = a ∨ x.isVisited b := by
  cases h with
  | skip _ visited =>
    constructor
    · exact .inr
    · intro hb
      rcases hb with rfl | hb
      · exact visited
      · exact hb
  | data => exact Exploration.isVisited_addData
  | instruction => exact Processor.isVisited_note

/-- The address has been visited or waits for its turn. -/
def Knows (s : Search) (a : Address) : Prop :=
  a ∈ s.waiting ∨ s.found.isVisited a

/-- What every turn of a search from `entries` keeps: each known address is traced back to an
entry, and no mapped entry or target is lost. -/
structure Sound (p : Processor) (img : Image) (entries : List Address) (s : Search) : Prop where
  faithful : s.found.Faithful p img
  traced : ∀ a, s.Knows a → s.found.Traced img entries a
  entries : ∀ a ∈ entries, img.isMapped a → s.Knows a
  targets : ∀ e ∈ s.found.edges, img.isMapped e.target → s.Knows e.target

namespace Sound

variable {p : Processor} {img : Image} {entries : List Address}

theorem start : Sound p img entries ⟨entries.filter img.isMapped, {}⟩ where
  faithful := .empty
  traced := by
    intro a ha
    simp only [Knows, List.mem_filter, Exploration.isVisited_iff] at ha
    rcases ha with ⟨hgiven, hmapped⟩ | ha
    · exact .entry hgiven hmapped
    · simp at ha
  entries := by
    intro a ha hmapped
    exact .inl (List.mem_filter.mpr ⟨ha, hmapped⟩)
  targets := by simp

/-- What a turn does in all its cases: the next address is visited, and edges that start there
may be noted, whose targets wait. -/
theorem visit {a : Address} {rest : List Address} {x y : Exploration}
    (hs : Sound p img entries ⟨a :: rest, x⟩) (new : List Address) (es : List Edge)
    (hy : y.Faithful p img) (hvisit : ∀ b, y.isVisited b ↔ b = a ∨ x.isVisited b)
    (hedges : ∀ e, e ∈ y.edges ↔ e ∈ x.edges ∨ e ∈ es) (hsource : ∀ e ∈ es, e.source = a)
    (hnew : ∀ b ∈ new, ∃ e ∈ es, img.isMapped e.target ∧ e.target = b)
    (hkept : ∀ e ∈ es, img.isMapped e.target → Knows ⟨new, y⟩ e.target) :
    Sound p img entries ⟨rest ++ new, y⟩ := by
  have hknows {b : Address} (hb : Knows ⟨a :: rest, x⟩ b) : Knows ⟨rest ++ new, y⟩ b := by
    rcases hb with hb | hb
    · rcases List.mem_cons.mp hb with rfl | hb
      · exact .inr ((hvisit b).mpr (.inl rfl))
      · exact .inl (List.mem_append_left new hb)
    · exact .inr ((hvisit b).mpr (.inr hb))
  have hmono {b : Address} (hb : Knows ⟨a :: rest, x⟩ b) : y.Traced img entries b :=
    (hs.traced b hb).mono (fun e he => (hedges e).mpr (.inl he))
  have hhere : y.Traced img entries a := hmono (.inl List.mem_cons_self)
  refine ⟨hy, ?_, ?_, ?_⟩
  · intro b hb
    rcases hb with hb | hb
    · rcases List.mem_append.mp hb with hb | hb
      · exact hmono (.inl (List.mem_cons_of_mem a hb))
      · obtain ⟨e, he, hmapped, rfl⟩ := hnew b hb
        exact .edge ((hedges e).mpr (.inr he)) (hsource e he ▸ hhere) hmapped
    · rcases (hvisit b).mp hb with rfl | hb
      · exact hhere
      · exact hmono (.inr hb)
  · intro b hb hmapped
    exact hknows (hs.entries b hb hmapped)
  · intro e he hmapped
    rcases (hedges e).mp he with he | he
    · exact hknows (hs.targets e he hmapped)
    · rcases hkept e he hmapped with h | h
      · exact .inl (List.mem_append_right rest h)
      · exact .inr h

theorem turn {limit : Nat} {s t : Search} (h : Turn p img limit s t) (hs : Sound p img entries s) :
    Sound p img entries t := by
  cases h with
  | @skip a rest x room visited =>
    have hturn : Turn p img limit ⟨a :: rest, x⟩ ⟨rest, x⟩ := .skip room visited
    have h := hs.visit [] [] hs.faithful (fun _ => hturn.isVisited_iff) (by simp) (by simp)
      (by simp) (by simp)
    rwa [List.append_nil] at h
  | @data a rest x err _ _ fails =>
    have h := hs.visit [] [] (hs.faithful.addData fails) (fun _ => Exploration.isVisited_addData)
      (by simp [Exploration.addData]) (by simp) (by simp) (by simp)
    rwa [List.append_nil] at h
  | @instruction a rest x i _ fresh decodes =>
    refine hs.visit _ (p.edges i) (hs.faithful.note fresh decodes)
      (fun _ => Processor.isVisited_note) (fun _ => Processor.mem_edges_note) ?_ ?_ ?_
    · intro e he
      exact (Processor.source_of_mem_edges he).trans (InstructionTable.address_of_decode decodes)
    · intro b hb
      obtain ⟨e, he, hmapped, _, heq⟩ := Processor.mem_pending.mp hb
      exact ⟨e, he, hmapped, heq⟩
    · intro e he hmapped
      by_cases hv : (p.note img x a i).isVisited e.target
      · exact .inr hv
      · exact .inl (Processor.mem_pending.mpr ⟨e, he, hmapped, hv, rfl⟩)

end Sound

end Search

namespace Processor

/-- What holds of every exploration, whether or not the limit cut it short. -/
theorem explore_sound (p : Processor) (img : Image) (limit : Nat) (entries : List Address) :
    ∃ rest, Search.Sound p img entries ⟨rest, p.explore img limit entries⟩ ∧
      Search.IsOver limit ⟨rest, p.explore img limit entries⟩ := by
  obtain ⟨rest, hrun, hover⟩ := p.run_explore img limit entries
  exact ⟨rest, hrun.keeps (fun _ _ => Search.Sound.turn) .start, hover⟩

theorem explore_faithful (p : Processor) (img : Image) (limit : Nat) (entries : List Address) :
    (p.explore img limit entries).Faithful p img := by
  obtain ⟨_, hsound, _⟩ := p.explore_sound img limit entries
  exact hsound.faithful

theorem explore_traced {p : Processor} {img : Image} {limit : Nat} {entries : List Address}
    {a : Address} (h : (p.explore img limit entries).isVisited a) :
    (p.explore img limit entries).Traced img entries a := by
  obtain ⟨_, hsound, _⟩ := p.explore_sound img limit entries
  exact hsound.traced a (.inr h)

end Processor

end Disassembly
