import Disassembly.Proofs.Flow.EdgeRecord
import Disassembly.Proofs.Flow.Reachability
import Mathlib.Data.FinEnum
import Mathlib.Data.Set.Card

namespace Disassembly

theorem AddressMap.ncard_eq_size {β : Type} (m : AddressMap β) : {a | a ∈ m}.ncard = m.size := by
  have hkeys : {a | a ∈ m} = (m.keys.toFinset : Set Address) := by
    ext a
    simp
  have hcard : m.keys.toFinset.card = m.keys.length :=
    List.toFinset_card_of_nodup Std.ExtTreeMap.nodup_keys
  rw [hkeys, Set.ncard_coe_finset, hcard, Std.ExtTreeMap.length_keys]

namespace Exploration

/-- All that `x` has noted is in `y`, and `y` noted the edges of `x` before any other. -/
structure TruncationOf (x y : Exploration) : Prop where
  edges : x.edges.toList <+: y.edges.toList
  instructions : ∀ (a : Address) i, x.instructions[a]? = some i → y.instructions[a]? = some i
  data : ∀ a ∈ x.data, a ∈ y.data
  callTargets : ∀ a ∈ x.callTargets, a ∈ y.callTargets
  sources : ∀ k, ∀ a ∈ x.sources k, a ∈ y.sources k

namespace TruncationOf

variable {p : Processor} {img : Image} {limit : Nat} {x y z : Exploration} {a : Address}
  {i : Instruction}

theorem refl (x : Exploration) : x.TruncationOf x where
  edges := List.prefix_rfl
  instructions := fun _ _ h => h
  data := fun _ h => h
  callTargets := fun _ h => h
  sources := fun _ _ h => h

theorem trans (h : x.TruncationOf y) (h' : y.TruncationOf z) : x.TruncationOf z where
  edges := h.edges.trans h'.edges
  instructions := fun a i hi => h'.instructions a i (h.instructions a i hi)
  data := fun a ha => h'.data a (h.data a ha)
  callTargets := fun a ha => h'.callTargets a (h.callTargets a ha)
  sources := fun k a ha => h'.sources k a (h.sources k a ha)

theorem addData (x : Exploration) (a : Address) : x.TruncationOf (x.addData a) where
  edges := List.prefix_rfl
  instructions := fun _ _ h => h
  data := by
    intro b hb
    simp only [Exploration.addData, AddressSet.mem_insert]
    exact .inr hb
  callTargets := fun _ h => h
  sources := by
    intro k b hb
    cases k with
    | flow => exact hb
    | jump => exact hb

/-- An address that was visited before would lose its instruction. -/
theorem note (fresh : ¬ x.isVisited a) : x.TruncationOf (p.note img x a i) where
  edges := by
    rw [Processor.toList_edges_note]
    exact List.prefix_append _ _
  instructions := by
    intro b j hj
    have hne : a ≠ b := by
      intro hab
      have hmem : a ∈ x.instructions := AddressMap.mem_iff.mpr ⟨j, hab ▸ hj⟩
      exact fresh (isVisited_iff.mpr (.inl hmem))
    rw [Processor.instructions_note, AddressMap.getElem?_insert, if_neg hne]
    exact hj
  data := by
    intro b hb
    rw [Processor.data_note]
    exact hb
  callTargets := fun _ hb => Processor.mem_callTargets_note.mpr (.inl hb)
  sources := fun _ _ hb => Processor.mem_sources_note.mpr (.inl hb)

theorem turn {s t : Search} (h : Search.Turn p img limit s t) : s.found.TruncationOf t.found := by
  cases h with
  | skip => exact .refl _
  | data => exact .addData _ _
  | instruction _ fresh _ => exact .note fresh

theorem run {s t : Search} (h : Search.Run p img limit s t) : s.found.TruncationOf t.found := by
  let Inv (u : Search) : Prop := s.found.TruncationOf u.found
  have hkept (u v : Search) (hturn : Search.Turn p img limit u v) (hu : Inv u) : Inv v :=
    trans hu (turn hturn)
  exact h.keeps hkept (refl s.found)

theorem isVisited (h : x.TruncationOf y) (hv : x.isVisited a) : y.isVisited a := by
  rcases isVisited_iff.mp hv with hmem | hmem
  · obtain ⟨i, hi⟩ := AddressMap.mem_iff.mp hmem
    exact isVisited_iff.mpr (.inl (AddressMap.mem_iff.mpr ⟨i, h.instructions a i hi⟩))
  · exact isVisited_iff.mpr (.inr (h.data a hmem))

end TruncationOf

end Exploration

namespace Search

variable {p : Processor} {img : Image} {limit limit' : Nat} {s t : Search}

/-- A search that has room has room under a higher limit. -/
theorem Turn.mono (hle : limit ≤ limit') (h : Turn p img limit s t) : Turn p img limit' s t := by
  have hroom := h.room
  cases h with
  | skip _ visited => exact .skip (by omega) visited
  | data _ fresh fails => exact .data (by omega) fresh fails
  | instruction _ fresh decodes => exact .instruction (by omega) fresh decodes

theorem Run.mono (hle : limit ≤ limit') (h : Run p img limit s t) : Run p img limit' s t :=
  Relation.ReflTransGen.mono (fun _ _ => Turn.mono hle) _ _ h

/-- A turn notes one instruction at most, and only below the limit. -/
theorem Turn.size_le (h : Turn p img limit s t) : t.found.instructions.size ≤ limit := by
  have hroom := h.room
  cases h with
  | skip => exact hroom.le
  | data => exact hroom.le
  | instruction _ fresh _ =>
    simp only [Processor.size_note fresh]
    exact hroom

end Search

namespace Processor

variable {p : Processor} {img : Image} {limit limit' : Nat} {entries : List Address}

/-- The reachable addresses that hold an instruction. -/
def reachableCode (p : Processor) (img : Image) (entries : List Address) : Set Address :=
  {a | p.Reachable img entries a ∧ ∃ i, p.decode img.read a = .ok i}

theorem size_explore_le (p : Processor) (img : Image) (limit : Nat) (entries : List Address) :
    (p.explore img limit entries).instructions.size ≤ limit := by
  obtain ⟨rest, hrun, _⟩ := p.run_explore img limit entries
  let Inv (s : Search) : Prop := s.found.instructions.size ≤ limit
  have hkept (s t : Search) (hturn : Search.Turn p img limit s t) (_ : Inv s) : Inv t :=
    hturn.size_le
  have hstart : Inv ⟨entries.filter img.isMapped, {}⟩ := by simp [Inv]
  exact hrun.keeps hkept hstart

theorem instructions_explore_subset :
    {a | a ∈ (p.explore img limit entries).instructions} ⊆ p.reachableCode img entries := by
  intro a ha
  obtain ⟨i, hi⟩ := AddressMap.mem_iff.mp ha
  have hvisited := Exploration.isVisited_iff.mpr (.inl ha)
  exact ⟨reachable_of_isVisited hvisited, i, (p.explore_faithful img limit entries).decodes a i hi⟩

/-- With room to spare an exploration has found all of the reachable code. -/
theorem instructions_explore_eq (hroom : (p.explore img limit entries).instructions.size < limit) :
    {a | a ∈ (p.explore img limit entries).instructions} = p.reachableCode img entries := by
  apply Set.Subset.antisymm instructions_explore_subset
  intro a ha
  obtain ⟨hreach, i, hi⟩ := ha
  have hx := p.explore_faithful img limit entries
  have hvisited := isVisited_of_reachable hroom hreach
  exact AddressMap.mem_iff.mpr ⟨i, hx.getElem?_of_decode hvisited hi⟩

theorem size_explore (p : Processor) (img : Image) (limit : Nat) (entries : List Address) :
    (p.explore img limit entries).instructions.size =
      min limit (p.reachableCode img entries).ncard := by
  have hsize := AddressMap.ncard_eq_size (p.explore img limit entries).instructions
  have hsub : (p.explore img limit entries).instructions.size ≤
      (p.reachableCode img entries).ncard := by
    rw [← hsize]
    exact Set.ncard_le_ncard instructions_explore_subset
  rcases Nat.lt_or_eq_of_le (p.size_explore_le img limit entries) with hroom | hfull
  · rw [instructions_explore_eq hroom] at hsize
    omega
  · omega

theorem explore_truncationOf (hle : limit ≤ limit') :
    (p.explore img limit entries).TruncationOf (p.explore img limit' entries) := by
  obtain ⟨rest, hrun, _⟩ := p.run_explore img limit entries
  obtain ⟨rest', hrun', hover'⟩ := p.run_explore img limit' entries
  -- The search under the lower limit is the beginning of the one under the higher.
  exact .run ((hrun.mono hle).resume hrun' hover')

/-- The limit only cuts an exploration short. As many instructions are found as there are, or as
the limit allows, and a lower limit leaves the beginning of what a higher one finds. -/
theorem explore_limit_truncates (p : Processor) (img : Image) (entries : List Address)
    {limit limit' : Nat} (hle : limit ≤ limit') :
    (p.explore img limit entries).instructions.size =
        min limit (p.reachableCode img entries).ncard ∧
      (p.explore img limit entries).TruncationOf (p.explore img limit' entries) :=
  ⟨p.size_explore img limit entries, explore_truncationOf hle⟩

/-- Two of three instructions: the edge of the third is missing and nothing else. -/
theorem explore_limit_truncates_branch :
    let p := Processor.standard {}
    let img := Image.single 0 #[0x41, 4, 0, 0, 1]
    (p.explore img 2 [0]).TruncationOf (p.explore img 100 [0]) ∧
      (p.explore img 2 [0]).instructions.size = 2 ∧ (p.reachableCode img [0]).ncard = 3 ∧
      (p.explore img 100 [0]).edges.toList =
        (p.explore img 2 [0]).edges.toList ++ [⟨3, 4, .flow⟩] := by
  intro p img
  obtain ⟨_, htruncates⟩ := explore_limit_truncates p img [0] (show 2 ≤ 100 by decide)
  obtain ⟨hall, _⟩ := explore_limit_truncates p img [0] (Nat.le_refl 100)
  have hthree : (p.explore img 100 [0]).instructions.size = 3 := by decide +kernel
  have hcount : (p.reachableCode img [0]).ncard = 3 := by omega
  exact ⟨htruncates, by decide +kernel, hcount, by decide +kernel⟩

end Processor

end Disassembly
