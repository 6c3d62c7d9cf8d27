import Disassembly.Flow.Label

namespace Disassembly

namespace Labels

variable {nameOf : Address → String} {labels : Labels} {as bs : List Address} {a : Address}

/-- A name that exists stays, and the others follow from the address alone. -/
theorem getElem?_nameAll :
    (nameAll nameOf labels as)[a]? =
      labels[a]?.or (if a ∈ as then some (nameOf a) else none) := by
  induction as generalizing labels with
  | nil => simp [nameAll]
  | cons b as ih =>
    have hrest : nameAll nameOf labels (b :: as) =
        nameAll nameOf (labels.insertIfNew b (nameOf b)) as := rfl
    rw [hrest, ih, Std.ExtTreeMap.getElem?_insertIfNew]
    by_cases hb : b = a
    · subst hb
      cases hv : labels[b]? with
      | none => simp [Std.ExtTreeMap.mem_iff_isSome_getElem?, hv]
      | some name => simp [Std.ExtTreeMap.mem_iff_isSome_getElem?, hv]
    · simp [hb, Ne.symm hb]

theorem mem_nameAll_iff : a ∈ nameAll nameOf labels as ↔ a ∈ labels ∨ a ∈ as := by
  rw [Std.ExtTreeMap.mem_iff_isSome_getElem?, Std.ExtTreeMap.mem_iff_isSome_getElem?,
    getElem?_nameAll, Option.isSome_or, Bool.or_eq_true]
  by_cases ha : a ∈ as
  · simp [ha]
  · simp [ha]

theorem nameAll_congr (h : ∀ a, a ∈ as ↔ a ∈ bs) :
    nameAll nameOf labels as = nameAll nameOf labels bs := by
  apply Std.ExtTreeMap.ext_getElem?
  intro a
  simp only [getElem?_nameAll, h]

theorem mem_jumpTargets_iff {x : Exploration} :
    a ∈ jumpTargets x ↔ a ∈ x.instructions ∧ ∃ e ∈ x.edges, e.kind = .jump ∧ e.target = a := by
  simp only [jumpTargets, List.mem_map, List.mem_filter, Array.mem_toList_iff, Bool.and_eq_true,
    beq_iff_eq, Std.ExtTreeMap.contains_iff_mem]
  constructor
  · intro h
    obtain ⟨e, ⟨he, hk, hdecoded⟩, rfl⟩ := h
    exact ⟨hdecoded, e, he, hk, rfl⟩
  · intro h
    obtain ⟨hdecoded, e, he, hk, rfl⟩ := h
    exact ⟨e, ⟨he, hk, hdecoded⟩, rfl⟩

theorem mem_complete_iff {roots : List Address} {blocks : List Block} {x : Exploration} :
    a ∈ labels.complete roots blocks x ↔
      a ∈ labels ∨ a ∈ roots ∨ a ∈ blocks.map Block.start ∨ a ∈ jumpTargets x := by
  simp only [complete, mem_nameAll_iff, or_assoc]

end Labels

end Disassembly
