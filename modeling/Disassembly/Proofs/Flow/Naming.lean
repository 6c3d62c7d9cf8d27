import Disassembly.Proofs.Flow.Label
import Disassembly.Proofs.Text.Numeral

namespace Disassembly

namespace Labels

/-- What the name of an address begins with if nobody named it. -/
def nameStem (roots : List Address) (a : Address) : String :=
  if a ∈ roots then "sub_" else "loc_"

/-- The name of an address that nobody named: its place among the roots decides, and it has one
only if it is a root, the start of a block or the decoded target of a jump. -/
def newName? (roots : List Address) (blocks : List Block) (x : Exploration) (a : Address) :
    Option String :=
  if a ∈ roots ∨ a ∈ blocks.map Block.start ∨ a ∈ jumpTargets x then
    some (nameStem roots a ++ hexText 8 a.toNat)
  else none

variable {labels : Labels} {roots : List Address} {blocks : List Block} {x : Exploration}
  {a b : Address} {name : String}

theorem isSome_newName?_iff :
    (newName? roots blocks x a).isSome ↔
      a ∈ roots ∨ (∃ b ∈ blocks, b.start = a) ∨
        a ∈ x.instructions ∧ ∃ e ∈ x.edges, e.kind = .jump ∧ e.target = a := by
  rw [← mem_jumpTargets_iff, ← List.mem_map]
  unfold newName?
  split
  · next h => simpa using h
  · next h => simpa using h

/-- The passes over roots, blocks and jump targets come to one: which of them meets an address
first makes no difference to its name. -/
theorem getElem?_complete :
    (labels.complete roots blocks x)[a]? = labels[a]?.or (newName? roots blocks x a) := by
  simp only [complete, getElem?_nameAll, newName?, nameStem, routineName, placeName]
  by_cases hroot : a ∈ roots
  · simp [hroot]
  · by_cases hplace : a ∈ blocks.map Block.start
    · simp [hroot, hplace]
    · simp [hroot, hplace]

theorem getElem?_complete_of_mem (h : a ∈ labels) :
    (labels.complete roots blocks x)[a]? = labels[a]? := by
  obtain ⟨name, hname⟩ := AddressMap.mem_iff.mp h
  rw [getElem?_complete, hname, Option.some_or]

theorem getElem?_complete_of_not_mem (h : a ∉ labels) :
    (labels.complete roots blocks x)[a]? = newName? roots blocks x a := by
  rw [getElem?_complete, Std.ExtTreeMap.getElem?_eq_none h, Option.none_or]

theorem eq_of_newName? (h : newName? roots blocks x a = some name) :
    name = nameStem roots a ++ hexText 8 a.toNat := by
  unfold newName? at h
  split at h
  · exact (Option.some.inj h).symm
  · cases h

/-- The stems are of one length, so that equal names have equal digits. -/
theorem newName?_inj (ha : newName? roots blocks x a = some name)
    (hb : newName? roots blocks x b = some name) : a = b := by
  have hlength (c : Address) : (nameStem roots c).toList.length = 4 := by
    unfold nameStem
    split <;> rfl
  have hnames := (eq_of_newName? ha).symm.trans (eq_of_newName? hb)
  have hlists : (nameStem roots a).toList ++ (hexText 8 a.toNat).toList =
      (nameStem roots b).toList ++ (hexText 8 b.toNat).toList := by
    rw [← String.toList_append, hnames, String.toList_append]
  obtain ⟨_, hdigits⟩ := List.append_inj hlists ((hlength a).trans (hlength b).symm)
  have hword : IsHexWord b (hexText 8 a.toNat).toList := by
    rw [hdigits]
    exact isHexWord_hexText b
  exact (isHexWord_hexText a).unique hword

theorem complete_complete (labels : Labels) (roots : List Address) (blocks : List Block)
    (x : Exploration) :
    (labels.complete roots blocks x).complete roots blocks x = labels.complete roots blocks x := by
  apply Std.ExtTreeMap.ext_getElem?
  intro a
  rw [getElem?_complete, getElem?_complete, Option.or_assoc, Option.or_self]

/-- Completed labels keep all names that there were and add names for the roots, the blocks and
the decoded jump targets, and for nothing else. A new name tells a root from any other place and
gives the address in eight digits, so that no two new names are the same. To complete the labels
once more changes nothing. -/
theorem complete_names_exactly (labels : Labels) (roots : List Address) (blocks : List Block)
    (x : Exploration) :
    let named := labels.complete roots blocks x
    (∀ a ∈ labels, named[a]? = labels[a]?) ∧
    (∀ a, a ∈ named ↔ a ∈ labels ∨ a ∈ roots ∨ (∃ b ∈ blocks, b.start = a) ∨
      a ∈ x.instructions ∧ ∃ e ∈ x.edges, e.kind = .jump ∧ e.target = a) ∧
    (∀ a ∈ named, a ∉ labels → ∃ digits, IsHexWord a digits ∧
      named[a]? = some ((if a ∈ roots then "sub_" else "loc_") ++ String.ofList digits)) ∧
    (∀ a ∈ named, ∀ b ∈ named, a ∉ labels → b ∉ labels → named[a]? = named[b]? → a = b) ∧
    named.complete roots blocks x = named := by
  intro named
  have hnew {a : Address} (ha : a ∈ named) (hfresh : a ∉ labels) :
      ∃ name, newName? roots blocks x a = some name ∧ named[a]? = some name := by
    obtain ⟨name, hname⟩ := AddressMap.mem_iff.mp ha
    exact ⟨name, (getElem?_complete_of_not_mem hfresh).symm.trans hname, hname⟩
  refine ⟨?_, ?_, ?_, ?_, complete_complete labels roots blocks x⟩
  · intro a ha
    exact getElem?_complete_of_mem ha
  · intro a
    rw [← isSome_newName?_iff, Std.ExtTreeMap.mem_iff_isSome_getElem?,
      Std.ExtTreeMap.mem_iff_isSome_getElem?, getElem?_complete, Option.isSome_or, Bool.or_eq_true]
  · intro a ha hfresh
    obtain ⟨name, hname, hnamed⟩ := hnew ha hfresh
    refine ⟨(hexText 8 a.toNat).toList, isHexWord_hexText a, ?_⟩
    rw [hnamed, eq_of_newName? hname, String.ofList_toList, nameStem]
  · intro a ha b hb hfresh hfresh' heq
    obtain ⟨name, hname, hnamed⟩ := hnew ha hfresh
    obtain ⟨name', hname', hnamed'⟩ := hnew hb hfresh'
    rw [hnamed, hnamed', Option.some.injEq] at heq
    exact newName?_inj hname (heq ▸ hname')

end Labels

end Disassembly
