import Disassembly.Isa.Operand
import Std.Data.ExtTreeMap
import Std.Data.ExtTreeSet

namespace Disassembly

/-- A finite set of addresses. Two sets with the same members are equal, and the members are
listed in ascending order. -/
abbrev AddressSet := Std.ExtTreeSet Address compare

/-- A finite map from addresses, listed by ascending address. -/
abbrev AddressMap (β : Type) := Std.ExtTreeMap Address β compare

/-- An ascending list of addresses from `low` on is no longer than the space from `low` on. -/
theorem length_le_of_ascending (low : Nat) (hlow : low ≤ UInt32.size) (as : List Address)
    (hasc : as.Pairwise (fun a b => compare a b = .lt)) (hge : ∀ a ∈ as, low ≤ a.toNat) :
    as.length ≤ UInt32.size - low := by
  induction as generalizing low with
  | nil => simp
  | cons a as ih =>
    have hrest : ∀ b ∈ as, a.toNat + 1 ≤ b.toNat := by
      intro b hb
      have hlt := (List.pairwise_cons.mp hasc).1 b hb
      rw [Std.compare_eq_lt, UInt32.lt_iff_toNat_lt] at hlt
      omega
    have ha := a.toNat_lt_size
    have := ih (a.toNat + 1) (by omega) (List.pairwise_cons.mp hasc).2 hrest
    have := hge a (by simp)
    simp only [List.length_cons]
    omega

theorem AddressSet.size_le (s : AddressSet) : s.size ≤ UInt32.size := by
  rw [← Std.ExtTreeSet.length_toList]
  exact length_le_of_ascending 0 (by omega) _ Std.ExtTreeSet.ordered_toList (by simp)

theorem AddressMap.size_le {β : Type} (m : AddressMap β) : m.size ≤ UInt32.size := by
  rw [← Std.ExtTreeMap.length_keys]
  exact length_le_of_ascending 0 (by omega) _ Std.ExtTreeMap.ordered_keys (by simp)

theorem AddressMap.mem_iff {β : Type} {m : AddressMap β} {a : Address} :
    a ∈ m ↔ ∃ v, m[a]? = some v := by
  rw [Std.ExtTreeMap.mem_iff_isSome_getElem?, Option.isSome_iff_exists]

theorem AddressMap.getElem?_insert {β : Type} {m : AddressMap β} {a b : Address} {v : β} :
    (m.insert a v)[b]? = if a = b then some v else m[b]? := by
  rw [Std.ExtTreeMap.getElem?_insert]
  simp only [Std.compare_eq_iff_eq]

theorem AddressSet.mem_insert {s : AddressSet} {a b : Address} :
    b ∈ s.insert a ↔ b = a ∨ b ∈ s := by
  rw [Std.ExtTreeSet.mem_insert, Std.compare_eq_iff_eq, eq_comm]

theorem AddressSet.mem_filter {s : AddressSet} {f : Address → Bool} {a : Address} :
    a ∈ s.filter f ↔ a ∈ s ∧ f a := by
  change a ∈ s.inner.filter (fun b _ => f b) ↔ a ∈ s.inner ∧ f a
  rw [Std.ExtTreeMap.mem_iff_isSome_getElem?, Std.ExtTreeMap.getElem?_filter',
    Std.ExtTreeMap.mem_iff_isSome_getElem?]
  cases s.inner[a]? <;> simp

end Disassembly
