import Disassembly.Memory.Coverage
import Mathlib.Data.Finset.Card
import Mathlib.Data.Nat.Count
import Mathlib.Data.Set.Card
import Mathlib.Order.Interval.Finset.Nat

namespace Disassembly

theorem count_true_eq_card (bits : List Bool) :
    bits.count true = ((Finset.range bits.length).filter fun k => bits[k]? = some true).card := by
  rw [← Nat.count_eq_card_filter_range]
  induction bits with
  | nil => rfl
  | cons b bits ih => simp [List.count_cons, Nat.count_succ', ih]

/-- The places of the segment that one of the ranges reaches, as numbers: where the segment is
longer than the address space is, they go on behind the last address. A range that begins below
the segment reaches none. -/
def Segment.reached (s : Segment) (ranges : List (Address × Nat)) : Finset Nat :=
  (Finset.Ico s.base.toNat (s.base.toNat + s.bytes.size)).filter fun n =>
    ∃ r ∈ ranges, s.base ≤ r.1 ∧ r.1.toNat ≤ n ∧ n < r.1.toNat + r.2

namespace Coverage

theorem size_setRange (marked : Array Bool) (i count : Nat) :
    (setRange marked i count).size = marked.size := by
  induction count generalizing marked i with
  | zero => rfl
  | succ count ih => rw [setRange, ih, Array.size_setIfInBounds]

theorem getElem?_setRange (marked : Array Bool) (i count k : Nat) :
    (setRange marked i count)[k]? =
      if i ≤ k ∧ k < i + count ∧ k < marked.size then some true else marked[k]? := by
  induction count generalizing marked i with
  | zero =>
    have h : ¬ (i ≤ k ∧ k < i + 0 ∧ k < marked.size) := by omega
    rw [setRange, if_neg h]
  | succ count ih =>
    rw [setRange, ih, Array.size_setIfInBounds, Array.getElem?_setIfInBounds]
    by_cases hik : i = k
    · subst hik
      by_cases hsize : i < marked.size
      · have hrest : ¬ (i + 1 ≤ i ∧ i < i + 1 + count ∧ i < marked.size) := by omega
        have hhere : i ≤ i ∧ i < i + (count + 1) ∧ i < marked.size := by omega
        rw [if_neg hrest, if_pos hhere]
        simp [hsize]
      · simp [hsize]
    · have hsame : (i + 1 ≤ k ∧ k < i + 1 + count ∧ k < marked.size) ↔
          (i ≤ k ∧ k < i + (count + 1) ∧ k < marked.size) := by omega
      simp only [hsame, hik, if_false]

/-- The ranges are marked one after another. -/
def markAll (c : Coverage) (ranges : List (Address × Nat)) : Coverage :=
  ranges.foldl (fun c r => c.mark r.1 r.2) c

variable {c d : Coverage} {a : Address} {length n : Nat}

@[simp]
theorem base_mark : (c.mark a length).base = c.base := by
  unfold mark
  split <;> rfl

@[simp]
theorem size_marked_mark : (c.mark a length).marked.size = c.marked.size := by
  unfold mark
  split
  · exact size_setRange _ _ _
  · rfl

theorem markAll_cons (c : Coverage) (r : Address × Nat) (ranges : List (Address × Nat)) :
    c.markAll (r :: ranges) = (c.mark r.1 r.2).markAll ranges := rfl

@[simp]
theorem base_markAll (ranges : List (Address × Nat)) : (c.markAll ranges).base = c.base := by
  induction ranges generalizing c with
  | nil => rfl
  | cons r ranges ih => rw [markAll_cons, ih, base_mark]

@[simp]
theorem size_marked_markAll (ranges : List (Address × Nat)) :
    (c.markAll ranges).marked.size = c.marked.size := by
  induction ranges generalizing c with
  | nil => rfl
  | cons r ranges ih => rw [markAll_cons, ih, size_marked_mark]

/-- Where the bytes stand that are marked. -/
def places (c : Coverage) : Finset Nat :=
  ((Finset.range c.marked.size).filter fun k => c.marked[k]? = some true).map
    (addLeftEmbedding c.base.toNat)

theorem mem_places :
    n ∈ c.places ↔ c.base.toNat ≤ n ∧ c.marked[n - c.base.toNat]? = some true := by
  simp only [places, Finset.mem_map, Finset.mem_filter, Finset.mem_range, addLeftEmbedding_apply]
  constructor
  · intro h
    obtain ⟨k, ⟨_, hk⟩, rfl⟩ := h
    rw [Nat.add_sub_cancel_left]
    exact ⟨Nat.le_add_right _ _, hk⟩
  · intro h
    obtain ⟨hbase, hk⟩ := h
    obtain ⟨hsize, _⟩ := Array.getElem?_eq_some_iff.mp hk
    exact ⟨n - c.base.toNat, ⟨hsize, hk⟩, Nat.add_sub_cancel' hbase⟩

theorem card_places (c : Coverage) : c.places.card = c.count := by
  rw [places, Finset.card_map, count, ← Array.count_toList, count_true_eq_card]
  simp only [Array.length_toList, Array.getElem?_toList]

theorem covers_iff_mem_places : c.covers a ↔ a.toNat ∈ c.places := by
  simp [covers, mem_places, UInt32.le_iff_toNat_le]

/-- Nothing but the place of a mark is kept of it. -/
theorem eq_of_places_eq (hbase : c.base = d.base) (hsize : c.marked.size = d.marked.size)
    (h : c.places = d.places) : c = d := by
  have hmarked : c.marked = d.marked := by
    apply Array.ext hsize
    intro k hk hk'
    have hmem : c.base.toNat + k ∈ c.places ↔ c.base.toNat + k ∈ d.places := by rw [h]
    rw [mem_places, mem_places, ← hbase, Nat.add_sub_cancel_left] at hmem
    simp only [Nat.le_add_right, true_and, Array.getElem?_eq_getElem hk,
      Array.getElem?_eq_getElem hk', Option.some.injEq] at hmem
    exact Bool.eq_iff_iff.mpr hmem
  cases c
  cases d
  simp only at hbase hmarked
  rw [hbase, hmarked]

theorem mem_places_mark :
    n ∈ (c.mark a length).places ↔
      n ∈ c.places ∨ (c.base.toNat ≤ n ∧ n < c.base.toNat + c.marked.size) ∧
        c.base ≤ a ∧ a.toNat ≤ n ∧ n < a.toNat + length := by
  by_cases ha : c.base ≤ a
  · have hmark : (c.mark a length).marked = setRange c.marked (a.toNat - c.base.toNat)
        (min (a.toNat - c.base.toNat + length) c.marked.size - (a.toNat - c.base.toNat)) := by
      simp [mark, ha]
    rw [mem_places, mem_places, base_mark, hmark, getElem?_setRange]
    rw [UInt32.le_iff_toNat_le] at ha ⊢
    -- The entry at `n` is set exactly if the range, cut at the end of the segment, goes over it.
    by_cases hn : c.base.toNat ≤ n
    · split
      · next hin =>
        have hrange : n < c.base.toNat + c.marked.size ∧ a.toNat ≤ n ∧ n < a.toNat + length := by
          omega
        simp [ha, hn, hrange]
      · next hout =>
        have hrange : ¬ (n < c.base.toNat + c.marked.size ∧ a.toNat ≤ n ∧
            n < a.toNat + length) := by omega
        simp only [hn, ha, true_and, hrange, or_false]
    · simp [hn]
  · simp [mark, ha]

theorem mem_places_markAll (ranges : List (Address × Nat)) :
    n ∈ (c.markAll ranges).places ↔
      n ∈ c.places ∨ (c.base.toNat ≤ n ∧ n < c.base.toNat + c.marked.size) ∧
        ∃ r ∈ ranges, c.base ≤ r.1 ∧ r.1.toNat ≤ n ∧ n < r.1.toNat + r.2 := by
  induction ranges generalizing c with
  | nil => simp [markAll]
  | cons r ranges ih =>
    rw [markAll_cons, ih, mem_places_mark, base_mark, size_marked_mark]
    simp only [List.mem_cons, exists_eq_or_imp, and_or_left, or_assoc]

/-- The byte at `d` is one that `c` has a mark for, whether or not it is set. -/
def Tracks (c : Coverage) (d : Address) : Prop :=
  c.base ≤ d ∧ d.toNat - c.base.toNat < c.marked.size

/-- What is marked is the union of the ranges, as far as they begin in the segment. -/
theorem covers_markAll_iff (ranges : List (Address × Nat)) :
    (c.markAll ranges).covers a ↔
      c.covers a ∨ c.Tracks a ∧
        ∃ r ∈ ranges, c.base ≤ r.1 ∧ r.1 ≤ a ∧ a.toNat < r.1.toNat + r.2 := by
  have htracks : c.Tracks a ↔ c.base.toNat ≤ a.toNat ∧ a.toNat < c.base.toNat + c.marked.size := by
    rw [Tracks, UInt32.le_iff_toNat_le]
    omega
  rw [covers_iff_mem_places, covers_iff_mem_places, mem_places_markAll, htracks]
  simp only [UInt32.le_iff_toNat_le]

@[simp]
theorem places_ofSegment (s : Segment) : (ofSegment s).places = ∅ := by
  apply Finset.eq_empty_of_forall_notMem
  intro n hn
  have hbit := (mem_places.mp hn).2
  simp [ofSegment, Array.getElem?_replicate] at hbit

@[simp]
theorem not_covers_ofSegment (s : Segment) : (ofSegment s).covers a = false := by
  rw [Bool.eq_false_iff]
  intro h
  rw [covers_iff_mem_places, places_ofSegment] at h
  cases h

theorem places_markAll_ofSegment (s : Segment) (ranges : List (Address × Nat)) :
    ((ofSegment s).markAll ranges).places = s.reached ranges := by
  ext n
  rw [mem_places_markAll, places_ofSegment, Segment.reached, Finset.mem_filter, Finset.mem_Ico]
  simp [ofSegment]

/-- In a segment that ends within the address space each place has its address. -/
theorem ncard_covered (h : c.base.toNat + c.marked.size ≤ UInt32.size) :
    {a | c.covers a}.ncard = c.count := by
  have hinj : Function.Injective UInt32.toNat := fun _ _ => UInt32.toNat_inj.mp
  have himage : UInt32.toNat '' {a | c.covers a} = c.places := by
    ext n
    simp only [Set.mem_image, Set.mem_ofPred_eq, covers_iff_mem_places, Finset.mem_coe]
    constructor
    · intro hn
      obtain ⟨a, ha, rfl⟩ := hn
      exact ha
    · intro hn
      obtain ⟨hbase, hbit⟩ := mem_places.mp hn
      obtain ⟨hsize, _⟩ := Array.getElem?_eq_some_iff.mp hbit
      have hnumber : (UInt32.ofNat n).toNat = n := UInt32.toNat_ofNat_of_lt' (by omega)
      exact ⟨UInt32.ofNat n, by rwa [hnumber], hnumber⟩
  rw [← Set.ncard_image_of_injective _ hinj, himage, Set.ncard_coe_finset, card_places]

/-- Marking ranges covers their union, as far as it lies in the segment and without the ranges
that begin below it. As many bytes are marked as it has places, and neither the order of the
ranges nor repeating one changes anything. Places are natural numbers: where the segment goes on
behind the last address, the count takes in the places from 2^32 on, which are no addresses. -/
theorem markAll_covers_union (s : Segment) (ranges : List (Address × Nat)) :
    let c := (ofSegment s).markAll ranges
    (∀ a : Address, c.covers a ↔ a.toNat ∈ s.reached ranges) ∧
    c.count = (s.reached ranges).card ∧
    (s.base.toNat + s.bytes.size ≤ UInt32.size → c.count = {a | c.covers a}.ncard) ∧
    ∀ ranges', (∀ r, r ∈ ranges' ↔ r ∈ ranges) → (ofSegment s).markAll ranges' = c := by
  intro c
  have hplaces : c.places = s.reached ranges := places_markAll_ofSegment s ranges
  have hbase : c.base = s.base := base_markAll ranges
  have hsize : c.marked.size = s.bytes.size :=
    (size_marked_markAll ranges).trans Array.size_replicate
  refine ⟨?_, ?_, ?_, ?_⟩
  · intro a
    rw [covers_iff_mem_places, hplaces]
  · rw [← card_places, hplaces]
  · intro hend
    rw [← hbase, ← hsize] at hend
    exact (ncard_covered hend).symm
  · intro ranges' hsame
    have hreached : s.reached ranges' = s.reached ranges := by
      simp only [Segment.reached, hsame]
    apply eq_of_places_eq
    · rw [base_markAll, hbase, ofSegment]
    · rw [size_marked_markAll, hsize, ofSegment, Array.size_replicate]
    · rw [places_markAll_ofSegment, hreached, hplaces]

/-- The first range goes on behind the last address, the second begins below the segment, the next
two overlap in a byte and the last is empty. -/
theorem markAll_covers_union_top_of_memory :
    let s := Segment.raw "top" 0xfffffffa #[0, 0, 0, 0, 0, 0]
    let ranges : List (Address × Nat) :=
      [(0xfffffffe, 5), (0xfffffff9, 4), (0xfffffffb, 2), (0xfffffffc, 2), (0xfffffffa, 0)]
    let c := (ofSegment s).markAll ranges
    ¬ c.covers 0xfffffffa ∧ c.covers 0xfffffffc ∧ c.covers 0xffffffff ∧ ¬ c.covers 0 ∧
      c.count = 5 ∧ {a | c.covers a}.ncard = 5 ∧
      (ofSegment s).markAll (ranges.reverse ++ ranges) = c := by
  intro s ranges c
  obtain ⟨hcovers, hcount, haddresses, hsame⟩ := markAll_covers_union s ranges
  have hfive : c.count = 5 := hcount.trans (by decide +kernel)
  have hend : s.base.toNat + s.bytes.size ≤ UInt32.size := by decide
  have hmembers (r : Address × Nat) : r ∈ ranges.reverse ++ ranges ↔ r ∈ ranges := by simp
  rw [hcovers, hcovers, hcovers, hcovers]
  exact ⟨by decide +kernel, by decide +kernel, by decide +kernel, by decide +kernel, hfive,
    (haddresses hend).symm.trans hfive, hsame _ hmembers⟩

end Coverage

end Disassembly
