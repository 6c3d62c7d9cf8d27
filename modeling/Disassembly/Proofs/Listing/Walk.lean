import Disassembly.Listing.Row
import Disassembly.Proofs.Flow.Placement
import Disassembly.Proofs.Memory.Coverage

namespace Disassembly

theorem lt_max_iff_address {a b c : Address} : c < max a b ↔ c < a ∨ c < b := by
  change c < (if a ≤ b then b else a) ↔ _
  split <;> grind

theorem lt_min_iff_address {a b c : Address} : c < min a b ↔ c < a ∧ c < b := by
  change c < (if a ≤ b then a else b) ↔ _
  split <;> grind

namespace Row

/-- The addresses `cs` at which the cursor of a listing stops on its way from `a` to `stop`: it
goes over an instruction at once and over any other byte by itself. -/
inductive Walk (x : Exploration) (stop : Address) : Address → List Address → Prop
  | done {a : Address} (reached : ¬ a < stop) : Walk x stop a []
  | code {a : Address} {i : Instruction} {cs : List Address} (room : a < stop)
      (decoded : x.instructions[a]? = some i) (rest : Walk x stop i.next cs) :
      Walk x stop a (a :: cs)
  | gap {a : Address} {cs : List Address} (room : a < stop)
      (undecoded : x.instructions[a]? = none) (rest : Walk x stop (a + 1) cs) :
      Walk x stop a (a :: cs)

/-- What a listing shows where its cursor stops. -/
def rowsAt (img : Image) (x : Exploration) (labels : Labels) (coverage : Coverage) (a : Address) :
    List Row :=
  (labels[a]?.map (label a)).toList ++
    match x.instructions[a]? with
    | some i => [code i]
    | none => if coverage.covers a then [] else [data a ((img.read a).getD 0)]

variable {p : Processor} {img : Image} {x : Exploration} {labels : Labels} {s : Segment}
  {extent : Extent} {stop a c : Address} {cs : List Address}

theorem exists_walk (hx : x.Faithful p img) (labels : Labels) (extent : Extent) (rows : List Row)
    (a : Address) :
    ∃ cs, Walk x extent.stop a cs ∧
      walkFrom img x labels extent rows a =
        (cs.flatMap (rowsAt img x labels extent.coverage)).reverse ++ rows := by
  have hlabel (b : Address) : ((labels[b]?.map (label b)).toList).reverse =
      (labels[b]?.map (label b)).toList := by
    cases labels[b]? <;> rfl
  fun_induction walkFrom img x labels extent rows a with
  | case1 rows a ha rows' i hi hnext ih =>
    obtain ⟨cs, hwalk, hrows⟩ := ih
    refine ⟨a :: cs, .code ha hi hwalk, ?_⟩
    rw [hrows]
    simp [rowsAt, hi, hlabel, rows']
  | case2 rows a ha rows' i hi hnext => exact absurd (hx.lt_next hi) hnext
  | case3 rows a ha rows' hi rows'' ih =>
    obtain ⟨cs, hwalk, hrows⟩ := ih
    refine ⟨a :: cs, .gap ha hi hwalk, ?_⟩
    rw [hrows]
    by_cases hc : extent.coverage.covers a
    · simp [rowsAt, hi, hlabel, rows', rows'', hc]
    · simp [rowsAt, hi, hlabel, rows', rows'', hc]
  | case4 rows a ha => exact ⟨[], .done ha, by simp⟩

namespace Walk

theorem bounds (hx : x.Faithful p img) (h : Walk x stop a cs) (hc : c ∈ cs) : a ≤ c ∧ c < stop := by
  induction h with
  | done => cases hc
  | @code a i cs room decoded _ ih =>
    rcases List.mem_cons.mp hc with rfl | hc
    · exact ⟨UInt32.le_refl _, room⟩
    · have hnext := hx.lt_next decoded
      have hrest := ih hc
      exact ⟨UInt32.le_trans (UInt32.le_of_lt hnext) hrest.1, hrest.2⟩
  | @gap a cs room _ _ ih =>
    rcases List.mem_cons.mp hc with rfl | hc
    · exact ⟨UInt32.le_refl _, room⟩
    · have hrest := ih hc
      refine ⟨?_, hrest.2⟩
      have hsucc := toNat_succ_of_lt room
      have hle := UInt32.le_iff_toNat_le.mp hrest.1
      rw [UInt32.le_iff_toNat_le]
      omega

/-- The cursor never goes back, and not into an instruction that it has gone over. -/
theorem pairwise (hx : x.Faithful p img) (h : Walk x stop a cs) :
    cs.Pairwise (fun c d => c < d ∧ ∀ i, x.instructions[c]? = some i → i.next ≤ d) := by
  induction h with
  | done => exact .nil
  | @code a i cs _ decoded rest ih =>
    refine .cons ?_ ih
    intro d hd
    have hle := (rest.bounds hx hd).1
    refine ⟨UInt32.lt_of_lt_of_le (hx.lt_next decoded) hle, ?_⟩
    intro j hj
    rw [decoded] at hj
    cases hj
    exact hle
  | @gap a cs room undecoded rest ih =>
    refine .cons ?_ ih
    intro d hd
    have hle := UInt32.le_iff_toNat_le.mp (rest.bounds hx hd).1
    have hsucc := toNat_succ_of_lt room
    refine ⟨?_, ?_⟩
    · rw [UInt32.lt_iff_toNat_lt]
      omega
    · intro j hj
      rw [undecoded] at hj
      cases hj

/-- Without overlaps the cursor stops wherever it is not inside an instruction. -/
theorem mem_iff (hx : x.Faithful p img) (hno : ¬ x.Overlaps) (h : Walk x stop a cs)
    (ha : x.IsBoundary a) : c ∈ cs ↔ a ≤ c ∧ c < stop ∧ x.IsBoundary c := by
  induction h with
  | @done a reached =>
    simp only [List.not_mem_nil, false_iff, not_and]
    intro hac hstop
    exact absurd (UInt32.lt_of_le_of_lt hac hstop) reached
  | @code a i cs room decoded _ ih =>
    rw [List.mem_cons, ih (hx.isBoundary_next hno decoded)]
    have hnext := hx.lt_next decoded
    constructor
    · intro h
      rcases h with rfl | ⟨hle, hstop, hc⟩
      · exact ⟨UInt32.le_refl _, room, ha⟩
      · exact ⟨UInt32.le_trans (UInt32.le_of_lt hnext) hle, hstop, hc⟩
    · intro h
      obtain ⟨hle, hstop, hc⟩ := h
      by_cases hin : c < i.next
      · exact .inl (hc a i decoded ((hx.covers_iff decoded).mpr ⟨hle, hin⟩)).symm
      · exact .inr ⟨UInt32.not_lt.mp hin, hstop, hc⟩
  | @gap a cs room undecoded _ ih =>
    have hsucc := toNat_succ_of_lt room
    rw [List.mem_cons, ih (hx.isBoundary_succ ha undecoded hsucc)]
    have hsplit : a ≤ c ↔ c = a ∨ a + 1 ≤ c := by
      rw [UInt32.le_iff_toNat_le, UInt32.le_iff_toNat_le, ← UInt32.toNat_inj]
      omega
    rw [hsplit]
    constructor
    · intro h
      rcases h with rfl | h
      · exact ⟨.inl rfl, room, ha⟩
      · exact ⟨.inr h.1, h.2⟩
    · intro h
      obtain ⟨rfl | hle, hrest⟩ := h
      · exact .inl rfl
      · exact .inr ⟨hle, hrest⟩

end Walk

theorem lt_foldl_stop_iff (is : List Instruction) (s : Segment) (e : Address) :
    c < is.foldl (fun e j => max e (min j.next s.stop)) e ↔
      c < e ∨ ∃ j ∈ is, c < j.next ∧ c < s.stop := by
  induction is generalizing e with
  | nil => simp
  | cons j is ih =>
    rw [List.foldl_cons, ih, lt_max_iff_address, lt_min_iff_address]
    simp [or_assoc]

theorem mem_filter_contains_iff {i : Instruction} :
    (a, i) ∈ (x.instructions.toList.filter fun entry => s.contains entry.1) ↔
      x.instructions[a]? = some i ∧ s.contains a := by
  simp [Std.ExtTreeMap.mem_toList_iff_getElem?_eq_some]

theorem mem_map_filter_contains_iff {i : Instruction} :
    i ∈ (x.instructions.toList.filter fun entry => s.contains entry.1).map Prod.snd ↔
      ∃ a : Address, x.instructions[a]? = some i ∧ s.contains a := by
  rw [List.mem_map]
  constructor
  · intro h
    obtain ⟨⟨a, j⟩, hmem, rfl⟩ := h
    exact ⟨a, mem_filter_contains_iff.mp hmem⟩
  · intro h
    obtain ⟨a, hi⟩ := h
    exact ⟨(a, i), mem_filter_contains_iff.mpr hi, rfl⟩

theorem exists_covers_of_foldl_mark {is : List Instruction}
    (h : (is.foldl (fun c j => c.mark j.address j.size.toNat) (Coverage.ofSegment s)).covers c) :
    ∃ i ∈ is, i.Covers c := by
  have hmarks : is.foldl (fun c j => c.mark j.address j.size.toNat) (Coverage.ofSegment s) =
      (Coverage.ofSegment s).markAll (is.map fun j => (j.address, j.size.toNat)) := by
    rw [Coverage.markAll, List.foldl_map]
  rw [hmarks, Coverage.covers_markAll_iff] at h
  simp only [Coverage.not_covers_ofSegment, Bool.false_eq_true, false_or, List.mem_map] at h
  obtain ⟨_, _, ⟨i, hi, rfl⟩, _, hle, hlt⟩ := h
  exact ⟨i, hi, UInt32.le_iff_toNat_le.mp hle, hlt⟩

theorem extent?_eq_none_iff :
    extent? x s = none ↔ ∀ a ∈ x.instructions, ¬ s.contains a := by
  unfold extent?
  split
  · next hnil =>
    simp only [true_iff]
    intro a ha hin
    obtain ⟨i, hi⟩ := AddressMap.mem_iff.mp ha
    have hmem := mem_filter_contains_iff.mpr ⟨hi, hin⟩
    rw [hnil] at hmem
    cases hmem
  · next first i entries hcons =>
    have hfirst : (first, i) ∈ (x.instructions.toList.filter fun entry => s.contains entry.1) := by
      rw [hcons]
      exact List.mem_cons_self
    obtain ⟨hi, hin⟩ := mem_filter_contains_iff.mp hfirst
    simp only [reduceCtorEq, false_iff]
    intro hnone
    exact hnone first (AddressMap.mem_iff.mpr ⟨i, hi⟩) hin

/-- What an extent says of the instructions that begin in the segment. -/
structure Extent.Describes (e : Extent) (x : Exploration) (s : Segment) : Prop where
  first_decoded : ∃ i, x.instructions[e.first]? = some i
  first_mem : s.contains e.first
  first_le : ∀ a ∈ x.instructions, s.contains a → e.first ≤ a
  lt_stop_iff : ∀ c, c < e.stop ↔ c < e.first ∨
    ∃ (a : Address) (i : Instruction), x.instructions[a]? = some i ∧ s.contains a ∧
      c < i.next ∧ c < s.stop
  exists_of_covers : ∀ c, e.coverage.covers c →
    ∃ (a : Address) (i : Instruction), x.instructions[a]? = some i ∧ s.contains a ∧ i.Covers c

theorem describes_of_extent? (h : extent? x s = some extent) : extent.Describes x s := by
  unfold extent? at h
  split at h
  · cases h
  · next first i entries hcons =>
    have hmem {a : Address} {j : Instruction} : (a, j) ∈ (first, i) :: entries ↔
        x.instructions[a]? = some j ∧ s.contains a := by
      rw [← hcons]
      exact mem_filter_contains_iff
    have hcode {j : Instruction} : j ∈ i :: entries.map Prod.snd ↔
        ∃ a : Address, x.instructions[a]? = some j ∧ s.contains a := by
      rw [← mem_map_filter_contains_iff, hcons, List.map_cons]
    obtain ⟨hfirst, hin⟩ := hmem.mp List.mem_cons_self
    have hascending : ((first, i) :: entries).Pairwise (fun s t => compare s.1 t.1 = .lt) := by
      rw [← hcons]
      exact Std.ExtTreeMap.ordered_keys_toList.filter _
    cases h
    refine ⟨⟨i, hfirst⟩, hin, ?_, ?_, ?_⟩
    · intro a ha hcontains
      obtain ⟨j, hj⟩ := AddressMap.mem_iff.mp ha
      rcases List.mem_cons.mp (hmem.mpr ⟨hj, hcontains⟩) with heq | hlater
      · cases heq
        exact UInt32.le_refl _
      · have hlt := (List.pairwise_cons.mp hascending).1 _ hlater
        exact UInt32.le_of_lt (Std.compare_eq_lt.mp hlt)
    · intro c
      rw [lt_foldl_stop_iff]
      simp only [hcode]
      grind
    · intro c hcovers
      obtain ⟨j, hj, hc⟩ := exists_covers_of_foldl_mark hcovers
      obtain ⟨a, hja, hcontains⟩ := hcode.mp hj
      exact ⟨a, j, hja, hcontains, hc⟩

end Row

end Disassembly
