import Disassembly.Listing.Page
import Disassembly.Proofs.Listing.Walk

namespace Disassembly

theorem Image.exists_segment_of_load {file : Array UInt8} {base : Address} {skip : Nat}
    {length : Option Nat} {img : Image} (h : Image.load file base skip length = .ok img) :
    ∃ s, img.segments = [s] := by
  unfold Image.load at h
  cases hsize : Image.loadSize file.size base skip length with
  | error e =>
    rw [hsize] at h
    cases h
  | ok count =>
    rw [hsize] at h
    cases h
    exact ⟨_, rfl⟩

theorem Segment.lt_stop_of_contains {s : Segment} {a : Address} (h : s.contains a) : a < s.stop := by
  simp only [Segment.contains, Bool.and_eq_true, decide_eq_true_eq] at h
  exact h.2

theorem Image.isMapped_iff_contains {img : Image} {s : Segment} {a : Address}
    (h : img.segments = [s]) : img.isMapped a ↔ s.contains a := by
  simp [Image.isMapped, Image.segment?, h]

namespace Row

def instruction? : Row → Option Instruction
  | code i => some i
  | _ => none

/-- The row accounts for the byte at the address. -/
def Shows : Row → Address → Prop
  | code i, c => i.Covers c
  | data a _, c => a = c
  | _, _ => False

/-- The rows show each decoded instruction once and in the order of the addresses, and they leave
out no mapped byte between the first instruction and the farthest end of one. -/
structure Complete (img : Image) (x : Exploration) (rows : List Row) : Prop where
  code : rows.filterMap instruction? = x.code
  bytes : ∀ c, img.isMapped c → (∃ i ∈ x.code, i.address ≤ c) → (∃ i ∈ x.code, c < i.next) →
    ∃ r ∈ rows, r.Shows c

variable {p : Processor} {img : Image} {x : Exploration} {labels : Labels} {s : Segment}
  {extent : Extent} {coverage : Coverage} {stop a c : Address} {cs : List Address}

theorem filterMap_instruction?_rowsAt (cs : List Address) :
    (cs.flatMap (rowsAt img x labels coverage)).filterMap instruction? =
      cs.filterMap fun c => x.instructions[c]? := by
  have hlabel (c : Address) :
      ((labels[c]?.map (label c)).toList).filterMap instruction? = [] := by
    cases labels[c]? <;> rfl
  induction cs with
  | nil => rfl
  | cons c cs ih =>
    rw [List.flatMap_cons, List.filterMap_append, ih, rowsAt, List.filterMap_append, hlabel]
    cases hi : x.instructions[c]? with
    | some i => simp [instruction?, hi]
    | none =>
      by_cases hc : coverage.covers c
      · simp [hi, hc]
      · simp [instruction?, hi, hc]

theorem data_mem_rowsAt (hnone : x.instructions[c]? = none) (hc : ¬ coverage.covers c) :
    data c ((img.read c).getD 0) ∈ rowsAt img x labels coverage c := by
  simp [rowsAt, hnone, hc]

namespace Walk

theorem pairwise_instructions (hx : x.Faithful p img) (h : Walk x stop a cs) :
    (cs.filterMap fun c => x.instructions[c]?).Pairwise (fun i j => i.next ≤ j.address) := by
  rw [List.pairwise_filterMap]
  refine (h.pairwise hx).imp ?_
  intro c d hcd i hi j hj
  rw [hx.address_eq hj]
  exact hcd.2 i hi

theorem ascending_instructions (hx : x.Faithful p img) (h : Walk x stop a cs) :
    (cs.filterMap fun c => x.instructions[c]?).Pairwise (fun i j => i.address < j.address) := by
  rw [List.pairwise_filterMap]
  refine (h.pairwise hx).imp ?_
  intro c d hcd i hi j hj
  rw [hx.address_eq hi, hx.address_eq hj]
  exact hcd.1

end Walk

namespace Extent.Describes

variable (hx : x.Faithful p img) (hno : ¬ x.Overlaps) (hs : ∀ a ∈ x.instructions, s.contains a)
  (he : extent.Describes x s) (hwalk : Walk x extent.stop extent.first cs)

include hx hno hs he hwalk

/-- The cursor comes to every instruction, because none has the beginning of another inside. -/
theorem filterMap_walk : (cs.filterMap fun c => x.instructions[c]?) = x.code := by
  refine Instruction.eq_of_ascending (hwalk.ascending_instructions hx) hx.pairwise_code ?_
  intro i
  rw [List.mem_filterMap, Exploration.mem_code_iff]
  constructor
  · intro h
    obtain ⟨c, _, hi⟩ := h
    exact ⟨c, hi⟩
  · intro h
    obtain ⟨a, hi⟩ := h
    have hcontains := hs a (AddressMap.mem_iff.mpr ⟨i, hi⟩)
    have hstop : a < extent.stop := (he.lt_stop_iff a).mpr
      (.inr ⟨a, i, hi, hcontains, hx.lt_next hi, Segment.lt_stop_of_contains hcontains⟩)
    obtain ⟨j, hj⟩ := he.first_decoded
    have hmem := (hwalk.mem_iff hx hno (hx.isBoundary_of_decoded hno hj)).mpr
      ⟨he.first_le a (AddressMap.mem_iff.mpr ⟨i, hi⟩) hcontains, hstop,
        hx.isBoundary_of_decoded hno hi⟩
    exact ⟨a, hmem, hi⟩

/-- A byte of no instruction is a boundary, so the cursor stops there and it is not covered. -/
theorem exists_shows (hlow : extent.first ≤ c) (hhigh : c < extent.stop) :
    ∃ r ∈ cs.flatMap (rowsAt img x labels extent.coverage), r.Shows c := by
  by_cases hcovered : ∃ i ∈ x.code, i.Covers c
  · obtain ⟨i, hi, hcovers⟩ := hcovered
    rw [← filterMap_walk hx hno hs he hwalk, ← filterMap_instruction?_rowsAt,
      List.mem_filterMap] at hi
    obtain ⟨r, hr, hcode⟩ := hi
    cases r with
    | code j =>
      cases hcode
      exact ⟨_, hr, hcovers⟩
    | data | label | unmapped => cases hcode
  · have hnone : ∀ (a : Address) (i : Instruction), x.instructions[a]? = some i → ¬ i.Covers c :=
      fun a i hi hc => hcovered ⟨i, Exploration.mem_code_iff.mpr ⟨a, hi⟩, hc⟩
    obtain ⟨j, hj⟩ := he.first_decoded
    have hmem : c ∈ cs := (hwalk.mem_iff hx hno (hx.isBoundary_of_decoded hno hj)).mpr
      ⟨hlow, hhigh, fun a i hi hc => absurd hc (hnone a i hi)⟩
    have hundecoded : x.instructions[c]? = none := by
      cases hi : x.instructions[c]? with
      | none => rfl
      | some i => exact absurd (hx.covers_first hi) (hnone c i hi)
    have huncovered : ¬ extent.coverage.covers c := by
      intro hc
      obtain ⟨a, i, hi, _, hcovers⟩ := he.exists_of_covers c hc
      exact hnone a i hi hcovers
    refine ⟨data c ((img.read c).getD 0), List.mem_flatMap.mpr ⟨c, hmem, ?_⟩, rfl⟩
    exact data_mem_rowsAt hundecoded huncovered

theorem complete (labels : Labels) (hseg : img.segments = [s]) :
    Complete img x (cs.flatMap (rowsAt img x labels extent.coverage)) := by
  refine ⟨?_, ?_⟩
  · rw [filterMap_instruction?_rowsAt]
    exact filterMap_walk hx hno hs he hwalk
  · intro c hmapped hlow hhigh
    obtain ⟨i, hi, hle⟩ := hlow
    obtain ⟨a, hi⟩ := Exploration.mem_code_iff.mp hi
    obtain ⟨j, hj, hlt⟩ := hhigh
    obtain ⟨b, hj⟩ := Exploration.mem_code_iff.mp hj
    have ha := AddressMap.mem_iff.mpr ⟨i, hi⟩
    have hb := AddressMap.mem_iff.mpr ⟨j, hj⟩
    rw [hx.address_eq hi] at hle
    have hfirst : extent.first ≤ c := UInt32.le_trans (he.first_le a ha (hs a ha)) hle
    have hcontains := (Image.isMapped_iff_contains hseg).mp hmapped
    have hstop : c < extent.stop :=
      (he.lt_stop_iff c).mpr (.inr ⟨b, j, hj, hs b hb, hlt, Segment.lt_stop_of_contains hcontains⟩)
    exact exists_shows hx hno hs he hwalk hfirst hstop

end Extent.Describes

theorem ofSegment_eq (hx : x.Faithful p img) (labels : Labels) (h : extent? x s = some extent) :
    ∃ cs, Walk x extent.stop extent.first cs ∧
      ofSegment img x labels s = cs.flatMap (rowsAt img x labels extent.coverage) := by
  obtain ⟨cs, hwalk, hrows⟩ := exists_walk hx labels extent [] extent.first
  refine ⟨cs, hwalk, ?_⟩
  simp [ofSegment, h, hrows]

theorem code_eq_nil (h : extent? x s = none) (hs : ∀ a ∈ x.instructions, s.contains a) :
    x.code = [] := by
  rw [List.eq_nil_iff_forall_not_mem]
  intro i hi
  obtain ⟨a, hi⟩ := Exploration.mem_code_iff.mp hi
  have ha := AddressMap.mem_iff.mpr ⟨i, hi⟩
  exact extent?_eq_none_iff.mp h a ha (hs a ha)

theorem complete_ofSegment_iff (hx : x.Faithful p img) (labels : Labels)
    (hseg : img.segments = [s]) : Complete img x (ofSegment img x labels s) ↔ ¬ x.Overlaps := by
  have hs : ∀ a ∈ x.instructions, s.contains a := by
    intro a ha
    obtain ⟨i, hi⟩ := AddressMap.mem_iff.mp ha
    exact (Image.isMapped_iff_contains hseg).mp (hx.isMapped hi)
  cases hextent : extent? x s with
  | none =>
    have hcode := code_eq_nil hextent hs
    have hcomplete : Complete img x (ofSegment img x labels s) :=
      ⟨by simp [ofSegment, hextent, hcode], by simp [hcode]⟩
    rw [hx.not_overlaps_iff, hcode]
    simp [hcomplete]
  | some extent =>
    have he := describes_of_extent? hextent
    obtain ⟨cs, hwalk, hrows⟩ := ofSegment_eq hx labels hextent
    rw [hrows]
    constructor
    · intro hcomplete
      rw [hx.not_overlaps_iff, ← hcomplete.code, filterMap_instruction?_rowsAt]
      exact hwalk.pairwise_instructions hx
    · intro hno
      exact he.complete hx hno hs hwalk labels hseg

end Row

namespace Page

/-- The text of a listing is its rows line by line. They show all of the explored program exactly
if no two of its instructions overlap: the cursor of a listing goes over the beginning of an
instruction that lies inside another one. -/
theorem listing_complete_iff (page : Page) {file : Array UInt8} {base : Address} {skip : Nat}
    {length : Option Nat} (h : Image.load file base skip length = .ok page.image)
    (limit : Nat) (entries : List Address) (labels : Labels) :
    let x := page.processor.explore page.image limit entries
    let rows := Row.listing page.image x labels
    page.listing x labels = lines (rows.map page.indented) ∧
      (Row.Complete page.image x rows ↔ ¬ x.Overlaps) := by
  intro x rows
  refine ⟨rfl, ?_⟩
  have hx : x.Faithful page.processor page.image :=
    page.processor.explore_faithful page.image limit entries
  obtain ⟨s, hseg⟩ := Image.exists_segment_of_load h
  have hrows : rows = Row.ofSegment page.image x labels s := by
    simp [rows, Row.listing, hseg]
  rw [hrows]
  exact Row.complete_ofSegment_iff hx labels hseg

/-- A branch over a byte that no instruction takes up: the byte has a row of its own. -/
theorem listing_complete_gap :
    let page : Page :=
      ⟨.standard {}, Image.single 0 #[0x41, 4, 0, 0xee, 1], fun _ => none, false, false⟩
    let x := page.processor.explore page.image 100 [0]
    Image.load #[0x41, 4, 0, 0xee, 1] 0 0 none = .ok page.image ∧ ¬ x.Overlaps ∧
      Row.Complete page.image x (Row.listing page.image x ∅) ∧
      .data 3 0xee ∈ Row.listing page.image x ∅ := by
  intro page x
  have hload : Image.load #[0x41, 4, 0, 0xee, 1] 0 0 none = .ok page.image := rfl
  have hx : x.Faithful page.processor page.image := page.processor.explore_faithful _ _ _
  have hno : ¬ x.Overlaps := hx.not_overlaps_iff.mpr (by decide +kernel)
  have hcomplete := (listing_complete_iff page hload 100 [0] ∅).2.mpr hno
  exact ⟨hload, hno, hcomplete, by decide +kernel⟩

/-- A jump to its own last byte, which begins another instruction. That instruction has no row
although the jump names it, and the byte at 0x3003 is in no row at all. -/
theorem not_complete_listing_jump_into_itself :
    let page : Page :=
      ⟨.standard {}, Image.single 0x3000 #[0x40, 2, 0x30, 5, 1], fun _ => none, false, false⟩
    let x := page.processor.explore page.image 100 [0x3000]
    let rows := Row.listing page.image x ∅
    Image.load #[0x40, 2, 0x30, 5, 1] 0x3000 0 none = .ok page.image ∧
      ¬ Row.Complete page.image x rows ∧
      x.instructions[(0x3002 : Address)]? = some ⟨0x3002, 25, 2, [.imm 5]⟩ ∧
      (∀ r ∈ rows, ¬ r.Shows 0x3003) ∧
      page.listing x ∅ = "  0x00003000: jmp 3002\n  0x00003004: halt\n" := by
  intro page x rows
  have hpush : x.instructions[(0x3002 : Address)]? = some ⟨0x3002, 25, 2, [.imm 5]⟩ := by
    decide +kernel
  have hrows : rows = [.code ⟨0x3000, 29, 3, [.direct 0x3002]⟩, .code ⟨0x3004, 1, 1, []⟩] := by
    decide +kernel
  have hbyte : ∀ r ∈ rows, ¬ r.Shows 0x3003 := by
    rw [hrows]
    simp [Row.Shows, Instruction.Covers]
  refine ⟨rfl, ?_, hpush, hbyte, by decide +kernel⟩
  intro hcomplete
  have hmem : (⟨0x3002, 25, 2, [.imm 5]⟩ : Instruction) ∈ x.code :=
    Exploration.mem_code_iff.mpr ⟨_, hpush⟩
  rw [← hcomplete.code, hrows] at hmem
  simp [Row.instruction?] at hmem

end Page

end Disassembly
