import Disassembly.Proofs.Listing.Completeness
import Disassembly.Proofs.Listing.PageText
import Disassembly.Proofs.Memory.Segmentation
import Mathlib.Tactic.Choose

namespace Disassembly

namespace Segment

variable {s : Segment} {a : Address}

/-- The address is one of those from the base on that the segment has a byte for. -/
def Holds (s : Segment) (a : Address) : Prop :=
  s.base.toNat ≤ a.toNat ∧ a.toNat < s.base.toNat + s.bytes.size

theorem Fits.contains_iff (h : s.Fits) : s.contains a ↔ s.Holds a := by
  have hstop : s.stop.toNat = s.base.toNat + s.bytes.size := toNat_add_ofNat h
  simp only [contains, Holds, Bool.and_eq_true, decide_eq_true_eq, UInt32.le_iff_toNat_le,
    UInt32.lt_iff_toNat_lt, hstop]

theorem isMapped_of_contains {img : Image} (hs : s ∈ img.segments) (h : s.contains a) :
    img.isMapped a := by
  rw [Image.isMapped, Image.segment?, List.find?_isSome]
  exact ⟨s, hs, h⟩

end Segment

namespace Exploration

/-- The byte at `c` lies between instructions that begin in the segment, and in none itself. -/
structure InGap (x : Exploration) (s : Segment) (c : Address) : Prop where
  uncovered : ∀ (a : Address) (i : Instruction), x.instructions[a]? = some i → ¬ i.Covers c
  behind : ∃ a ∈ x.instructions, s.Holds a ∧ a < c
  before : ∃ (a : Address) (i : Instruction), x.instructions[a]? = some i ∧ s.Holds a ∧ c < i.next

variable {p : Processor} {img : Image} {x : Exploration} {c : Address}

theorem IsBoundary.not_covers (hc : x.IsBoundary c) (hnone : x.instructions[c]? = none)
    (a : Address) (i : Instruction) (hi : x.instructions[a]? = some i) : ¬ i.Covers c := by
  intro hcovers
  obtain rfl := hc a i hi hcovers
  rw [hnone] at hi
  cases hi

theorem not_decoded_or_inGap {s : Segment} (hnone : ∀ a ∈ x.instructions, ¬ s.Holds a)
    (c : Address) : ¬ (s.Holds c ∧ (c ∈ x.instructions ∨ x.InGap s c)) := by
  rintro ⟨hc, hdecoded | hgap⟩
  · exact hnone c hdecoded hc
  · obtain ⟨a, ha, hain, _⟩ := hgap.behind
    exact hnone a ha hain

end Exploration

namespace Row

/-- The row of an instruction that begins at `c`, or else of the byte there. -/
def listed (img : Image) (x : Exploration) (c : Address) : Row :=
  match x.instructions[c]? with
  | some i => code i
  | none => data c ((img.read c).getD 0)

/-- The rows show the addresses `cs` of a segment one after another: where its instructions begin
and the bytes in the gaps between them. -/
structure Tiles (img : Image) (x : Exploration) (labels : Labels) (s : Segment)
    (cs : List Address) (rows : List Row) : Prop where
  ascending : cs.Pairwise (· < ·)
  mem_iff : ∀ c, c ∈ cs ↔ s.Holds c ∧ (c ∈ x.instructions ∨ x.InGap s c)
  /-- A label stands before what it names. -/
  rows_eq : rows = cs.flatMap fun c =>
    (labels[c]?.map (label c)).toList ++ [listed img x c]
  mapped : ∀ c ∈ cs, img.isMapped c
  /-- The cursor never wraps. -/
  next : ∀ c ∈ cs, (c + 1).toNat = c.toNat + 1 ∧
    ∀ i, x.instructions[c]? = some i → i.next.toNat = c.toNat + i.size.toNat
  /-- A label inside an instruction is passed over. -/
  silent : ∀ (a c : Address) (i : Instruction) (name : String),
    x.instructions[a]? = some i → i.Covers c → c ≠ a → label c name ∉ rows

variable {p : Processor} {img : Image} {x : Exploration} {labels : Labels} {s : Segment}
  {extent : Extent} {a c : Address} {cs : List Address}

theorem mem_of_label_mem {name : String}
    (h : label c name ∈ cs.flatMap fun d =>
      (labels[d]?.map (label d)).toList ++ [listed img x d]) : c ∈ cs := by
  obtain ⟨d, hd, hmem⟩ := List.mem_flatMap.mp h
  rcases List.mem_append.mp hmem with hmem | hmem
  · obtain ⟨_, _, heq⟩ := Option.map_eq_some_iff.mp (Option.mem_toList.mp hmem)
    cases heq
    exact hd
  · rw [List.mem_singleton, listed] at hmem
    split at hmem
    · cases hmem
    · cases hmem

theorem rowsAt_of_isBoundary (he : extent.Describes x s) (hc : x.IsBoundary c) :
    rowsAt img x labels extent.coverage c =
      (labels[c]?.map (label c)).toList ++ [listed img x c] := by
  unfold rowsAt listed
  cases hi : x.instructions[c]? with
  | some i => rfl
  | none =>
    have huncovered : ¬ extent.coverage.covers c := by
      intro hcovers
      obtain ⟨a, i, ha, _, hcovers⟩ := he.exists_of_covers c hcovers
      exact hc.not_covers hi a i ha hcovers
    simp [huncovered]

namespace Extent.Describes

variable (hx : x.Faithful p img) (hno : ¬ x.Overlaps) (hfits : s.Fits)
  (he : extent.Describes x s)

include hx hno hfits he

/-- The cursor stops at the instructions that begin in the segment and in the gaps between them. -/
theorem boundary_iff :
    extent.first ≤ c ∧ c < extent.stop ∧ x.IsBoundary c ↔
      s.Holds c ∧ (c ∈ x.instructions ∨ x.InGap s c) := by
  obtain ⟨j, hj⟩ := he.first_decoded
  have hfirst : s.Holds extent.first := hfits.contains_iff.mp he.first_mem
  constructor
  · intro h
    obtain ⟨hle, hstop, hc⟩ := h
    -- The end of the extent is the end of an instruction or of the segment.
    rcases (he.lt_stop_iff c).mp hstop with hlt | ⟨a, i, hi, ha, hnext, hend⟩
    · exact absurd hlt (UInt32.not_lt.mpr hle)
    · have hholds : s.Holds c := by
        have hbase := UInt32.le_iff_toNat_le.mp hle
        have htop := UInt32.lt_iff_toNat_lt.mp hend
        have hsize : s.stop.toNat = s.base.toNat + s.bytes.size := toNat_add_ofNat hfits
        exact ⟨Nat.le_trans hfirst.1 hbase, hsize ▸ htop⟩
      refine ⟨hholds, ?_⟩
      cases hdecoded : x.instructions[c]? with
      | some k => exact .inl (AddressMap.mem_iff.mpr ⟨k, hdecoded⟩)
      | none =>
        have hne : extent.first ≠ c := by
          rintro rfl
          rw [hdecoded] at hj
          cases hj
        exact .inr ⟨hc.not_covers hdecoded,
          ⟨extent.first, AddressMap.mem_iff.mpr ⟨j, hj⟩, hfirst, UInt32.lt_of_le_of_ne hle hne⟩,
          ⟨a, i, hi, hfits.contains_iff.mp ha, hnext⟩⟩
  · intro h
    obtain ⟨hholds, hdecoded | hgap⟩ := h
    · have hcontains := hfits.contains_iff.mpr hholds
      obtain ⟨i, hi⟩ := AddressMap.mem_iff.mp hdecoded
      refine ⟨he.first_le c hdecoded hcontains, ?_, hx.isBoundary_of_decoded hno hi⟩
      exact (he.lt_stop_iff c).mpr
        (.inr ⟨c, i, hi, hcontains, hx.lt_next hi, Segment.lt_stop_of_contains hcontains⟩)
    · obtain ⟨a, ha, hain, hlt⟩ := hgap.behind
      obtain ⟨b, i, hi, hb, hnext⟩ := hgap.before
      have hle := he.first_le a ha (hfits.contains_iff.mpr hain)
      refine ⟨UInt32.le_trans hle (UInt32.le_of_lt hlt), ?_, ?_⟩
      · exact (he.lt_stop_iff c).mpr (.inr ⟨b, i, hi, hfits.contains_iff.mpr hb, hnext,
          Segment.lt_stop_of_contains (hfits.contains_iff.mpr hholds)⟩)
      · intro d k hk hcovers
        exact absurd hcovers (hgap.uncovered d k hk)

theorem tiles (labels : Labels) (hs : s ∈ img.segments)
    (hwalk : Walk x extent.stop extent.first cs) :
    Tiles img x labels s cs (cs.flatMap (rowsAt img x labels extent.coverage)) := by
  obtain ⟨j, hj⟩ := he.first_decoded
  have hcursor (c : Address) := hwalk.mem_iff hx hno (hx.isBoundary_of_decoded hno hj) (c := c)
  have hmem (c : Address) : c ∈ cs ↔ s.Holds c ∧ (c ∈ x.instructions ∨ x.InGap s c) := by
    rw [hcursor, boundary_iff hx hno hfits he]
  have hrows : cs.flatMap (rowsAt img x labels extent.coverage) = cs.flatMap fun c =>
      (labels[c]?.map (label c)).toList ++ [listed img x c] := by
    apply List.flatMap_congr
    intro c hc
    exact rowsAt_of_isBoundary he ((hcursor c).mp hc).2.2
  rw [hrows]
  refine ⟨(hwalk.pairwise hx).imp And.left, hmem, rfl, ?_, ?_, ?_⟩
  · intro c hc
    exact Segment.isMapped_of_contains hs (hfits.contains_iff.mpr ((hmem c).mp hc).1)
  · intro c hc
    exact ⟨toNat_succ_of_lt ((hcursor c).mp hc).2.1, fun i hi => (hx.toNat_next hi).1⟩
  · intro a c i name hi hcovers hne hlabel
    exact hne (((hcursor c).mp (mem_of_label_mem hlabel)).2.2 a i hi hcovers).symm

end Extent.Describes

theorem exists_tiles (hx : x.Faithful p img) (hno : ¬ x.Overlaps) (labels : Labels)
    (hs : s ∈ img.segments) (hfits : s.Fits) :
    ∃ cs, Tiles img x labels s cs (ofSegment img x labels s) := by
  cases hextent : extent? x s with
  | none =>
    have hnone (a : Address) (ha : a ∈ x.instructions) : ¬ s.Holds a := fun h =>
      extent?_eq_none_iff.mp hextent a ha (hfits.contains_iff.mpr h)
    have hrows : ofSegment img x labels s = [] := by simp [ofSegment, hextent]
    rw [hrows]
    refine ⟨[], .nil, ?_, rfl, by simp, by simp, by simp⟩
    intro c
    simp only [List.not_mem_nil, false_iff]
    exact Exploration.not_decoded_or_inGap hnone c
  | some extent =>
    obtain ⟨cs, hwalk, hrows⟩ := ofSegment_eq hx labels hextent
    rw [hrows]
    exact ⟨cs, (describes_of_extent? hextent).tiles hx hno hfits labels hs hwalk⟩

theorem Tiles.eq_nil {rows : List Row} (h : Tiles img x labels s cs rows)
    (hnone : ∀ a ∈ x.instructions, ¬ s.Holds a) : cs = [] ∧ rows = [] := by
  have hcs : cs = [] := by
    rw [List.eq_nil_iff_forall_not_mem]
    intro c hc
    exact Exploration.not_decoded_or_inGap hnone c ((h.mem_iff c).mp hc)
  refine ⟨hcs, ?_⟩
  rw [h.rows_eq, hcs]
  rfl

end Row

namespace Page

/-- What a listing says at an address: the label there on a line of its own, and indented below it
the line of the instruction or byte. -/
def textAt (page : Page) (x : Exploration) (labels : Labels) (c : Address) : String :=
  (match labels[c]? with
    | some name => addressText c ++ " <" ++ name ++ ">:\n"
    | none => "") ++
  "  " ++ page.lineText c (Row.listed page.image x c)

theorem lines_listed {p : Processor} {img : Image} {x : Exploration} (hx : x.Faithful p img)
    (page : Page) (c : Address) :
    lines [page.indented (.listed page.image x c)] =
      "  " ++ page.lineText c (.listed page.image x c) := by
  cases hi : x.instructions[c]? with
  | some i =>
    have haddress : i.address = c := hx.address_eq hi
    have hrow : Row.listed page.image x c = .code i := by simp [Row.listed, hi]
    rw [hrow, ← haddress]
    exact page.lines_indented_code i
  | none =>
    have hrow : Row.listed page.image x c = .data c ((page.image.read c).getD 0) := by
      simp [Row.listed, hi]
    rw [hrow]
    exact page.lines_indented_data c _

theorem lines_rowsAt {p : Processor} {img : Image} {x : Exploration} (hx : x.Faithful p img)
    (page : Page) (labels : Labels) (c : Address) :
    lines (((labels[c]?.map (Row.label c)).toList ++ [Row.listed page.image x c]).map
      page.indented) = page.textAt x labels c := by
  rw [List.map_append, lines_append, List.map_singleton, lines_listed hx, textAt,
    String.append_assoc]
  cases labels[c]? with
  | none => rfl
  | some name => exact congrArg (· ++ _) (page.lines_label c name)

/-- Where no two instructions overlap, a listing goes through each segment once: a segment without
instructions has no rows, and the others are tiled, from their first instruction to the farthest
end of one, by rows of instructions and of the bytes between them. The text is what stands at the
addresses of these rows, one after another. -/
theorem listing_tiles (page : Page) (hfits : ∀ s ∈ page.image.segments, s.Fits) (limit : Nat)
    (entries : List Address) (labels : Labels) :
    let x := page.processor.explore page.image limit entries
    let rows := Row.ofSegment page.image x labels
    x.Overlaps ∨ ∃ cs : Segment → List Address,
      page.listing x labels =
        String.join ((page.image.segments.flatMap cs).map (page.textAt x labels)) ∧
      ∀ s ∈ page.image.segments,
        ((∀ a ∈ x.instructions, ¬ s.Holds a) → cs s = [] ∧ rows s = []) ∧
          Row.Tiles page.image x labels s (cs s) (rows s) := by
  intro x rows
  have hx : x.Faithful page.processor page.image :=
    page.processor.explore_faithful page.image limit entries
  by_cases hoverlaps : x.Overlaps
  · exact .inl hoverlaps
  · choose! cs htiles using fun s hs =>
      Row.exists_tiles hx hoverlaps labels hs (hfits s hs)
    refine .inr ⟨cs, ?_, ?_⟩
    · have hrows : Row.listing page.image x labels = (page.image.segments.flatMap cs).flatMap
          fun c => (labels[c]?.map (Row.label c)).toList ++ [Row.listed page.image x c] := by
        rw [Row.listing, List.flatMap_assoc]
        apply List.flatMap_congr
        intro s hs
        exact (htiles s hs).rows_eq
      rw [listing, hrows, List.map_flatMap, lines_flatMap]
      simp only [lines_rowsAt hx]
    · intro s hs
      exact ⟨(htiles s hs).eq_nil, htiles s hs⟩

/-- The second instruction begins in one segment and ends in the next, a label stands inside the
first, and nothing of the last segment is reached. -/
theorem listing_tiles_straddling :
    let low := Segment.raw "low" 0x10 #[0x40, 0x14, 0, 0xee, 0x30]
    let high := Segment.raw "high" 0x15 #[7, 1, 0xff]
    let other := Segment.raw "other" 0x40 #[2]
    let page : Page := ⟨.standard {}, ⟨[low, high, other]⟩, fun _ => none, false, false⟩
    let x := page.processor.explore page.image 100 [0x10]
    let labels := Labels.ofList [(0x12, "inside"), (0x13, "gap"), (0x16, "done")]
    (∀ s ∈ page.image.segments, s.Fits) ∧ ¬ x.Overlaps ∧
      page.listing x labels =
        "  0x00000010: jmp 14\n" ++
        "0x00000013 <gap>:\n" ++
        "  0x00000013: db ee\n" ++
        "  0x00000014: push 7\n" ++
        "0x00000016 <done>:\n" ++
        "  0x00000016: halt\n" ∧
      (∃ cs, Row.Tiles page.image x labels low cs
        [.code ⟨0x10, 29, 3, [.direct 0x14]⟩, .label 0x13 "gap", .data 0x13 0xee,
          .code ⟨0x14, 25, 2, [.imm 7]⟩]) ∧
      (∃ cs, Row.Tiles page.image x labels high cs
        [.label 0x16 "done", .code ⟨0x16, 1, 1, []⟩]) ∧
      Row.ofSegment page.image x labels other = [] := by
  intro low high other page x labels
  have hfits : ∀ s ∈ page.image.segments, s.Fits := by
    simp only [page, low, high, other, Segment.Fits, Segment.raw]
    decide +kernel
  have hx : x.Faithful page.processor page.image := page.processor.explore_faithful _ _ _
  have hno : ¬ x.Overlaps := hx.not_overlaps_iff.mpr (by decide +kernel)
  have hkeys : x.instructions.keys = [0x10, 0x14, 0x16] := by decide +kernel
  obtain ⟨cs, _, htiles⟩ := (listing_tiles page hfits 100 [0x10] labels).resolve_left hno
  have hlow : Row.ofSegment page.image x labels low =
      [.code ⟨0x10, 29, 3, [.direct 0x14]⟩, .label 0x13 "gap", .data 0x13 0xee,
        .code ⟨0x14, 25, 2, [.imm 7]⟩] := by decide +kernel
  have hhigh : Row.ofSegment page.image x labels high =
      [.label 0x16 "done", .code ⟨0x16, 1, 1, []⟩] := by decide +kernel
  refine ⟨hfits, hno, by decide +kernel, ?_, ?_, ?_⟩
  · rw [← hlow]
    exact ⟨cs low, (htiles low (by simp [page])).2⟩
  · rw [← hhigh]
    exact ⟨cs high, (htiles high (by simp [page])).2⟩
  · refine ((htiles other (by simp [page])).1 ?_).2
    intro a ha
    rw [← Std.ExtTreeMap.mem_keys, hkeys] at ha
    simp only [List.mem_cons, List.not_mem_nil, or_false] at ha
    rcases ha with rfl | rfl | rfl <;> simp [Segment.Holds, other, Segment.raw]

end Page

end Disassembly
