import Disassembly.Flow.Graph
import Disassembly.Listing.Page
import Disassembly.Memory.Linear
import Disassembly.Proofs.Flow.Locality

namespace Disassembly

namespace Segment

/-- The byte that the segment has at an address. -/
def read (s : Segment) (a : Address) : Option UInt8 :=
  if s.contains a then s.bytes[(a - s.base).toNat]? else none

/-- The segment ends below the end of the address space. -/
def Fits (s : Segment) : Prop :=
  s.base.toNat + s.bytes.size < UInt32.size

/-- `low` has the first `k` bytes of `s`, and `high` has the others behind them. -/
structure IsSplit (s low high : Segment) (k : Nat) : Prop where
  le_size : k ≤ s.bytes.size
  low_base : low.base = s.base
  low_bytes : low.bytes = s.bytes.extract 0 k
  high_base : high.base = s.base + UInt32.ofNat k
  high_bytes : high.bytes = s.bytes.extract k s.bytes.size

variable {s low high : Segment} {k : Nat} {a : Address}

theorem isSome_read_of_contains (h : s.contains a) : (s.read a).isSome := by
  have hlt := s.offset_lt_size h
  simp [read, h, hlt]

/-- Nothing wraps in a segment that fits. -/
theorem read_of_fits (h : s.Fits) (a : Address) :
    s.read a =
      if s.base.toNat ≤ a.toNat then s.bytes[a.toNat - s.base.toNat]? else none := by
  have hstop : s.stop.toNat = s.base.toNat + s.bytes.size := toNat_add_ofNat h
  simp only [read, contains, Bool.and_eq_true, decide_eq_true_eq, UInt32.le_iff_toNat_le,
    UInt32.lt_iff_toNat_lt, hstop]
  by_cases hbase : s.base.toNat ≤ a.toNat
  · have hoffset : (a - s.base).toNat = a.toNat - s.base.toNat :=
      UInt32.toNat_sub_of_le a s.base (UInt32.le_iff_toNat_le.mpr hbase)
    by_cases hin : a.toNat < s.base.toNat + s.bytes.size
    · simp [hbase, hin, hoffset]
    · have hout : s.bytes.size ≤ a.toNat - s.base.toNat := by omega
      simp [hbase, hin, hout]
  · simp [hbase]

namespace IsSplit

theorem toNat_high_base (h : s.IsSplit low high k) (hfits : s.Fits) :
    high.base.toNat = s.base.toNat + k := by
  have hle := h.le_size
  rw [h.high_base]
  apply toNat_add_ofNat
  unfold Fits at hfits
  omega

theorem low_fits (h : s.IsSplit low high k) (hfits : s.Fits) : low.Fits := by
  have hle := h.le_size
  unfold Fits at hfits ⊢
  rw [h.low_base, h.low_bytes, Array.size_extract]
  omega

theorem high_fits (h : s.IsSplit low high k) (hfits : s.Fits) : high.Fits := by
  have hle := h.le_size
  have hbase := h.toNat_high_base hfits
  unfold Fits at hfits ⊢
  rw [hbase, h.high_bytes, Array.size_extract]
  omega

/-- The two parts have the bytes of the whole. -/
theorem read_or_read (h : s.IsSplit low high k) (hfits : s.Fits) (a : Address) :
    (low.read a).or (high.read a) = s.read a := by
  have hle := h.le_size
  rw [read_of_fits hfits, read_of_fits (h.low_fits hfits), read_of_fits (h.high_fits hfits),
    h.toNat_high_base hfits, h.low_base, h.low_bytes, h.high_bytes]
  by_cases hbase : s.base.toNat ≤ a.toNat
  · by_cases hcut : s.base.toNat + k ≤ a.toNat
    · have hlow : (s.bytes.extract 0 k)[a.toNat - s.base.toNat]? = none := by
        apply Array.getElem?_eq_none
        rw [Array.size_extract]
        omega
      have hhigh : (s.bytes.extract k)[a.toNat - (s.base.toNat + k)]? =
          s.bytes[a.toNat - s.base.toNat]? := by
        rw [Array.getElem?_extract, Nat.min_self]
        have hsum : k + (a.toNat - (s.base.toNat + k)) = a.toNat - s.base.toNat := by omega
        split
        · rw [hsum]
        · rw [Array.getElem?_eq_none (by omega)]
      simp only [hbase, hcut, hlow, hhigh, if_true, Option.none_or]
    · have hlow : (s.bytes.extract 0 k)[a.toNat - s.base.toNat]? =
          s.bytes[a.toNat - s.base.toNat]? := by
        rw [Array.getElem?_extract, if_pos (by omega), Nat.zero_add]
      simp only [hbase, hcut, hlow, if_true, if_false, Option.or_none]
  · have hcut : ¬ s.base.toNat + k ≤ a.toNat := by omega
    simp only [hbase, hcut, if_false, Option.none_or]

end IsSplit

end Segment

namespace Image

theorem read_eq_findSome? (img : Image) (a : Address) :
    img.read a = img.segments.findSome? (·.read a) := by
  obtain ⟨segments⟩ := img
  induction segments with
  | nil => rfl
  | cons s segments ih =>
    by_cases hs : s.contains a
    · obtain ⟨b, hb⟩ := Option.isSome_iff_exists.mp (Segment.isSome_read_of_contains hs)
      have hread : s.bytes[(a - s.base).toNat]? = some b := by simpa [Segment.read, hs] using hb
      simp [read, segment?, hs, hb, hread]
    · have hnone : s.read a = none := by simp [Segment.read, hs]
      simpa [read, segment?, hs, hnone] using ih

theorem isMapped_congr {img img' : Image} (h : img'.read = img.read) (a : Address) :
    img'.isMapped a = img.isMapped a := by
  rw [← isSome_read, ← isSome_read, h]

theorem read_split {s low high : Segment} {k : Nat} (h : s.IsSplit low high k) (hfits : s.Fits)
    (before after : List Segment) :
    read ⟨before ++ low :: high :: after⟩ = read ⟨before ++ s :: after⟩ := by
  funext a
  simp only [read_eq_findSome?, List.findSome?_append]
  congr 1
  simp only [List.findSome?_cons, ← h.read_or_read hfits a]
  cases low.read a with
  | none => simp
  | some b => simp

end Image

namespace LinearMemory

theorem read_eq (m : LinearMemory) (a : Address) :
    m.read a = if m.base.toNat ≤ a.toNat then m.bytes[a.toNat - m.base.toNat]? else none := by
  simp only [read, offset?, UInt32.le_iff_toNat_le]
  by_cases hbase : m.base.toNat ≤ a.toNat
  · by_cases hin : a.toNat - m.base.toNat < m.bytes.size
    · simp [hbase, hin]
    · simp [hbase, hin]
  · simp [hbase]

/-- A buffer that fits below the end of the address space is an image of one segment. -/
theorem read_eq_read_single {bytes : Array UInt8} {base : Address}
    (h : base.toNat + bytes.size < UInt32.size) :
    read ⟨bytes, base⟩ = (Image.single base bytes).read := by
  have hfits : (Segment.raw "segment0" base bytes).Fits := h
  funext a
  have hsingle : (Image.single base bytes).read a = (Segment.raw "segment0" base bytes).read a := by
    rw [Image.read_eq_findSome?]
    change List.findSome? (·.read a) [Segment.raw "segment0" base bytes] = _
    simp
  rw [hsingle, Segment.read_of_fits hfits, read_eq]
  rfl

end LinearMemory

namespace Processor

/-- An exploration knows an image only by its bytes. -/
theorem explore_congr_read (p : Processor) {img img' : Image} (h : img'.read = img.read)
    (limit : Nat) (entries : List Address) :
    p.explore img' limit entries = p.explore img limit entries := by
  apply explore_congr (Image.isMapped_congr h)
  intro a _
  rw [h]

end Processor

namespace Row

variable {p : Processor} {img img' : Image}

theorem sweepFrom_congr (h : img'.read = img.read) (stop : Address) (rows : List Row)
    (a : Address) : sweepFrom p img' stop rows a = sweepFrom p img stop rows a := by
  fun_induction sweepFrom p img stop rows a with
  | case1 rows a ha i hd hlt ih =>
    rw [sweepFrom, dif_pos ha]
    simp only [h, hd, dif_pos hlt, ih]
  | case2 rows a ha i hd hlt =>
    rw [sweepFrom, dif_pos ha]
    simp only [h, hd, dif_neg hlt]
  | case3 rows a ha _ hd =>
    rw [sweepFrom, dif_pos ha]
    simp only [h, hd]
  | case4 rows a ha err herr hd row hlast =>
    rw [sweepFrom, dif_pos ha]
    simp only [h, hd, if_pos hlast, row]
  | case5 rows a ha err herr hd row hlast ih =>
    rw [sweepFrom, dif_pos ha]
    simp only [h, hd, if_neg hlast]
    exact ih
  | case6 rows a ha => rw [sweepFrom, dif_neg ha]

theorem sweep_congr (h : img'.read = img.read) (start stop : Address) :
    sweep p img' start stop = sweep p img start stop := by
  rw [sweep, sweep, sweepFrom_congr h]

end Row

namespace Page

variable {p : Processor} {img img' : Image}

theorem row_congr (h : img'.read = img.read) (names : Names) (showBytes color : Bool) (r : Row) :
    row ⟨p, img', names, showBytes, color⟩ r = row ⟨p, img, names, showBytes, color⟩ r := by
  cases r with
  | code i => simp only [row, instruction, bytes, h]
  | data a b => simp only [row, data]
  | label a name => rfl
  | unmapped a => rfl

/-- A sweep knows an image only by its bytes. -/
theorem sweep_congr (h : img'.read = img.read) (names : Names) (showBytes color : Bool)
    (start stop : Address) :
    sweep ⟨p, img', names, showBytes, color⟩ start stop =
      sweep ⟨p, img, names, showBytes, color⟩ start stop := by
  simp only [sweep, Row.sweep_congr h, funext (row_congr h names showBytes color)]

end Page

namespace Image

/-- Where a segment ends and the next one begins cannot be seen from outside: with a segment cut
in two, every address is mapped to the same byte as before, and so explorations, graphs, labels and
sweeps stay the same. Nor does it matter whether bytes are the one segment of an image or plain
memory. -/
theorem segmentation_invisible {s low high : Segment} {k : Nat} (hsplit : s.IsSplit low high k)
    (hfits : s.Fits) (before after : List Segment) :
    let img : Image := ⟨before ++ s :: after⟩
    let img' : Image := ⟨before ++ low :: high :: after⟩
    (∀ a, img'.read a = img.read a ∧ img'.isMapped a = img.isMapped a) ∧
    (∀ (p : Processor) (limit : Nat) (entries : List Address),
      p.explore img' limit entries = p.explore img limit entries ∧
      p.graph img' limit entries = p.graph img limit entries ∧
      ∀ known, (p.graph img' limit entries).labels known =
        (p.graph img limit entries).labels known) ∧
    (∀ (p : Processor) (names : Names) (showBytes color : Bool) (start stop : Address),
      Page.sweep ⟨p, img', names, showBytes, color⟩ start stop =
        Page.sweep ⟨p, img, names, showBytes, color⟩ start stop) ∧
    (∀ (base : Address) (bytes : Array UInt8), base.toNat + bytes.size < UInt32.size →
      ∀ (table : InstructionTable) (registers : RegisterTable) (a : Address),
        table.decode registers (single base bytes).read a =
          table.decode registers (LinearMemory.mk bytes base).read a) := by
  intro img img'
  have hread : img'.read = img.read := read_split hsplit hfits before after
  refine ⟨?_, ?_, ?_, ?_⟩
  · intro a
    exact ⟨congrFun hread a, isMapped_congr hread a⟩
  · intro p limit entries
    have hexplore := p.explore_congr_read hread limit entries
    have hgraph : p.graph img' limit entries = p.graph img limit entries := by
      rw [Processor.graph, hexplore, Processor.graph]
    exact ⟨hexplore, hgraph, fun known => by rw [hgraph]⟩
  · intro p names showBytes color start stop
    exact Page.sweep_congr hread names showBytes color start stop
  · intro base bytes hfit table registers a
    rw [LinearMemory.read_eq_read_single hfit]

/-- The cut goes through an instruction, behind which another segment hides a byte. And memory that
ends at the last address that a segment can have. -/
theorem segmentation_invisible_straddling :
    let p := Processor.standard {}
    let other := Segment.raw "other" 0x12 #[2]
    let s := Segment.raw "code" 0x10 #[0x30, 7, 1]
    let low := Segment.raw "low" 0x10 #[0x30]
    let high := Segment.raw "high" 0x11 #[7, 1]
    let page (img : Image) : Page := ⟨p, img, fun _ => none, true, false⟩
    s.IsSplit low high 1 ∧ s.Fits ∧
      p.graph ⟨[other, low, high]⟩ 100 [0x10] = p.graph ⟨[other, s]⟩ 100 [0x10] ∧
      (page ⟨[other, low, high]⟩).sweep 0x10 0x13 = (page ⟨[other, s]⟩).sweep 0x10 0x13 ∧
      (p.explore ⟨[other, low, high]⟩ 100 [0x10]).instructions.toList =
        [(0x10, ⟨0x10, 25, 2, [.imm 7]⟩), (0x12, ⟨0x12, 2, 1, []⟩)] ∧
      p.decode (single 0xfffffffd #[0x30, 7]).read 0xfffffffd =
        p.decode (LinearMemory.mk #[0x30, 7] 0xfffffffd).read 0xfffffffd := by
  intro p other s low high page
  have hsplit : s.IsSplit low high 1 := ⟨by decide, rfl, by decide, by decide, by decide⟩
  have hfits : s.Fits := by
    change 0x10 + 3 < UInt32.size
    decide
  obtain ⟨_, hgraph, hsweep, hlinear⟩ := segmentation_invisible hsplit hfits [other] []
  refine ⟨hsplit, hfits, (hgraph p 100 [0x10]).2.1, hsweep p _ true false 0x10 0x13, ?_, ?_⟩
  · decide +kernel
  · exact hlinear 0xfffffffd #[0x30, 7] (by decide +kernel) p.table p.registers 0xfffffffd

end Image

end Disassembly
