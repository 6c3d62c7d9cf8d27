import Disassembly.Proofs.Isa.Decoding
import Disassembly.Proofs.Listing.PageText
import Mathlib.Logic.Function.Iterate

namespace Disassembly

namespace Image

/-- The bytes at the `count` addresses from `a` on. -/
def bytesFrom (img : Image) (a : Address) (count : Nat) : List (Option UInt8) :=
  (List.range count).map fun k => img.read (a + UInt32.ofNat k)

theorem bytesFrom_add (img : Image) (a : Address) (m n : Nat) :
    img.bytesFrom a (m + n) = img.bytesFrom a m ++ img.bytesFrom (a + UInt32.ofNat m) n := by
  have hshift (k : Nat) : a + UInt32.ofNat (m + k) = a + UInt32.ofNat m + UInt32.ofNat k := by
    rw [UInt32.ofNat_add, UInt32.add_assoc]
  simp only [bytesFrom, List.range_add, List.map_append, List.map_map, Function.comp_def, hshift]

end Image

namespace Processor

/-- Where a sweep goes on from `a`: behind the instruction there, or at the next byte. -/
def advance (p : Processor) (img : Image) (a : Address) : Address :=
  match p.decode img.read a with
  | .ok i => i.next
  | .error _ => a + 1

/-- The address to which a sweep has come after `k` rows. -/
def position (p : Processor) (img : Image) (start : Address) (k : Nat) : Address :=
  (p.advance img)^[k] start

/-- A sweep from `start` has `n` rows before it comes to its end or to a gap. -/
structure Sweeps (p : Processor) (img : Image) (start stop : Address) (n : Nat) : Prop where
  running : ∀ k < n, p.position img start k < stop ∧ img.isMapped (p.position img start k)
  ended : ¬ (p.position img start n < stop ∧ img.isMapped (p.position img start n))

variable {p : Processor} {img : Image} {start stop a : Address} {i : Instruction} {n : Nat}

@[simp]
theorem position_zero : p.position img start 0 = start := rfl

theorem position_succ (k : Nat) :
    p.position img start (k + 1) = p.position img (p.advance img start) k :=
  Function.iterate_succ_apply _ _ _

theorem position_succ_eq_advance (k : Nat) :
    p.position img start (k + 1) = p.advance img (p.position img start k) :=
  Function.iterate_succ_apply' _ _ _

theorem advance_of_ok (h : p.decode img.read a = .ok i) : p.advance img a = i.next := by
  simp [advance, h]

theorem advance_of_error {err : DecodeError} (h : p.decode img.read a = .error err) :
    p.advance img a = a + 1 := by
  simp [advance, h]

theorem decode_of_not_isMapped (h : ¬ img.isMapped a) :
    p.decode img.read a = .error (.unmapped a) := by
  rw [← Image.isSome_read, Bool.not_eq_true, Option.isSome_eq_false_iff,
    Option.isNone_iff_eq_none] at h
  exact InstructionTable.decode_eq_unmapped_iff.mpr ⟨h, rfl⟩

theorem decode_ne_unmapped (h : img.isMapped a) (b : Address) :
    p.decode img.read a ≠ .error (.unmapped b) := by
  intro hgap
  rw [← Image.isSome_read, (InstructionTable.decode_eq_unmapped_iff.mp hgap).1] at h
  cases h

theorem toNat_succ_of_isMapped (h : img.isMapped a) : (a + 1).toNat = a.toNat + 1 :=
  toNat_add_ofNat (Image.succ_lt_size_of_isMapped h)

theorem lt_advance (p : Processor) (h : img.isMapped a) : a < p.advance img a := by
  cases hd : p.decode img.read a with
  | ok i =>
    rw [advance_of_ok hd]
    exact InstructionTable.lt_next_of_decode hd
  | error err =>
    have hsucc := toNat_succ_of_isMapped h
    rw [advance_of_error hd, UInt32.lt_iff_toNat_lt]
    omega

namespace Sweeps

theorem succ (hstop : a < stop) (hmapped : img.isMapped a)
    (h : p.Sweeps img (p.advance img a) stop n) : p.Sweeps img a stop (n + 1) := by
  constructor
  · intro k hk
    cases k with
    | zero => exact ⟨hstop, hmapped⟩
    | succ k =>
      rw [position_succ]
      exact h.running k (by omega)
  · rw [position_succ]
    exact h.ended

theorem tail (h : p.Sweeps img a stop (n + 1)) : p.Sweeps img (p.advance img a) stop n := by
  constructor
  · intro k hk
    rw [← position_succ]
    exact h.running (k + 1) (by omega)
  · rw [← position_succ]
    exact h.ended

end Sweeps

/-- A sweep comes to its end, because its address grows and addresses are limited. -/
theorem exists_sweeps (p : Processor) (img : Image) (start stop : Address) :
    ∃ n, p.Sweeps img start stop n := by
  induction hroom : UInt32.size - start.toNat using Nat.strongRecOn generalizing start with
  | ind room ih =>
    by_cases hrunning : start < stop ∧ img.isMapped start
    · have hlt := UInt32.lt_iff_toNat_lt.mp (p.lt_advance hrunning.2)
      have hsize := (p.advance img start).toNat_lt_size
      obtain ⟨n, hn⟩ := ih _ (by omega) (p.advance img start) rfl
      exact ⟨n + 1, hn.succ hrunning.1 hrunning.2⟩
    · exact ⟨0, fun k hk => absurd hk (Nat.not_lt_zero k), hrunning⟩

end Processor

namespace Row

variable {p : Processor} {img : Image}

/-- What a sweep shows at a mapped address. -/
def swept (p : Processor) (img : Image) (a : Address) : Row :=
  match p.decode img.read a with
  | .ok i => code i
  | .error _ => data a ((img.read a).getD 0)

/-- All that a sweep from `start` shows if it has `n` rows before its end or a gap. -/
def sweptTo (p : Processor) (img : Image) (start stop : Address) (n : Nat) : List Row :=
  let last := p.position img start n
  ((List.range n).map fun k => swept p img (p.position img start k)) ++
    if last < stop ∧ ¬ img.isMapped last then [unmapped last] else []

theorem sweptTo_succ (p : Processor) (img : Image) (start stop : Address) (n : Nat) :
    sweptTo p img start stop (n + 1) =
      swept p img start :: sweptTo p img (p.advance img start) stop n := by
  simp [sweptTo, List.range_succ_eq_map, Processor.position_succ]

theorem sweepFrom_of_running {stop a : Address} (rows : List Row) (hstop : a < stop)
    (hmapped : img.isMapped a) :
    sweepFrom p img stop rows a =
      sweepFrom p img stop (swept p img a :: rows) (p.advance img a) := by
  rw [sweepFrom, dif_pos hstop]
  cases hd : p.decode img.read a with
  | ok i =>
    have hnext : a < i.next := InstructionTable.lt_next_of_decode hd
    simp only [dif_pos hnext, swept, hd, Processor.advance_of_ok hd]
  | error err =>
    have hsucc := Processor.toNat_succ_of_isMapped hmapped
    have hwrap : a + 1 ≠ 0 := by
      intro hzero
      rw [hzero] at hsucc
      cases hsucc
    cases err with
    | unmapped b => exact absurd hd (Processor.decode_ne_unmapped hmapped b)
    | _ => simp only [if_neg hwrap, swept, hd, Processor.advance_of_error hd]

theorem sweepFrom_of_ended {stop a : Address} (rows : List Row)
    (h : ¬ (a < stop ∧ img.isMapped a)) :
    sweepFrom p img stop rows a =
      (if a < stop ∧ ¬ img.isMapped a then [unmapped a] else []) ++ rows := by
  by_cases hstop : a < stop
  · have hgap : ¬ img.isMapped a := fun hmapped => h ⟨hstop, hmapped⟩
    rw [sweepFrom, dif_pos hstop, Processor.decode_of_not_isMapped hgap]
    simp [hstop, hgap]
  · rw [sweepFrom, dif_neg hstop]
    simp [hstop]

theorem sweepFrom_of_sweeps {stop a : Address} {n : Nat} (rows : List Row)
    (h : p.Sweeps img a stop n) :
    sweepFrom p img stop rows a = (sweptTo p img a stop n).reverse ++ rows := by
  induction n generalizing a rows with
  | zero =>
    have hended : ¬ (a < stop ∧ img.isMapped a) := h.ended
    rw [sweepFrom_of_ended rows hended]
    by_cases hgap : a < stop ∧ ¬ img.isMapped a
    · simp [sweptTo, hgap]
    · simp only [sweptTo, Processor.position_zero, hgap, if_false]
      rfl
  | succ n ih =>
    have hrunning : a < stop ∧ img.isMapped a := h.running 0 (Nat.succ_pos n)
    obtain ⟨hstop, hmapped⟩ := hrunning
    rw [sweepFrom_of_running rows hstop hmapped, ih (swept p img a :: rows) h.tail, sweptTo_succ]
    simp

theorem sweep_of_sweeps {start stop : Address} {n : Nat} (h : p.Sweeps img start stop n) :
    sweep p img start stop = sweptTo p img start stop n := by
  rw [sweep, sweepFrom_of_sweeps [] h]
  simp

end Row

namespace Page

variable {page : Page} {start a : Address} {i : Instruction} {n : Nat}

theorem map_some_bytes (h : page.processor.decode page.image.read a = .ok i) :
    (page.bytes i).map some = page.image.bytesFrom a i.size.toNat := by
  rw [bytes, Image.bytesFrom, List.map_map, InstructionTable.address_of_decode h]
  apply List.map_congr_left
  intro k hk
  have hsome := InstructionTable.isSome_of_decode h (List.mem_range.mp hk)
  obtain ⟨b, hb⟩ := Option.isSome_iff_exists.mp hsome
  simp [hb]

/-- One step of a sweep shows the bytes that it passes over. -/
theorem exists_map_some_rowBytes (h : page.image.isMapped a) :
    ∃ count, (page.processor.advance page.image a).toNat = a.toNat + count ∧
      (page.rowBytes (.swept page.processor page.image a)).map some =
        page.image.bytesFrom a count := by
  cases hd : page.processor.decode page.image.read a with
  | ok i =>
    refine ⟨i.size.toNat, ?_, ?_⟩
    · rw [Processor.advance_of_ok hd]
      exact (InstructionTable.toNat_next_of_decode hd).1
    · simpa [Row.swept, hd, rowBytes] using map_some_bytes hd
  | error err =>
    have hread := h
    rw [← Image.isSome_read] at hread
    obtain ⟨b, hb⟩ := Option.isSome_iff_exists.mp hread
    refine ⟨1, ?_, ?_⟩
    · rw [Processor.advance_of_error hd]
      exact Processor.toNat_succ_of_isMapped h
    · simp [Row.swept, hd, rowBytes, Image.bytesFrom, hb]

/-- What the rows of a sweep show, one after another, are the bytes from its start on. -/
theorem flatMap_rowBytes
    (h : ∀ k < n, page.image.isMapped (page.processor.position page.image start k)) :
    let pos := page.processor.position page.image start
    start.toNat ≤ (pos n).toNat ∧
      ((List.range n).flatMap fun k =>
        page.rowBytes (.swept page.processor page.image (pos k))).map some =
        page.image.bytesFrom start ((pos n).toNat - start.toNat) := by
  intro pos
  induction n with
  | zero => simp [pos, Image.bytesFrom]
  | succ n ih =>
    obtain ⟨hle, hbytes⟩ := ih fun k hk => h k (by omega)
    obtain ⟨count, hadvance, hrow⟩ := exists_map_some_rowBytes (h n (Nat.lt_succ_self n))
    have hnext : (pos (n + 1)).toNat = (pos n).toNat + count := by
      change (page.processor.position page.image start (n + 1)).toNat = _
      rw [Processor.position_succ_eq_advance, hadvance]
    have hcount : (pos (n + 1)).toNat - start.toNat = ((pos n).toNat - start.toNat) + count := by
      omega
    have hpos : start + UInt32.ofNat ((pos n).toNat - start.toNat) = pos n := by
      have hlt := (pos n).toNat_lt_size
      rw [← UInt32.toNat_inj, toNat_add_ofNat (by omega)]
      omega
    refine ⟨by omega, ?_⟩
    rw [hcount, Image.bytesFrom_add, hpos, List.range_succ, List.flatMap_append, List.map_append,
      hbytes]
    simpa using hrow

theorem row_swept_append_newline (page : Page) (a : Address) :
    page.row (.swept page.processor page.image a) ++ "\n" =
      page.lineText a (.swept page.processor page.image a) := by
  cases hd : page.processor.decode page.image.read a with
  | ok i =>
    have haddress : i.address = a := InstructionTable.address_of_decode hd
    have hrow : Row.swept page.processor page.image a = .code i := by simp [Row.swept, hd]
    rw [hrow, ← haddress]
    exact page.instruction_append_newline i
  | error err =>
    have hrow : Row.swept page.processor page.image a = .data a ((page.image.read a).getD 0) := by
      simp [Row.swept, hd]
    rw [hrow]
    exact page.data_append_newline a _

theorem lines_sweptTo (page : Page) (start stop : Address) (n : Nat) :
    let pos := page.processor.position page.image start
    lines ((Row.sweptTo page.processor page.image start stop n).map page.row) =
      String.join ((List.range n).map fun k =>
        page.lineText (pos k) (.swept page.processor page.image (pos k))) ++
      if pos n < stop ∧ ¬ page.image.isMapped (pos n) then
        addressText (pos n) ++ ": " ++ page.processor.config.style.comment ++ " unmapped\n"
      else "" := by
  intro pos
  have hrows : lines ((List.range n).map fun k =>
      page.row (.swept page.processor page.image (pos k))) =
      String.join ((List.range n).map fun k =>
        page.lineText (pos k) (.swept page.processor page.image (pos k))) := by
    simp only [lines_eq_join, List.map_map, Function.comp_def, row_swept_append_newline]
  rw [Row.sweptTo, List.map_append, lines_append, List.map_map, Function.comp_def, hrows]
  by_cases hgap : pos n < stop ∧ ¬ page.image.isMapped (pos n)
  · rw [if_pos hgap, if_pos hgap]
    simp [lines_eq_join, row, Style.remark, String.append_assoc, pos]
  · rw [if_neg hgap, if_neg hgap]
    rfl

/-- A sweep goes from its start to its end or to the first gap before it, over each instruction
at once and byte by byte where nothing decodes. Its text is one line for each of these steps and
one for the gap, and the bytes in its lines are those that it passes over. -/
theorem sweep_tiles (page : Page) (start stop : Address) :
    let pos := page.processor.position page.image start
    let row k := Row.swept page.processor page.image (pos k)
    (∃ n, page.processor.Sweeps page.image start stop n) ∧
    ∀ n, page.processor.Sweeps page.image start stop n →
      page.sweep start stop =
        String.join ((List.range n).map fun k => addressText (pos k) ++ ": " ++
          page.column (page.rowBytes (row k)) ++ page.shown (row k) ++ "\n") ++
        (if pos n < stop ∧ ¬ page.image.isMapped (pos n) then
          addressText (pos n) ++ ": " ++ page.processor.config.style.comment ++ " unmapped\n"
        else "") ∧
      (∀ k < n, (pos k).toNat < (pos (k + 1)).toNat) ∧
      ((List.range n).flatMap fun k => page.rowBytes (row k)).map some =
        page.image.bytesFrom start ((pos n).toNat - start.toNat) := by
  intro pos row
  refine ⟨page.processor.exists_sweeps page.image start stop, ?_⟩
  intro n hn
  have hmapped : ∀ k < n, page.image.isMapped (pos k) := fun k hk => (hn.running k hk).2
  refine ⟨?_, ?_, (flatMap_rowBytes hmapped).2⟩
  · rw [sweep, Row.sweep_of_sweeps hn]
    exact page.lines_sweptTo start stop n
  · intro k hk
    rw [← UInt32.lt_iff_toNat_lt]
    change _ < page.processor.position page.image start (k + 1)
    rw [Processor.position_succ_eq_advance]
    exact page.processor.lt_advance (hmapped k hk)

/-- At the top of the address space: an instruction, a byte that is no opcode, and the first byte
of a branch that the end of the segment cuts off. -/
theorem sweep_tiles_top_of_memory :
    let page : Page := ⟨.standard {}, Image.single 0xfffffffa #[0x30, 5, 0xee, 0x41],
      fun _ => none, true, false⟩
    let pos := page.processor.position page.image 0xfffffffa
    page.processor.Sweeps page.image 0xfffffffa 0xffffffff 3 ∧
      (List.range 4).map pos = [0xfffffffa, 0xfffffffc, 0xfffffffd, 0xfffffffe] ∧
      page.sweep 0xfffffffa 0xffffffff =
        "0xfffffffa: 30 05                              push 5\n" ++
        "0xfffffffc: ee                                 db ee\n" ++
        "0xfffffffd: 41                                 db 41\n" ++
        "0xfffffffe: ; unmapped\n" ∧
      (pos 2).toNat < (pos 3).toNat ∧
      page.image.bytesFrom 0xfffffffa 4 = [some 0x30, some 5, some 0xee, some 0x41] := by
  intro page pos
  have hsweeps : page.processor.Sweeps page.image 0xfffffffa 0xffffffff 3 :=
    ⟨by decide +kernel, by decide +kernel⟩
  obtain ⟨_, hall⟩ := sweep_tiles page 0xfffffffa 0xffffffff
  obtain ⟨htext, hgrows, hbytes⟩ := hall 3 hsweeps
  have hlength : (pos 3).toNat - (0xfffffffa : Address).toNat = 4 := by decide +kernel
  rw [hlength] at hbytes
  refine ⟨hsweeps, by decide +kernel, htext.trans (by decide +kernel), hgrows 2 (by decide), ?_⟩
  rw [← hbytes]
  decide +kernel

end Page

end Disassembly
