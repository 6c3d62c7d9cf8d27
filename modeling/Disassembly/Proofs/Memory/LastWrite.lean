import Disassembly.Memory.Linear
import Disassembly.Proofs.Memory.Segmentation

namespace Disassembly

namespace Write

/-- The write lies in the `size` addresses from `base` on. Also one without bytes has to begin
there. -/
def Fits (w : Write) (base size : Nat) : Prop :=
  base ≤ w.address.toNat ∧ w.address.toNat < base + size ∧
    w.address.toNat + w.bytes.length ≤ base + size

instance (w : Write) (base size : Nat) : Decidable (w.Fits base size) :=
  inferInstanceAs (Decidable (_ ∧ _ ∧ _))

/-- The byte that the write puts at an address. -/
def byte? (w : Write) (a : Address) : Option UInt8 :=
  if w.address.toNat ≤ a.toNat then w.bytes[a.toNat - w.address.toNat]? else none

/-- The byte that the last of the writes that fit puts at an address. -/
def last? (ws : List Write) (base size : Nat) (a : Address) : Option UInt8 :=
  ((ws.filter (·.Fits base size)).filterMap (·.byte? a)).getLast?

theorem last?_cons (w : Write) (ws : List Write) (base size : Nat) (a : Address) :
    last? (w :: ws) base size a =
      (last? ws base size a).or (if w.Fits base size then w.byte? a else none) := by
  unfold last?
  by_cases hfits : w.Fits base size
  · cases hbyte : w.byte? a with
    | none => simp [hfits, hbyte]
    | some b => simp [hfits, hbyte, List.getLast?_cons, Option.or_some]
  · simp [hfits]

end Write

namespace LinearMemory

theorem getElem?_overwrite (bytes : Array UInt8) (i : Nat) (new : List UInt8) (k : Nat)
    (h : i + new.length ≤ bytes.size) :
    (overwrite bytes i new)[k]? = if i ≤ k then (new[k - i]?).or bytes[k]? else bytes[k]? := by
  induction new generalizing bytes i with
  | nil => simp [overwrite]
  | cons b new ih =>
    rw [List.length_cons] at h
    have hrest : i + 1 + new.length ≤ (bytes.setIfInBounds i b).size := by
      rw [Array.size_setIfInBounds]
      omega
    rw [overwrite, ih _ _ hrest, Array.getElem?_setIfInBounds]
    rcases Nat.lt_trichotomy i k with hk | rfl | hk
    · have hindex : k - i = k - (i + 1) + 1 := by omega
      rw [if_pos (Nat.succ_le_of_lt hk), if_pos hk.le, if_neg hk.ne, hindex,
        List.getElem?_cons_succ]
    · have hsize : i < bytes.size := by omega
      simp [hsize]
    · have hnext : ¬ i + 1 ≤ k := by omega
      rw [if_neg hnext, if_neg hk.not_ge, if_neg hk.ne']

variable {m : LinearMemory} {w : Write}

theorem offset?_eq_some_iff {a : Address} {i : Nat} :
    m.offset? a = some i ↔
      m.base.toNat ≤ a.toNat ∧ a.toNat - m.base.toNat < m.bytes.size ∧
        i = a.toNat - m.base.toNat := by
  simp only [offset?, UInt32.le_iff_toNat_le]
  rw [Option.ite_none_right_eq_some, Option.some.injEq, and_assoc, eq_comm (b := i)]

theorem write_of_fits (h : w.Fits m.base.toNat m.bytes.size) :
    m.write w = (true, { m with
      bytes := overwrite m.bytes (w.address.toNat - m.base.toNat) w.bytes }) := by
  obtain ⟨hbase, hin, hend⟩ := h
  have hoffset : m.offset? w.address = some (w.address.toNat - m.base.toNat) :=
    offset?_eq_some_iff.mpr ⟨hbase, by omega, rfl⟩
  have hlength : w.address.toNat - m.base.toNat + w.bytes.length ≤ m.bytes.size := by omega
  simp only [write, write?, hoffset, if_pos hlength]

/-- A write is carried out as a whole or not at all. -/
theorem write_of_not_fits (h : ¬ w.Fits m.base.toNat m.bytes.size) : m.write w = (false, m) := by
  cases hoffset : m.offset? w.address with
  | none => simp only [write, write?, hoffset]
  | some i =>
    obtain ⟨hbase, hin, rfl⟩ := offset?_eq_some_iff.mp hoffset
    have hlength : ¬ w.address.toNat - m.base.toNat + w.bytes.length ≤ m.bytes.size := by
      intro hlength
      exact h ⟨hbase, by omega, by omega⟩
    simp only [write, write?, hoffset, if_neg hlength]

theorem write_fst (m : LinearMemory) (w : Write) :
    (m.write w).1 = decide (w.Fits m.base.toNat m.bytes.size) := by
  by_cases h : w.Fits m.base.toNat m.bytes.size
  · simp [write_of_fits h, h]
  · simp [write_of_not_fits h, h]

@[simp]
theorem base_write (m : LinearMemory) (w : Write) : (m.write w).2.base = m.base := by
  by_cases h : w.Fits m.base.toNat m.bytes.size
  · rw [write_of_fits h]
  · rw [write_of_not_fits h]

@[simp]
theorem size_write (m : LinearMemory) (w : Write) :
    (m.write w).2.bytes.size = m.bytes.size := by
  by_cases h : w.Fits m.base.toNat m.bytes.size
  · rw [write_of_fits h, size_overwrite]
  · rw [write_of_not_fits h]

theorem read_write (m : LinearMemory) (w : Write) (a : Address) :
    (m.write w).2.read a =
      (if w.Fits m.base.toNat m.bytes.size then w.byte? a else none).or (m.read a) := by
  by_cases h : w.Fits m.base.toNat m.bytes.size
  · rw [write_of_fits h, if_pos h, read_eq, read_eq, Write.byte?]
    obtain ⟨hbase, -, hend⟩ := h
    rw [getElem?_overwrite _ _ _ _ (by omega)]
    by_cases ha : m.base.toNat ≤ a.toNat
    · by_cases hw : w.address.toNat ≤ a.toNat
      · have hle : w.address.toNat - m.base.toNat ≤ a.toNat - m.base.toNat := by omega
        have hindex : a.toNat - m.base.toNat - (w.address.toNat - m.base.toNat) =
            a.toNat - w.address.toNat := by omega
        simp only [if_pos ha, if_pos hw, if_pos hle, hindex]
      · have hle : ¬ w.address.toNat - m.base.toNat ≤ a.toNat - m.base.toNat := by omega
        simp only [if_pos ha, if_neg hw, if_neg hle, Option.none_or]
    · have hw : ¬ w.address.toNat ≤ a.toNat := by omega
      simp only [if_neg ha, if_neg hw, Option.none_or]
  · rw [write_of_not_fits h, if_neg h, Option.none_or]

/-- Carries out writes in their order and tells of each whether it was carried out. -/
def writeAll (m : LinearMemory) : List Write → List Bool × LinearMemory
  | [] => ([], m)
  | w :: ws => ((m.write w).1 :: ((m.write w).2.writeAll ws).1, ((m.write w).2.writeAll ws).2)

@[simp]
theorem base_writeAll (m : LinearMemory) (ws : List Write) :
    (m.writeAll ws).2.base = m.base := by
  induction ws generalizing m with
  | nil => rfl
  | cons w ws ih => rw [writeAll, ih, base_write]

@[simp]
theorem size_writeAll (m : LinearMemory) (ws : List Write) :
    (m.writeAll ws).2.bytes.size = m.bytes.size := by
  induction ws generalizing m with
  | nil => rfl
  | cons w ws ih => rw [writeAll, ih, size_write]

theorem writeAll_fst (m : LinearMemory) (ws : List Write) :
    (m.writeAll ws).1 = ws.map fun w => decide (w.Fits m.base.toNat m.bytes.size) := by
  induction ws generalizing m with
  | nil => rfl
  | cons w ws ih => rw [writeAll, ih, write_fst, base_write, size_write, List.map_cons]

/-- Behind all the writes the last one that fits counts, and what was there before where there is
none. -/
theorem read_writeAll (m : LinearMemory) (ws : List Write) (a : Address) :
    (m.writeAll ws).2.read a =
      (Write.last? ws m.base.toNat m.bytes.size a).or (m.read a) := by
  induction ws generalizing m with
  | nil => rfl
  | cons w ws ih =>
    rw [writeAll, ih, read_write, base_write, size_write, Write.last?_cons, Option.or_assoc]

/-- The addresses of a memory, although it may be larger than the address space. -/
def Holds (m : LinearMemory) (a : Address) : Prop :=
  m.base.toNat ≤ a.toNat ∧ a.toNat < m.base.toNat + m.bytes.size

theorem read_eq_none {a : Address} (h : ¬ m.Holds a) : m.read a = none := by
  rw [read_eq, ite_eq_right_iff]
  intro hbase
  apply Array.getElem?_eq_none
  unfold Holds at h
  omega

theorem read_zeroed {size : Nat} {base a : Address}
    (h : Holds { zeroed size with base } a) :
    LinearMemory.read { zeroed size with base } a = some 0 := by
  obtain ⟨hbase, hin⟩ := h
  simp only [zeroed, Array.size_replicate] at hbase hin
  have hindex : a.toNat - base.toNat < size := by omega
  simp [read_eq, zeroed, hbase, hindex]

/-- A memory that starts with zeros holds what was last written. A write succeeds exactly if it
falls into the memory as a whole, and one that fails changes nothing. Size and base stay. -/
theorem read_last_written (size : Nat) (base : Address) (ws : List Write) :
    let start : LinearMemory := { zeroed size with base }
    let m := (start.writeAll ws).2
    (start.writeAll ws).1 = ws.map (fun w => decide (w.Fits base.toNat size)) ∧
    (∀ w, (m.write w).1 = decide (w.Fits base.toNat size) ∧
      ((m.write w).1 = false → (m.write w).2 = m)) ∧
    m.base = base ∧ m.bytes.size = size ∧
    ∀ a, m.read a =
      if base.toNat ≤ a.toNat ∧ a.toNat < base.toNat + size then
        some ((Write.last? ws base.toNat size a).getD 0)
      else none := by
  intro start m
  have hstart : start.bytes.size = size := Array.size_replicate
  have hbase : m.base = base := base_writeAll start ws
  have hsize : m.bytes.size = size := (size_writeAll start ws).trans hstart
  refine ⟨?_, fun w => ⟨?_, fun hfailed => ?_⟩, hbase, hsize, fun a => ?_⟩
  · rw [writeAll_fst, hstart]
  · rw [write_fst, hbase, hsize]
  · rw [write_fst, decide_eq_false_iff_not] at hfailed
    rw [write_of_not_fits hfailed]
  · by_cases hin : base.toNat ≤ a.toNat ∧ a.toNat < base.toNat + size
    · have hfirst : start.read a = some 0 := read_zeroed (by rwa [Holds, hstart])
      rw [if_pos hin, read_writeAll, hfirst, hstart, Option.or_some]
    · rw [if_neg hin]
      apply read_eq_none
      rwa [Holds, hbase, hsize]

/-- Of the four bytes only two have an address. The first write goes over both of them and beyond,
the second is too long, the third puts a byte over one of the first, and the last, which is empty,
does not begin in the memory. -/
theorem read_last_written_top_of_memory :
    let start : LinearMemory := { zeroed 4 with base := 0xfffffffe }
    let ws : List Write :=
      [⟨0xfffffffe, [1, 2, 3]⟩, ⟨0xffffffff, [8, 8, 8, 8]⟩, ⟨0xfffffffe, [7]⟩, ⟨0, []⟩]
    let m := (start.writeAll ws).2
    (start.writeAll ws).1 = [true, false, true, false] ∧
      m.read 0xfffffffe = some 7 ∧ m.read 0xffffffff = some 2 ∧ m.read 0 = none ∧
      (m.write ⟨0xfffffffe, [0, 0, 0, 0, 0]⟩).2 = m := by
  intro start ws m
  obtain ⟨hdone, hnext, -, -, hread⟩ := read_last_written 4 0xfffffffe ws
  have hlong := (hnext ⟨0xfffffffe, [0, 0, 0, 0, 0]⟩).1.trans (by decide +kernel : _ = false)
  refine ⟨hdone.trans ?_, (hread 0xfffffffe).trans ?_, (hread 0xffffffff).trans ?_,
    (hread 0).trans ?_, (hnext _).2 hlong⟩
  all_goals decide +kernel

end LinearMemory

end Disassembly
