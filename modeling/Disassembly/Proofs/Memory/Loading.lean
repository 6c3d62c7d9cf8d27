import Disassembly.Proofs.Memory.Segmentation

namespace Disassembly

namespace Image

/-- The part of a file that is asked for. -/
def payload (file : Array UInt8) (skip : Nat) (length : Option Nat) : Array UInt8 :=
  file.extract skip (skip + length.getD (file.size - skip))

/-- The image has the bytes of `payload` from `base` on, below the end of the address space, and
no others. -/
structure Carries (img : Image) (base : Address) (payload : Array UInt8) : Prop where
  fits : base.toNat + payload.size ≤ UInt32.size
  read : ∀ i (h : i < payload.size), img.read (base + UInt32.ofNat i) = some payload[i]
  unmapped : ∀ a, (∀ i < payload.size, a ≠ base + UInt32.ofNat i) → img.isMapped a = false

variable {file bytes : Array UInt8} {base : Address} {skip : Nat} {length : Option Nat}
  {img : Image}

theorem size_payload (hlength : ∀ n ∈ length, n ≤ file.size - skip) :
    (payload file skip length).size = length.getD (file.size - skip) := by
  have hle : length.getD (file.size - skip) ≤ file.size - skip := by
    cases length with
    | none => exact Nat.le_refl _
    | some n => exact hlength n rfl
  rw [payload, Array.size_extract]
  omega

theorem load_of_lt_skip (h : file.size < skip) :
    load file base skip length = .error .skipTooLong := by
  simp [load, loadSize, h, Except.map]

theorem load_of_lt_length (hskip : skip ≤ file.size) {n : Nat} (hn : n ∈ length)
    (h : file.size - skip < n) : load file base skip length = .error .lengthTooLong := by
  have hlength : length = some n := hn
  simp [load, loadSize, Nat.not_lt.mpr hskip, hlength, h, Except.map]

/-- Of a payload past the size of the address space, only the remainder has to fit. -/
theorem load_of_le (hskip : skip ≤ file.size) (hlength : ∀ n ∈ length, n ≤ file.size - skip) :
    load file base skip length =
      if base.toNat + (payload file skip length).size % UInt32.size < UInt32.size then
        .ok (single base (payload file skip length))
      else .error (.doesNotFit base) := by
  have hany : length.any (file.size - skip < ·) = false := by
    cases length with
    | none => rfl
    | some n =>
      have hn := hlength n rfl
      simpa using hn
  rw [size_payload hlength]
  simp only [load, loadSize, Nat.not_lt.mpr hskip, hany, if_false, Bool.false_eq_true]
  split
  · next hover =>
    rw [if_neg (Nat.not_lt.mpr hover)]
    rfl
  · next hfits =>
    rw [if_pos (Nat.not_le.mp hfits)]
    rfl

theorem load_eq_ok_iff :
    load file base skip length = .ok img ↔
      skip ≤ file.size ∧ (∀ n ∈ length, n ≤ file.size - skip) ∧
        base.toNat + (payload file skip length).size % UInt32.size < UInt32.size ∧
        img = single base (payload file skip length) := by
  by_cases hskip : skip ≤ file.size
  · by_cases hlength : ∀ n ∈ length, n ≤ file.size - skip
    · rw [load_of_le hskip hlength, and_iff_right hskip, and_iff_right hlength]
      split
      · next hfits => simp [hfits, eq_comm]
      · next hover => simp [hover]
    · obtain ⟨n, hn, hlt⟩ : ∃ n ∈ length, file.size - skip < n := by simpa using hlength
      rw [load_of_lt_length hskip hn hlt]
      simp only [reduceCtorEq, hlength, false_and, and_false]
  · rw [load_of_lt_skip (Nat.not_le.mp hskip)]
    simp [hskip]

/-- A segment that is too long ends where the remainder of its length does. -/
theorem read_single (hfits : base.toNat + bytes.size % UInt32.size < UInt32.size) (a : Address) :
    (single base bytes).read a =
      if base.toNat ≤ a.toNat ∧ a.toNat < base.toNat + bytes.size % UInt32.size then
        bytes[a.toNat - base.toNat]?
      else none := by
  have hstop : (base + UInt32.ofNat bytes.size).toNat =
      base.toNat + bytes.size % UInt32.size := by
    rw [UInt32.toNat_add, UInt32.toNat_ofNat']
    exact Nat.mod_eq_of_lt hfits
  rw [read_eq_findSome?]
  change List.findSome? (·.read a) [Segment.raw "segment0" base bytes] = _
  simp only [List.findSome?_singleton, Segment.read, Segment.contains, Segment.stop, Segment.raw,
    Bool.and_eq_true, decide_eq_true_eq, UInt32.le_iff_toNat_le, UInt32.lt_iff_toNat_lt, hstop]
  split
  · next hin =>
    rw [UInt32.toNat_sub_of_le a base (UInt32.le_iff_toNat_le.mpr hin.1)]
  · rfl

/-- All of the bytes can be read back if and only if there are fewer than addresses. -/
theorem carries_single_iff (hfits : base.toNat + bytes.size % UInt32.size < UInt32.size) :
    (single base bytes).Carries base bytes ↔ bytes.size < UInt32.size := by
  constructor
  · intro h
    by_contra hover
    -- Only at address zero is there room for so many, and there nothing at all is mapped.
    have hfull : bytes.size = UInt32.size := by have := h.fits; omega
    have hzero : bytes.size % UInt32.size = 0 := by rw [hfull, Nat.mod_self]
    have hread := h.read 0 (by rw [hfull]; decide)
    rw [read_single hfits, hzero, if_neg (by omega)] at hread
    cases hread
  · intro hsize
    rw [Nat.mod_eq_of_lt hsize] at hfits
    refine ⟨by omega, ?_, ?_⟩
    · intro i hi
      have hi' : (base + UInt32.ofNat i).toNat = base.toNat + i := toNat_add_ofNat (by omega)
      rw [read_single (by rwa [Nat.mod_eq_of_lt hsize]), Nat.mod_eq_of_lt hsize, hi',
        if_pos (by omega), Nat.add_sub_cancel_left, Array.getElem?_eq_getElem hi]
    · intro a ha
      have hout : ¬ (base.toNat ≤ a.toNat ∧ a.toNat < base.toNat + bytes.size) := by
        intro hin
        apply ha (a.toNat - base.toNat) (by omega)
        apply UInt32.toNat_inj.mp
        rw [toNat_add_ofNat (by omega)]
        omega
      rw [← isSome_read, read_single (by rwa [Nat.mod_eq_of_lt hsize]), Nat.mod_eq_of_lt hsize,
        if_neg hout]
      rfl

/-- A file with as many bytes as there are addresses is loaded anywhere, and nothing is mapped. -/
theorem load_of_size_eq (hsize : file.size = UInt32.size) (base : Address) :
    load file base 0 none = .ok (single base file) ∧
      ∀ a, (single base file).isMapped a = false := by
  have hpayload : payload file 0 none = file := by simp [payload]
  have hzero : file.size % UInt32.size = 0 := by rw [hsize, Nat.mod_self]
  have hfits : base.toNat + file.size % UInt32.size < UInt32.size := by
    rw [hzero]
    exact base.toNat_lt_size
  constructor
  · rw [load_eq_ok_iff, hpayload]
    exact ⟨Nat.zero_le _, by simp, hfits, rfl⟩
  · intro a
    rw [← isSome_read, read_single hfits, hzero, if_neg (by omega)]
    rfl

/-- Loading fails for a part that the file does not have. Otherwise it succeeds if the payload fits
below the end of the address space, where its length counts modulo the size of that space. So what
is loaded is the whole payload if and only if there are fewer bytes in it than addresses. -/
theorem load_carries_iff (file : Array UInt8) (base : Address) (skip : Nat)
    (length : Option Nat) :
    (file.size < skip → load file base skip length = .error .skipTooLong) ∧
    (skip ≤ file.size → ∀ n ∈ length, file.size - skip < n →
      load file base skip length = .error .lengthTooLong) ∧
    ((∃ img, load file base skip length = .ok img) ↔
      skip ≤ file.size ∧ (∀ n ∈ length, n ≤ file.size - skip) ∧
        base.toNat + (payload file skip length).size % UInt32.size < UInt32.size) ∧
    (∀ img, load file base skip length = .ok img →
      (img.Carries base (payload file skip length) ↔
        (payload file skip length).size < UInt32.size)) := by
  refine ⟨load_of_lt_skip, ?_, ?_, ?_⟩
  · intro hskip n hn hlt
    exact load_of_lt_length hskip hn hlt
  · simp only [load_eq_ok_iff, exists_and_left, exists_eq, and_true]
  · intro img himg
    obtain ⟨_, _, hfits, rfl⟩ := load_eq_ok_iff.mp himg
    exact carries_single_iff hfits

/-- As many bytes as there are addresses, with the first at address one. They are loaded although
they do not fit, and then no address is mapped. -/
theorem not_carries_load_from_one :
    let file : Array UInt8 := Array.replicate UInt32.size 0
    load file 1 0 none = .ok (single 1 file) ∧ UInt32.size < (1 : Address).toNat + file.size ∧
      (∀ a, (single 1 file).isMapped a = false) ∧ ¬ (single 1 file).Carries 1 file := by
  intro file
  have hsize : file.size = UInt32.size := Array.size_replicate
  obtain ⟨hload, hmapped⟩ := load_of_size_eq hsize 1
  have hover : UInt32.size < (1 : Address).toNat + file.size := by
    rw [hsize]
    decide
  exact ⟨hload, hover, hmapped, fun h => Nat.not_le.mpr hover h.fits⟩

end Image

end Disassembly
