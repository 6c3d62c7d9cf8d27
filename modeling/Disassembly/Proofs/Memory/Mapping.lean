import Disassembly.Memory.Image

namespace Disassembly

theorem toNat_add_ofNat {a : Address} {k : Nat} (h : a.toNat + k < UInt32.size) :
    (a + UInt32.ofNat k).toNat = a.toNat + k := by
  have hk : (UInt32.ofNat k).toNat = k := UInt32.toNat_ofNat_of_lt' (by omega)
  rw [UInt32.toNat_add, hk]
  exact Nat.mod_eq_of_lt h

theorem add_ofNat_succ (a : Address) (k : Nat) :
    a + UInt32.ofNat (k + 1) = a + 1 + UInt32.ofNat k := by
  rw [UInt32.ofNat_add, UInt32.ofNat_one, UInt32.add_comm (UInt32.ofNat k), UInt32.add_assoc]

namespace Segment

/-- Also for a segment that wraps: it contains nothing. -/
theorem offset_lt_size {s : Segment} {a : Address} (h : s.contains a) :
    (a - s.base).toNat < s.bytes.size := by
  simp only [contains, stop, Bool.and_eq_true, decide_eq_true_eq, UInt32.le_iff_toNat_le,
    UInt32.lt_iff_toNat_lt, UInt32.toNat_add, UInt32.toNat_ofNat'] at h
  obtain ⟨hbase, hstop⟩ := h
  have hoffset : (a - s.base).toNat = a.toNat - s.base.toNat :=
    UInt32.toNat_sub_of_le a s.base (UInt32.le_iff_toNat_le.mpr hbase)
  have ha := a.toNat_lt
  have hsize : s.bytes.size % 2 ^ 32 ≤ s.bytes.size := Nat.mod_le _ _
  have hmod : s.bytes.size % 2 ^ 32 < 2 ^ 32 := Nat.mod_lt _ (by decide)
  rw [hoffset]
  by_cases hwrap : s.base.toNat + s.bytes.size % 2 ^ 32 < 2 ^ 32
  · rw [Nat.mod_eq_of_lt hwrap] at hstop
    omega
  · rw [Nat.mod_eq_sub_mod (by omega), Nat.mod_eq_of_lt (by omega)] at hstop
    omega

end Segment

namespace Image

theorem isSome_read (img : Image) (a : Address) : (img.read a).isSome = img.isMapped a := by
  unfold read isMapped
  cases hs : img.segment? a with
  | none => rfl
  | some s =>
    have hin : s.contains a := by simpa using List.find?_some hs
    have hlt := s.offset_lt_size hin
    simp [hlt]

/-- The last address of the space is in no segment. -/
theorem succ_lt_size_of_isMapped {img : Image} {a : Address} (h : img.isMapped a) :
    a.toNat + 1 < UInt32.size := by
  obtain ⟨s, hs⟩ := Option.isSome_iff_exists.mp h
  have hin : s.contains a := by simpa using List.find?_some hs
  simp only [Segment.contains, Bool.and_eq_true, decide_eq_true_eq] at hin
  have hlt := UInt32.lt_iff_toNat_lt.mp hin.2
  have hstop := s.stop.toNat_lt_size
  omega

end Image

namespace ByteSource

/-- Every byte that is taken is mapped. -/
theorem isSome_of_lt_length_take (m : ByteSource) (a : Address) (count k : Nat)
    (h : k < (m.take a count).length) : (m (a + UInt32.ofNat k)).isSome := by
  induction count generalizing a k with
  | zero => simp [take] at h
  | succ count ih =>
    rw [take] at h
    split at h
    · simp at h
    · next b hb =>
      cases k with
      | zero => simp [hb]
      | succ k =>
        rw [add_ofNat_succ]
        exact ih (a + 1) k (by simpa using h)

/-- A run of bytes is decided by its bytes and by the gap behind them. -/
theorem take_congr {m m' : ByteSource} {a : Address} {count : Nat}
    (h : ∀ k < count, k ≤ (m.take a count).length →
      m' (a + UInt32.ofNat k) = m (a + UInt32.ofNat k)) :
    m'.take a count = m.take a count := by
  induction count generalizing a with
  | zero => rfl
  | succ count ih =>
    have hfirst : m' a = m a := by simpa using h 0 (by omega) (by omega)
    cases hm : m a with
    | none => simp [take, hfirst, hm]
    | some b =>
      have htail : m'.take (a + 1) count = m.take (a + 1) count := by
        apply ih
        intro k hk hle
        have hnext := h (k + 1) (by omega) (by simpa [take, hm] using hle)
        rwa [add_ofNat_succ] at hnext
      simp [take, hfirst, hm, htail]

end ByteSource

/-- A run of bytes of an image ends below the end of the address space. -/
theorem Image.add_length_take_lt (img : Image) (a : Address) (count : Nat) :
    a.toNat + (img.read.take a count).length < UInt32.size := by
  apply Nat.lt_of_not_le
  intro hover
  -- The byte at the last address of the space would belong to the run.
  have hlast := ByteSource.isSome_of_lt_length_take img.read a count (UInt32.size - 1 - a.toNat)
    (by have := a.toNat_lt_size; omega)
  rw [Image.isSome_read] at hlast
  have hlt := Image.succ_lt_size_of_isMapped hlast
  have ha := a.toNat_lt_size
  rw [toNat_add_ofNat (by omega)] at hlt
  omega

end Disassembly
