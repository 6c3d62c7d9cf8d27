import Disassembly.Proofs.Isa.Codec

namespace Disassembly

namespace Slot

/-- `b`, which stands at position `n` in the slot `s`, is the first byte that is refused. -/
structure RefusedAt (table : RegisterTable) (slots : List Slot) (bs : List UInt8) (n : Nat)
    (s : Slot) (b : UInt8) : Prop where
  slot : slots[n]? = some s
  byte : bs[n]? = some b
  refused : ¬ s.Accepts table b
  before : ∀ m < n, ∀ t ∈ slots[m]?, ∀ c ∈ bs[m]?, t.Accepts table c

variable {table : RegisterTable} {slots : List Slot} {bs : List UInt8} {n k : Nat} {s t : Slot}
  {b c : UInt8} {err : FieldError}

theorem RefusedAt.position_unique {m : Nat} (h : RefusedAt table slots bs n s b)
    (h' : RefusedAt table slots bs m t c) : n = m := by
  rcases Nat.lt_trichotomy n m with hlt | heq | hlt
  · exact absurd (h'.before n hlt s h.slot b h.byte) h.refused
  · exact heq
  · exact absurd (h.before m hlt t h'.slot c h'.byte) h'.refused

/-- What is refused first in a part of the bytes is so in the whole. -/
theorem refusedAt_take_iff :
    RefusedAt table slots (bs.take k) n s b ↔ n < k ∧ RefusedAt table slots bs n s b := by
  constructor
  · intro h
    have hbyte := h.byte
    rw [List.getElem?_take] at hbyte
    split at hbyte
    · next hn =>
      refine ⟨hn, h.slot, hbyte, h.refused, ?_⟩
      intro m hm t ht c hc
      apply h.before m hm t ht c
      rwa [List.getElem?_take, if_pos (Nat.lt_trans hm hn)]
    · cases hbyte
  · intro h
    obtain ⟨hn, h⟩ := h
    refine ⟨h.slot, ?_, h.refused, ?_⟩
    · rw [List.getElem?_take, if_pos hn]
      exact h.byte
    · intro m hm t ht c hc
      rw [List.getElem?_take, if_pos (Nat.lt_trans hm hn)] at hc
      exact h.before m hm t ht c hc

theorem refusedAt_cons_zero_iff :
    RefusedAt table (t :: slots) (c :: bs) 0 s b ↔ t = s ∧ c = b ∧ ¬ t.Accepts table c := by
  constructor
  · intro h
    cases h.slot
    cases h.byte
    exact ⟨rfl, rfl, h.refused⟩
  · intro h
    obtain ⟨rfl, rfl, hrefused⟩ := h
    exact ⟨rfl, rfl, hrefused, by simp⟩

theorem refusedAt_cons_succ_iff :
    RefusedAt table (t :: slots) (c :: bs) (n + 1) s b ↔
      t.Accepts table c ∧ RefusedAt table slots bs n s b := by
  constructor
  · intro h
    refine ⟨h.before 0 (Nat.succ_pos n) t rfl c rfl, h.slot, h.byte, h.refused, ?_⟩
    intro m hm
    exact h.before (m + 1) (Nat.succ_lt_succ hm)
  · intro h
    obtain ⟨hfirst, h⟩ := h
    refine ⟨h.slot, h.byte, h.refused, ?_⟩
    intro m hm
    cases m with
    | zero =>
      intro _ ht _ hc
      cases ht
      cases hc
      exact hfirst
    | succ m => exact h.before m (Nat.lt_of_succ_lt_succ hm)

/-- Reading fails at the first byte that is refused, and if there is none, for want of bytes. -/
theorem failure?_eq_some_iff_refusedAt :
    failure? table slots bs = some err ↔
      (∃ n s b, RefusedAt table slots bs n s b ∧ err = s.fault b) ∨
      ((∀ n s b, ¬ RefusedAt table slots bs n s b) ∧ bs.length < slots.length ∧
        err = .overrun) := by
  induction slots generalizing bs with
  | nil =>
    have hnone (n : Nat) (s : Slot) (b : UInt8) : ¬ RefusedAt table [] bs n s b := by
      intro h
      cases h.slot
    simp [failure?, hnone]
  | cons t slots ih =>
    cases bs with
    | nil =>
      have hnone (n : Nat) (s : Slot) (b : UInt8) : ¬ RefusedAt table (t :: slots) [] n s b := by
        intro h
        cases h.byte
      simp [failure?, hnone, eq_comm]
    | cons c bs =>
      rw [← Nat.or_exists_add_one, ← Nat.and_forall_add_one]
      simp only [refusedAt_cons_zero_iff, refusedAt_cons_succ_iff]
      by_cases hc : t.Accepts table c
      · simp [failure?, hc, ih]
      · simp [failure?, hc, eq_comm]

end Slot

namespace Encoding

variable {e : Encoding} {table : RegisterTable} {bytes : List UInt8} {k : Nat} {err : FieldError}

theorem decode_eq_error_iff_refusedAt :
    e.decode table bytes = .error err ↔
      (∃ n s b, Slot.RefusedAt table e.slots (bytes.drop 1) n s b ∧ err = s.fault b) ∨
      ((∀ n s b, ¬ Slot.RefusedAt table e.slots (bytes.drop 1) n s b) ∧
        (bytes.drop 1).length < e.slots.length ∧ err = .overrun) := by
  rw [decode_eq_error_iff_failure?, Slot.failure?_eq_some_iff_refusedAt]

/-- A part of an instruction is refused for the first bad byte of the whole, if that is in it. -/
theorem refusedAt_drop_take_iff {n : Nat} {s : Slot} {b : UInt8} :
    Slot.RefusedAt table e.slots ((bytes.take k).drop 1) n s b ↔
      n + 1 < k ∧ Slot.RefusedAt table e.slots (bytes.drop 1) n s b := by
  rw [List.drop_take, Slot.refusedAt_take_iff, Nat.lt_sub_iff_add_lt]

theorem decode_take_of_refusedAt {n : Nat} {s : Slot} {b : UInt8}
    (h : Slot.RefusedAt table e.slots (bytes.drop 1) n s b) (hn : n + 1 < k) :
    e.decode table (bytes.take k) = .error (s.fault b) :=
  decode_eq_error_iff_refusedAt.mpr
    (.inl ⟨n, s, b, refusedAt_drop_take_iff.mpr ⟨hn, h⟩, rfl⟩)

theorem decode_take_eq_overrun (hsize : bytes.length = e.size) (hpos : 1 ≤ k) (hcut : k < e.size)
    (h : ∀ n s b, Slot.RefusedAt table e.slots (bytes.drop 1) n s b → k ≤ n + 1) :
    e.decode table (bytes.take k) = .error .overrun := by
  refine decode_eq_error_iff_refusedAt.mpr (.inr ⟨?_, ?_, rfl⟩)
  · intro n s b hrefused
    obtain ⟨hn, hrefused⟩ := refusedAt_drop_take_iff.mp hrefused
    exact absurd hn (Nat.not_lt.mpr (h n s b hrefused))
  · have := e.length_slots
    rw [List.length_drop, List.length_take]
    omega

/-- Nothing is missing from a whole instruction, so only a bad byte makes it fail. -/
theorem decode_eq_error_iff_of_size (hsize : bytes.length = e.size) :
    e.decode table bytes = .error err ↔
      ∃ n s b, Slot.RefusedAt table e.slots (bytes.drop 1) n s b ∧ err = s.fault b := by
  have hfull : ¬ (bytes.drop 1).length < e.slots.length := by
    have := e.length_slots
    rw [List.length_drop]
    omega
  rw [decode_eq_error_iff_refusedAt, or_iff_left (fun h => hfull h.2.1)]

/-- An instruction that is cut short is never decoded. It is refused as the whole one is where the
first bad byte of that is there, and else for want of bytes. -/
theorem decode_take_refuses (e : Encoding) (table : RegisterTable) {bytes : List UInt8}
    (hsize : bytes.length = e.size) {k : Nat} (hpos : 1 ≤ k) (hcut : k < e.size) :
    (∀ err, e.decode table bytes = .error err ↔
      ∃ n s b, Slot.RefusedAt table e.slots (bytes.drop 1) n s b ∧ err = s.fault b) ∧
    (∀ os, e.decode table (bytes.take k) ≠ .ok os) ∧
    (∀ n s b, Slot.RefusedAt table e.slots (bytes.drop 1) n s b → n + 1 < k →
      e.decode table (bytes.take k) = e.decode table bytes) ∧
    ((∀ n s b, Slot.RefusedAt table e.slots (bytes.drop 1) n s b → k ≤ n + 1) →
      e.decode table (bytes.take k) = .error .overrun) := by
  refine ⟨fun err => decode_eq_error_iff_of_size hsize, ?_, ?_,
    decode_take_eq_overrun hsize hpos hcut⟩
  · intro os hos
    by_cases hinside : ∃ n s b, Slot.RefusedAt table e.slots (bytes.drop 1) n s b ∧ n + 1 < k
    · obtain ⟨n, s, b, hrefused, hn⟩ := hinside
      rw [decode_take_of_refusedAt hrefused hn] at hos
      cases hos
    · have hbehind : ∀ n s b, Slot.RefusedAt table e.slots (bytes.drop 1) n s b → k ≤ n + 1 := by
        intro n s b hrefused
        by_contra hn
        exact hinside ⟨n, s, b, hrefused, Nat.not_le.mp hn⟩
      rw [decode_take_eq_overrun hsize hpos hcut hbehind] at hos
      cases hos
  · intro n s b hrefused hn
    rw [decode_take_of_refusedAt hrefused hn]
    exact ((decode_eq_error_iff_of_size hsize).mpr ⟨n, s, b, hrefused, rfl⟩).symm

/-- A sum whose first optional register is not in the table, cut behind that byte and before it. -/
theorem decode_take_refuses_bad_register :
    let bytes : List UInt8 := [0x17, 4, 13, 0x40, 2, 0xff, 0x78, 0x56, 0x34, 0x12, 5]
    bytes.length = Encoding.sumReg.size ∧
      Slot.RefusedAt .standard Encoding.sumReg.slots (bytes.drop 1) 2 .optional 0x40 ∧
      Encoding.sumReg.decode .standard bytes = .error (.register 0x40) ∧
      Encoding.sumReg.decode .standard (bytes.take 4) = Encoding.sumReg.decode .standard bytes ∧
      Encoding.sumReg.decode .standard (bytes.take 3) = .error .overrun := by
  intro bytes
  have hsize : bytes.length = Encoding.sumReg.size := by decide
  have hrefused : Slot.RefusedAt .standard Encoding.sumReg.slots (bytes.drop 1) 2 .optional 0x40 :=
    Slot.refusedAt_cons_succ_iff.mpr ⟨by decide,
      Slot.refusedAt_cons_succ_iff.mpr ⟨by decide,
        Slot.refusedAt_cons_zero_iff.mpr ⟨rfl, rfl, by decide⟩⟩⟩
  obtain ⟨herror, _, hinside, _⟩ :=
    decode_take_refuses .sumReg .standard hsize (show 1 ≤ 4 by decide) (by decide)
  obtain ⟨_, _, _, hbehind⟩ :=
    decode_take_refuses .sumReg .standard hsize (show 1 ≤ 3 by decide) (by decide)
  refine ⟨hsize, hrefused, (herror _).mpr ⟨2, .optional, 0x40, hrefused, rfl⟩,
    hinside 2 .optional 0x40 hrefused (by decide), hbehind ?_⟩
  intro n s b h
  have hn : n = 2 := h.position_unique hrefused
  omega

end Encoding

end Disassembly
