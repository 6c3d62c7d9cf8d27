import Disassembly.Proofs.Isa.Slot
import Mathlib.Algebra.Group.Nat.Defs
import Mathlib.Data.List.Forall2

namespace Disassembly

theorem length_toLittleEndian (count n : Nat) : (toLittleEndian count n).length = count := by
  induction count generalizing n with
  | zero => rfl
  | succ count ih => simp [toLittleEndian, ih]

theorem ofLittleEndian_cons (b : UInt8) (bs : List UInt8) :
    ofLittleEndian (b :: bs) = b.toNat + 256 * ofLittleEndian bs := rfl

theorem ofLittleEndian_lt (bs : List UInt8) : ofLittleEndian bs < 256 ^ bs.length := by
  induction bs with
  | nil => decide
  | cons b bs ih =>
    have hb := b.toNat_lt
    rw [ofLittleEndian_cons, List.length_cons, Nat.pow_succ]
    omega

theorem ofLittleEndian_toLittleEndian (count n : Nat) (h : n < 256 ^ count) :
    ofLittleEndian (toLittleEndian count n) = n := by
  induction count generalizing n with
  | zero =>
    have hn : n = 0 := by simpa using h
    rw [hn]
    rfl
  | succ count ih =>
    have hrest : n / 256 < 256 ^ count := by
      rw [Nat.div_lt_iff_lt_mul (by decide), ← Nat.pow_succ]
      exact h
    have hlow : (UInt8.ofNat n).toNat = n % 256 := UInt8.toNat_ofNat'
    rw [toLittleEndian, ofLittleEndian_cons, ih (n / 256) hrest, hlow]
    omega

theorem toLittleEndian_ofLittleEndian (bs : List UInt8) :
    toLittleEndian bs.length (ofLittleEndian bs) = bs := by
  induction bs with
  | nil => rfl
  | cons b bs ih =>
    have hb := b.toNat_lt
    have hlow : UInt8.ofNat (b.toNat + 256 * ofLittleEndian bs) = b := by
      apply UInt8.toNat_inj.mp
      rw [UInt8.toNat_ofNat']
      omega
    have hrest : (b.toNat + 256 * ofLittleEndian bs) / 256 = ofLittleEndian bs := by omega
    rw [ofLittleEndian_cons, List.length_cons, toLittleEndian, hlow, hrest, ih]

theorem Register.mk_eq_iff {b : UInt8} {r : Register} : ⟨b⟩ = r ↔ b = r.id := by
  cases r
  simp

namespace FieldReader

variable {α β : Type} {table : RegisterTable} {bs rest : List UInt8}

theorem bind_eq_ok_iff {r : FieldReader α} {f : α → FieldReader β} {w : β} :
    (r >>= f) bs = .ok (w, rest) ↔ ∃ v mid, r bs = .ok (v, mid) ∧ f v mid = .ok (w, rest) := by
  rw [bind_apply]
  cases h : r bs with
  | error err => simp [Except.bind]
  | ok q => simp [Except.bind, Prod.ext_iff]

theorem pure_eq_ok_iff {v w : α} :
    (pure v : FieldReader α) bs = .ok (w, rest) ↔ v = w ∧ bs = rest := by
  change Except.ok (v, bs) = Except.ok (w, rest) ↔ _
  simp

theorem register_eq_ok_iff {r : Register} :
    register table bs = .ok (r, rest) ↔ table.contains r ∧ bs = r.id :: rest := by
  cases bs with
  | nil => simp [register, bind_apply, byte, Except.bind]
  | cons b bs =>
    rw [register_cons, List.cons.injEq]
    by_cases hb : table.contains ⟨b⟩
    · rw [if_pos hb]
      grind [Register.mk_eq_iff]
    · rw [if_neg hb]
      grind [Register.mk_eq_iff]

/-- The sentinel stands for no register, so a register of that number is never read here. -/
theorem register?_eq_ok_iff {r : Option Register} :
    register? table bs = .ok (r, rest) ↔
      (∀ q ∈ r, table.contains q ∧ q.id ≠ Register.absent) ∧ bs = Register.slot r :: rest := by
  cases bs with
  | nil => simp [register?, bind_apply, byte, Except.bind]
  | cons b bs =>
    rw [register?_cons, List.cons.injEq]
    cases r with
    | none => grind [Register.slot]
    | some q => grind [Register.slot, Register.mk_eq_iff]

theorem width_eq_ok_iff {w : Width} : width bs = .ok (w, rest) ↔ bs = w.tag :: rest := by
  cases bs with
  | nil => simp [width, bind_apply, byte, Except.bind]
  | cons b bs =>
    rw [width_cons]
    cases hw : Width.ofTag? b with
    | none =>
      have hb : b ≠ w.tag := by
        intro h
        rw [Width.ofTag?_eq_some.mpr h] at hw
        cases hw
      simp [hb]
    | some v =>
      have hb : b = w.tag ↔ v = w := by
        rw [← Width.ofTag?_eq_some, hw, Option.some.injEq]
      simp [hb]

theorem number_eq_ok_iff {count : Nat} (hcount : count ≤ 4) {v : UInt32} :
    number count bs = .ok (v, rest) ↔
      v.toNat < 256 ^ count ∧ bs = toLittleEndian count v.toNat ++ rest := by
  unfold number
  constructor
  · intro h
    split at h
    · next hle =>
      have htake : (bs.take count).length = count := List.length_take_of_le hle
      have hlt := ofLittleEndian_lt (bs.take count)
      -- Four bytes are a whole word, so the number survives as one.
      have hmax : (256 : Nat) ^ count ≤ 256 ^ 4 := Nat.pow_le_pow_right (by decide) hcount
      rw [htake] at hlt
      cases h
      have hvalue : (UInt32.ofNat (ofLittleEndian (bs.take count))).toNat =
          ofLittleEndian (bs.take count) := by
        rw [UInt32.toNat_ofNat']
        exact Nat.mod_eq_of_lt (Nat.lt_of_lt_of_le hlt hmax)
      have hwritten := toLittleEndian_ofLittleEndian (bs.take count)
      rw [htake] at hwritten
      rw [hvalue, hwritten, List.take_append_drop]
      exact ⟨hlt, rfl⟩
    · cases h
  · intro h
    obtain ⟨hlt, rfl⟩ := h
    have hlength := length_toLittleEndian count v.toNat
    have hle : count ≤ (toLittleEndian count v.toNat ++ rest).length := by
      rw [List.length_append]
      omega
    rw [if_pos hle, List.take_left' hlength, List.drop_left' hlength,
      ofLittleEndian_toLittleEndian count v.toNat hlt, UInt32.ofNat_toNat]

end FieldReader

namespace Form

/-- An operand that can be written in this form: its registers are in the table, none of them is
the sentinel where that means no register, and its numbers fit their fields. -/
def Fits (table : RegisterTable) : Form → Operand → Prop
  | imm8, .imm value => value.toNat < 256
  | imm32, .imm _ => True
  | reg, .reg r => table.contains r
  | displ, .displ base index offset =>
    table.contains base ∧ (∀ r ∈ index, table.contains r ∧ r.id ≠ Register.absent) ∧
      offset.toNat < 65536
  | memory, .direct _ => True
  | near, .direct target => target.toNat < 65536
  | far, .direct _ => True
  | sum, .sum _ base second third fourth _ =>
    table.contains base ∧ (∀ r ∈ second, table.contains r ∧ r.id ≠ Register.absent) ∧
      (∀ r ∈ third, table.contains r ∧ r.id ≠ Register.absent) ∧
      (∀ r ∈ fourth, table.contains r ∧ r.id ≠ Register.absent)
  | _, _ => False

theorem exists_encode? {table : RegisterTable} {f : Form} {o : Operand} (h : f.Fits table o) :
    ∃ written, f.encode? o = some written := by
  unfold Fits at h
  split at h
  case h_9 => exact h.elim
  all_goals exact ⟨_, rfl⟩

theorem exists_encodeAll? {table : RegisterTable} {fs : List Form} {os : List Operand}
    (h : List.Forall₂ (Fits table) fs os) : ∃ written, encodeAll? fs os = some written := by
  induction h with
  | nil => exact ⟨[], rfl⟩
  | cons ho _ ih =>
    obtain ⟨first, hfirst⟩ := exists_encode? ho
    obtain ⟨others, hothers⟩ := ih
    exact ⟨first ++ others, by simp [encodeAll?, hfirst, hothers]⟩

theorem Fits.contains {table : RegisterTable} {f : Form} {o : Operand}
    (h : f.Fits table o) : ∀ reg ∈ o.registers, table.contains reg := by
  have hslot {slot : Option Register}
      (hslot : ∀ reg ∈ slot, table.contains reg ∧ reg.id ≠ Register.absent) :
      ∀ reg ∈ slot.toList, table.contains reg :=
    fun reg hreg => (hslot reg (Option.mem_toList.mp hreg)).1
  unfold Fits at h
  split at h
  case h_3 reg => exact List.forall_mem_singleton.mpr h
  case h_4 base index offset =>
    obtain ⟨hbase, hindex, _⟩ := h
    exact List.forall_mem_cons.mpr ⟨hbase, hslot hindex⟩
  case h_8 width base second third fourth offset =>
    obtain ⟨hbase, hsecond, hthird, hfourth⟩ := h
    have hpair := List.forall_mem_append.mpr ⟨hslot hsecond, hslot hthird⟩
    exact List.forall_mem_cons.mpr ⟨hbase, List.forall_mem_append.mpr ⟨hpair, hslot hfourth⟩⟩
  case h_9 => exact h.elim
  all_goals exact List.forall_mem_nil _

end Form

namespace FieldReader

variable {table : RegisterTable} {bs rest : List UInt8}

/-- A form that is one number. -/
theorem number_map_eq_ok_iff {count : Nat} (hcount : count ≤ 4) {g : UInt32 → Operand}
    {o : Operand} :
    (number count >>= fun v => pure (g v)) bs = .ok (o, rest) ↔
      ∃ v, g v = o ∧ v.toNat < 256 ^ count ∧ bs = toLittleEndian count v.toNat ++ rest := by
  simp only [bind_eq_ok_iff, pure_eq_ok_iff, number_eq_ok_iff hcount]
  constructor
  · intro h
    obtain ⟨v, _, hv, hg, rfl⟩ := h
    exact ⟨v, hg, hv⟩
  · intro h
    obtain ⟨v, hg, hv⟩ := h
    exact ⟨v, rest, hv, hg, rfl⟩

/-- Reading gives an operand exactly if it fits the form and its written form is what stands at
the front. -/
theorem operand_eq_ok_iff {f : Form} {o : Operand} :
    operand table f bs = .ok (o, rest) ↔
      f.Fits table o ∧ ∃ written, f.encode? o = some written ∧ bs = written ++ rest := by
  have hword (v : UInt32) : v.toNat < 4294967296 := v.toNat_lt
  cases f with
  | imm8 =>
    rw [operand, number_map_eq_ok_iff (by decide)]
    cases o <;> simp [Form.Fits, Form.encode?]
  | imm32 =>
    rw [operand, number_map_eq_ok_iff (by decide)]
    cases o <;> simp [Form.Fits, Form.encode?, hword]
  | reg =>
    simp only [operand, bind_eq_ok_iff, pure_eq_ok_iff, register_eq_ok_iff]
    constructor
    · intro h
      obtain ⟨r, _, ⟨hr, rfl⟩, rfl, rfl⟩ := h
      exact ⟨hr, _, rfl, rfl⟩
    · intro h
      cases o with
      | reg r =>
        obtain ⟨hr, _, hwritten, rfl⟩ := h
        rw [← Option.some.inj hwritten]
        exact ⟨r, _, ⟨hr, rfl⟩, rfl, rfl⟩
      | _ => exact h.1.elim
  | displ =>
    simp only [operand, bind_eq_ok_iff, pure_eq_ok_iff, register_eq_ok_iff, register?_eq_ok_iff,
      number_eq_ok_iff (show 2 ≤ 4 by decide)]
    constructor
    · intro h
      obtain ⟨base, _, ⟨hbase, rfl⟩, index, _, ⟨hindex, rfl⟩, offset, _, ⟨hoffset, rfl⟩,
        rfl, rfl⟩ := h
      exact ⟨⟨hbase, hindex, hoffset⟩, _, rfl, rfl⟩
    · intro h
      cases o with
      | displ base index offset =>
        obtain ⟨⟨hbase, hindex, hoffset⟩, _, hwritten, rfl⟩ := h
        rw [← Option.some.inj hwritten]
        exact ⟨base, _, ⟨hbase, rfl⟩, index, _, ⟨hindex, rfl⟩, offset, _, ⟨hoffset, rfl⟩,
          rfl, rfl⟩
      | _ => exact h.1.elim
  | memory =>
    rw [operand, number_map_eq_ok_iff (by decide)]
    cases o <;> simp [Form.Fits, Form.encode?, hword]
  | near =>
    rw [operand, number_map_eq_ok_iff (by decide)]
    cases o <;> simp [Form.Fits, Form.encode?]
  | far =>
    rw [operand, number_map_eq_ok_iff (by decide)]
    cases o <;> simp [Form.Fits, Form.encode?, hword]
  | sum =>
    simp only [operand, bind_eq_ok_iff, pure_eq_ok_iff, register_eq_ok_iff, register?_eq_ok_iff,
      width_eq_ok_iff, number_eq_ok_iff (show 4 ≤ 4 by decide)]
    constructor
    · intro h
      obtain ⟨width, _, rfl, base, _, ⟨hbase, rfl⟩, second, _, ⟨hsecond, rfl⟩, third, _,
        ⟨hthird, rfl⟩, fourth, _, ⟨hfourth, rfl⟩, offset, _, ⟨_, rfl⟩, rfl, rfl⟩ := h
      exact ⟨⟨hbase, hsecond, hthird, hfourth⟩, _, rfl, rfl⟩
    · intro h
      cases o with
      | sum width base second third fourth offset =>
        obtain ⟨⟨hbase, hsecond, hthird, hfourth⟩, _, hwritten, rfl⟩ := h
        rw [← Option.some.inj hwritten]
        exact ⟨width, _, rfl, base, _, ⟨hbase, rfl⟩, second, _, ⟨hsecond, rfl⟩, third, _,
          ⟨hthird, rfl⟩, fourth, _, ⟨hfourth, rfl⟩, offset, _, ⟨hword offset, rfl⟩, rfl, rfl⟩
      | _ => exact h.1.elim

theorem operands_eq_ok_iff {fs : List Form} {os : List Operand} :
    operands table fs bs = .ok (os, rest) ↔
      List.Forall₂ (Form.Fits table) fs os ∧
        ∃ written, Form.encodeAll? fs os = some written ∧ bs = written ++ rest := by
  induction fs generalizing bs os rest with
  | nil =>
    rw [operands, pure_eq_ok_iff]
    cases os with
    | nil => simp [Form.encodeAll?]
    | cons o os => simp
  | cons f fs ih =>
    simp only [operands, bind_eq_ok_iff, pure_eq_ok_iff, operand_eq_ok_iff, ih]
    constructor
    · intro h
      obtain ⟨o, _, ⟨ho, first, hfirst, rfl⟩, os, _, ⟨hos, others, hothers, rfl⟩, rfl, rfl⟩ := h
      refine ⟨.cons ho hos, first ++ others, ?_, by simp⟩
      simp [Form.encodeAll?, hfirst, hothers]
    · intro h
      obtain ⟨hfits, written, hwritten, rfl⟩ := h
      cases hfits with
      | @cons _ o _ os ho hos =>
        simp only [Form.encodeAll?, Option.bind_eq_bind, Option.bind_eq_some_iff,
          Option.pure_def, Option.some.injEq] at hwritten
        obtain ⟨first, hfirst, others, hothers, rfl⟩ := hwritten
        exact ⟨o, others ++ rest, ⟨ho, first, hfirst, by simp⟩, os, rest,
          ⟨hos, others, hothers, rfl⟩, rfl, rfl⟩

end FieldReader

namespace Encoding

variable {e : Encoding} {table : RegisterTable} {bytes : List UInt8} {os : List Operand}
  {err : FieldError}

theorem decode_eq_ok_iff :
    e.decode table bytes = .ok os ↔
      ∃ rest, FieldReader.operands table e.layout (bytes.drop 1) = .ok (os, rest) := by
  unfold decode
  cases FieldReader.operands table e.layout (bytes.drop 1) with
  | error err => simp [Except.map]
  | ok q => simp [Except.map, Prod.ext_iff]

theorem decode_eq_error_iff :
    e.decode table bytes = .error err ↔
      FieldReader.operands table e.layout (bytes.drop 1) = .error err := by
  unfold decode
  cases FieldReader.operands table e.layout (bytes.drop 1) with
  | error err => simp [Except.map]
  | ok q => simp [Except.map]

theorem decode_eq_error_iff_failure? :
    e.decode table bytes = .error err ↔
      Slot.failure? table e.slots (bytes.drop 1) = some err := by
  have hreads : FieldReader.Reads table e.slots (FieldReader.operands table e.layout) :=
    .operands e.layout
  rw [decode_eq_error_iff]
  constructor
  · intro h
    cases hf : Slot.failure? table e.slots (bytes.drop 1) with
    | some err' =>
      rw [hreads.eq_error hf] at h
      rw [Except.error.inj h]
    | none =>
      obtain ⟨v, hv⟩ := hreads.exists_eq_ok hf
      rw [hv] at h
      cases h
  · exact hreads.eq_error

theorem exists_decode_eq_ok_iff :
    (∃ os, e.decode table bytes = .ok os) ↔
      Slot.failure? table e.slots (bytes.drop 1) = .none := by
  cases hd : e.decode table bytes with
  | error err =>
    rw [decode_eq_error_iff_failure?] at hd
    rw [hd]
    simp
  | ok os =>
    cases hf : Slot.failure? table e.slots (bytes.drop 1) with
    | none => simp
    | some err =>
      rw [← decode_eq_error_iff_failure?, hd] at hf
      cases hf

theorem fits_of_decode (h : e.decode table bytes = .ok os) :
    List.Forall₂ (Form.Fits table) e.layout os := by
  obtain ⟨rest, hread⟩ := decode_eq_ok_iff.mp h
  exact (FieldReader.operands_eq_ok_iff.mp hread).1

/-- Nothing of a whole instruction is left over. -/
theorem operands_of_decode (hsize : bytes.length = e.size) (h : e.decode table bytes = .ok os) :
    FieldReader.operands table e.layout (bytes.drop 1) = .ok (os, []) := by
  have hf := exists_decode_eq_ok_iff.mp ⟨os, h⟩
  have hreads : FieldReader.Reads table e.slots (FieldReader.operands table e.layout) :=
    .operands e.layout
  obtain ⟨v, hv⟩ := hreads.exists_eq_ok hf
  have hrest : (bytes.drop 1).drop e.slots.length = [] := by
    apply List.drop_eq_nil_of_le
    have := e.length_slots
    rw [List.length_drop]
    omega
  obtain ⟨rest, hos⟩ := decode_eq_ok_iff.mp h
  rw [hrest] at hv
  rw [hv] at hos ⊢
  cases hos
  rfl

/-- The operand format is lossless. A whole instruction is refused exactly at the first byte that
may not stand in its slot, and never for want of bytes; otherwise all of it is read and can be
written back from the operands. Operands that fit the layout are read back from what is written. -/
theorem decode_lossless (e : Encoding) (table : RegisterTable) :
    (∀ bytes : List UInt8, bytes.length = e.size →
      ((∃ os, e.decode table bytes = .ok os) ↔
        ∀ q ∈ e.slots.zip (bytes.drop 1), q.1.Accepts table q.2) ∧
      (∀ err, e.decode table bytes = .error err ↔
        ∃ s b, Slot.FirstRefused table e.slots (bytes.drop 1) s b ∧ err = s.fault b) ∧
      e.decode table bytes ≠ .error .overrun ∧
      (∀ os, e.decode table bytes = .ok os →
        os.length = e.operandCount ∧
        FieldReader.operands table e.layout (bytes.drop 1) = .ok (os, []) ∧
        e.encode? os = some (bytes.drop 1))) ∧
    (∀ os, List.Forall₂ (Form.Fits table) e.layout os →
      ∃ written, e.encode? os = some written ∧
        ∀ opcode, e.decode table (opcode :: written) = .ok os) := by
  constructor
  · intro bytes hsize
    have hlength : (bytes.drop 1).length = e.slots.length := by
      have := e.length_slots
      rw [List.length_drop]
      omega
    have herror (err : FieldError) : e.decode table bytes = .error err ↔
        ∃ s b, Slot.FirstRefused table e.slots (bytes.drop 1) s b ∧ err = s.fault b := by
      rw [decode_eq_error_iff_failure?, Slot.failure?_eq_some_iff hlength]
    refine ⟨?_, herror, ?_, ?_⟩
    · rw [exists_decode_eq_ok_iff, Slot.failure?_eq_none_iff hlength]
    · intro h
      obtain ⟨s, b, _, hfault⟩ := (herror .overrun).mp h
      exact s.fault_ne_overrun b hfault.symm
    · intro os hos
      have hread := operands_of_decode hsize hos
      obtain ⟨hfits, written, hwritten, hbytes⟩ := FieldReader.operands_eq_ok_iff.mp hread
      rw [List.append_nil] at hbytes
      rw [hbytes]
      exact ⟨hfits.length_eq.symm, hbytes ▸ hread, hwritten⟩
  · intro os hfits
    obtain ⟨written, hwritten⟩ := Form.exists_encodeAll? hfits
    refine ⟨written, hwritten, ?_⟩
    intro opcode
    have hread : FieldReader.operands table e.layout written = .ok (os, []) :=
      FieldReader.operands_eq_ok_iff.mpr ⟨hfits, written, hwritten, by simp⟩
    exact decode_eq_ok_iff.mpr ⟨[], hread⟩

/-- A sum in which the middle one of the optional registers is used, before a register. -/
theorem decode_lossless_sum_register :
    let bytes : List UInt8 := [0x17, 4, 13, 0xff, 2, 0xff, 0x78, 0x56, 0x34, 0x12, 5]
    let os : List Operand := [.sum .dword ⟨13⟩ .none (some ⟨2⟩) .none 0x12345678, .reg ⟨5⟩]
    bytes.length = Encoding.sumReg.size ∧
      List.Forall₂ (Form.Fits .standard) Encoding.sumReg.layout os ∧
      Encoding.sumReg.encode? os = some (bytes.drop 1) ∧
      Encoding.sumReg.decode .standard bytes = .ok os := by
  intro bytes os
  have hsize : bytes.length = Encoding.sumReg.size := by decide
  have hsecond : RegisterTable.standard.contains ⟨2⟩ ∧ (2 : UInt8) ≠ Register.absent := by decide
  have hlast : RegisterTable.standard.contains ⟨5⟩ := by decide
  have hfits : List.Forall₂ (Form.Fits .standard) Encoding.sumReg.layout os :=
    .cons ⟨by decide, by simp, by simpa using hsecond, by simp⟩ (.cons hlast .nil)
  obtain ⟨hread, hwrite⟩ := decode_lossless .sumReg .standard
  obtain ⟨written, hwritten, hdecode⟩ := hwrite os hfits
  have hbytes : written = bytes.drop 1 := Option.some.inj (hwritten.symm.trans rfl)
  have hos : Encoding.sumReg.decode .standard bytes = .ok os := by
    rw [hbytes] at hdecode
    exact hdecode 0x17
  exact ⟨hsize, hfits, ((hread bytes hsize).2.2.2 os hos).2.2, hos⟩

end Encoding

end Disassembly
