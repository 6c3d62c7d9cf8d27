import Disassembly.Isa.Field

namespace Disassembly

/-- What one byte of an operand stands for. -/
inductive Slot
  | register
  /-- A register or none. -/
  | optional
  | width
  /-- A part of a number. -/
  | digit
deriving DecidableEq, Repr

namespace Slot

/-- The bytes that may stand in a slot. -/
def Accepts (table : RegisterTable) (b : UInt8) : Slot → Prop
  | register => b.toNat < table.size
  | optional => b = 0xff ∨ b.toNat < table.size
  | width => b = 0 ∨ b = 1 ∨ b = 2 ∨ b = 4
  | digit => True

instance (table : RegisterTable) (b : UInt8) : (s : Slot) → Decidable (s.Accepts table b)
  | register => inferInstanceAs (Decidable (b.toNat < table.size))
  | optional => inferInstanceAs (Decidable (b = 0xff ∨ b.toNat < table.size))
  | width => inferInstanceAs (Decidable (b = 0 ∨ b = 1 ∨ b = 2 ∨ b = 4))
  | digit => inferInstanceAs (Decidable True)

/-- What is reported of a byte that may not stand in the slot. -/
def fault : Slot → UInt8 → FieldError
  | width, b => .width b
  | _, b => .register b

theorem fault_ne_overrun (s : Slot) (b : UInt8) : s.fault b ≠ .overrun := by
  cases s <;> simp [fault]

/-- Why the slots cannot be read from the front of `bs`: the first byte that is refused decides,
and bytes may be missing only behind what there is. -/
def failure? (table : RegisterTable) : List Slot → List UInt8 → Option FieldError
  | [], _ => none
  | _ :: _, [] => some .overrun
  | s :: slots, b :: bs => if s.Accepts table b then failure? table slots bs else some (s.fault b)

theorem failure?_append (table : RegisterTable) (slots more : List Slot) (bs : List UInt8) :
    failure? table (slots ++ more) bs =
      (failure? table slots bs).or (failure? table more (bs.drop slots.length)) := by
  induction slots generalizing bs with
  | nil => simp [failure?]
  | cons s slots ih =>
    cases bs with
    | nil => simp [failure?]
    | cons b bs =>
      simp only [List.cons_append, failure?, List.length_cons, List.drop_succ_cons]
      by_cases hb : s.Accepts table b
      · simp only [hb, if_true]
        exact ih bs
      · simp [hb]

theorem failure?_digits (table : RegisterTable) (count : Nat) (bs : List UInt8) :
    failure? table (List.replicate count digit) bs =
      if count ≤ bs.length then none else some .overrun := by
  induction count generalizing bs with
  | zero => simp [failure?]
  | succ count ih =>
    cases bs with
    | nil => simp [failure?, List.replicate_succ]
    | cons b bs => simp [failure?, List.replicate_succ, Accepts, ih bs]

/-- `b` stands in the slot `s` and is the first byte that may not stand where it does. -/
def FirstRefused (table : RegisterTable) (slots : List Slot) (bs : List UInt8) (s : Slot)
    (b : UInt8) : Prop :=
  ∃ before after, slots.zip bs = before ++ (s, b) :: after ∧
    (∀ q ∈ before, q.1.Accepts table q.2) ∧ ¬ s.Accepts table b

theorem firstRefused_cons_iff {table : RegisterTable} {slots : List Slot} {bs : List UInt8}
    {s t : Slot} {b c : UInt8} :
    FirstRefused table (t :: slots) (c :: bs) s b ↔
      (¬ t.Accepts table c ∧ s = t ∧ b = c) ∨
      (t.Accepts table c ∧ FirstRefused table slots bs s b) := by
  simp only [FirstRefused, List.zip_cons_cons]
  constructor
  · intro h
    obtain ⟨before, after, heq, hbefore, hb⟩ := h
    cases before with
    | nil =>
      simp only [List.nil_append, List.cons.injEq, Prod.mk.injEq] at heq
      obtain ⟨⟨rfl, rfl⟩, _⟩ := heq
      exact .inl ⟨hb, rfl, rfl⟩
    | cons q before =>
      simp only [List.cons_append, List.cons.injEq] at heq
      obtain ⟨rfl, heq⟩ := heq
      have hfirst := hbefore (t, c) List.mem_cons_self
      exact .inr ⟨hfirst, before, after, heq, fun q hq => hbefore q (List.mem_cons_of_mem _ hq), hb⟩
  · intro h
    rcases h with ⟨hc, rfl, rfl⟩ | ⟨hc, before, after, heq, hbefore, hb⟩
    · exact ⟨[], slots.zip bs, rfl, by simp, hc⟩
    · refine ⟨(t, c) :: before, after, by simp [heq], ?_, hb⟩
      intro q hq
      rcases List.mem_cons.mp hq with rfl | hq
      · exact hc
      · exact hbefore q hq

variable {table : RegisterTable} {slots : List Slot} {bs : List UInt8} {err : FieldError}

theorem failure?_eq_none_iff (hlength : bs.length = slots.length) :
    failure? table slots bs = none ↔ ∀ q ∈ slots.zip bs, q.1.Accepts table q.2 := by
  induction slots generalizing bs with
  | nil => simp [failure?]
  | cons s slots ih =>
    cases bs with
    | nil => simp at hlength
    | cons b bs =>
      have hrest := @ih bs (by simpa using hlength)
      by_cases hb : s.Accepts table b
      · simp [failure?, hb, hrest]
      · simp [failure?, hb]

theorem failure?_eq_some_iff (hlength : bs.length = slots.length) :
    failure? table slots bs = some err ↔
      ∃ s b, FirstRefused table slots bs s b ∧ err = s.fault b := by
  induction slots generalizing bs with
  | nil => simp [failure?, FirstRefused]
  | cons t slots ih =>
    cases bs with
    | nil => simp at hlength
    | cons c bs =>
      have hrest := @ih bs (by simpa using hlength)
      by_cases hc : t.Accepts table c
      · simp [failure?, firstRefused_cons_iff, hc, hrest]
      · simp only [failure?, firstRefused_cons_iff, hc, if_false, not_false_eq_true, true_and,
          false_and, or_false, Option.some.injEq]
        constructor
        · intro h
          exact ⟨t, c, ⟨rfl, rfl⟩, h.symm⟩
        · intro h
          obtain ⟨_, _, ⟨rfl, rfl⟩, rfl⟩ := h
          rfl

end Slot

namespace Form

/-- The slots of an operand in the order of its bytes. -/
def slots : Form → List Slot
  | imm8 => [.digit]
  | imm32 => List.replicate 4 .digit
  | reg => [.register]
  | displ => [.register, .optional] ++ List.replicate 2 .digit
  | memory => List.replicate 4 .digit
  | near => List.replicate 2 .digit
  | far => List.replicate 4 .digit
  | sum => [.width, .register, .optional, .optional, .optional] ++ List.replicate 4 .digit

theorem length_slots (f : Form) : f.slots.length = f.size := by
  cases f <;> rfl

theorem length_flatMap_slots (fs : List Form) : (fs.flatMap slots).length = totalSize fs := by
  induction fs with
  | nil => rfl
  | cons f fs ih => rw [List.flatMap_cons, List.length_append, length_slots, ih, totalSize]

end Form

/-- The slots behind the opcode. -/
def Encoding.slots (e : Encoding) : List Slot :=
  e.layout.flatMap Form.slots

theorem Encoding.length_slots (e : Encoding) : e.slots.length + 1 = e.size := by
  rw [slots, Form.length_flatMap_slots, size]
  omega

namespace FieldReader

variable {α β : Type}

theorem bind_apply (r : FieldReader α) (f : α → FieldReader β) (bs : List UInt8) :
    (r >>= f) bs = (r bs).bind fun q => f q.1 q.2 := rfl

theorem register_cons (table : RegisterTable) (b : UInt8) (bs : List UInt8) :
    register table (b :: bs) =
      if table.contains ⟨b⟩ then .ok (⟨b⟩, bs) else .error (.register b) := by
  unfold register
  rw [bind_apply]
  simp only [byte, Except.bind]
  split <;> rfl

theorem register?_cons (table : RegisterTable) (b : UInt8) (bs : List UInt8) :
    register? table (b :: bs) =
      if b = Register.absent then .ok (none, bs)
      else if table.contains ⟨b⟩ then .ok (some ⟨b⟩, bs) else .error (.register b) := by
  unfold register?
  rw [bind_apply]
  simp only [byte, Except.bind]
  split
  · rfl
  · split <;> rfl

theorem width_cons (b : UInt8) (bs : List UInt8) :
    width (b :: bs) =
      match Width.ofTag? b with
      | some w => .ok (w, bs)
      | none => .error (.width b) := by
  unfold width
  rw [bind_apply]
  simp only [byte, Except.bind]
  cases Width.ofTag? b <;> rfl

/-- The reader takes what stands in the slots, or fails for their reason. -/
def Reads (table : RegisterTable) (slots : List Slot) (r : FieldReader α) : Prop :=
  ∀ bs, match Slot.failure? table slots bs with
    | some err => r bs = .error err
    | none => ∃ v, r bs = .ok (v, bs.drop slots.length)

namespace Reads

variable {table : RegisterTable} {slots more : List Slot} {r : FieldReader α} {bs : List UInt8}

theorem eq_error {err : FieldError} (h : Reads table slots r)
    (hf : Slot.failure? table slots bs = some err) : r bs = .error err := by
  have hr := h bs
  rw [hf] at hr
  exact hr

theorem exists_eq_ok (h : Reads table slots r) (hf : Slot.failure? table slots bs = none) :
    ∃ v, r bs = .ok (v, bs.drop slots.length) := by
  have hr := h bs
  rw [hf] at hr
  exact hr

theorem pure (v : α) : Reads table [] (Pure.pure v : FieldReader α) := by
  intro bs
  exact ⟨v, rfl⟩

theorem bind {f : α → FieldReader β} (hr : Reads table slots r)
    (hf : ∀ v, Reads table more (f v)) : Reads table (slots ++ more) (r >>= f) := by
  intro bs
  rw [bind_apply, Slot.failure?_append]
  cases hfirst : Slot.failure? table slots bs with
  | some err =>
    rw [hr.eq_error hfirst]
    rfl
  | none =>
    obtain ⟨v, hv⟩ := hr.exists_eq_ok hfirst
    have hrest := hf v (bs.drop slots.length)
    rw [List.drop_drop] at hrest
    rw [hv, List.length_append]
    exact hrest

/-- What is made of the value takes no more bytes. -/
theorem map {g : α → β} (hr : Reads table slots r) :
    Reads table slots (r >>= fun v => Pure.pure (g v)) := by
  have h := hr.bind (fun v => Reads.pure (g v))
  rwa [List.append_nil] at h

theorem register : Reads table [.register] (register table) := by
  intro bs
  cases bs with
  | nil => rfl
  | cons b bs =>
    rw [register_cons]
    by_cases hb : b.toNat < table.size
    · simp [Slot.failure?, Slot.Accepts, RegisterTable.contains, hb]
    · simp [Slot.failure?, Slot.Accepts, Slot.fault, RegisterTable.contains, hb]

theorem register? : Reads table [.optional] (register? table) := by
  intro bs
  cases bs with
  | nil => rfl
  | cons b bs =>
    rw [register?_cons]
    by_cases ha : b = Register.absent
    · subst ha
      simp [Slot.failure?, Slot.Accepts, Register.absent]
    · have hff : b ≠ 0xff := ha
      by_cases hb : b.toNat < table.size
      · simp [Slot.failure?, Slot.Accepts, RegisterTable.contains, ha, hb]
      · simp [Slot.failure?, Slot.Accepts, Slot.fault, RegisterTable.contains, ha, hff, hb]

theorem width : Reads table [.width] width := by
  intro bs
  cases bs with
  | nil => rfl
  | cons b bs =>
    rw [width_cons]
    cases hw : Width.ofTag? b with
    | some w =>
      have hb : Slot.width.Accepts table b := by
        rw [Width.ofTag?_eq_some.mp hw]
        cases w <;> simp [Slot.Accepts, Width.tag]
      simp [Slot.failure?, hb]
    | none =>
      have hb : ¬ Slot.width.Accepts table b := by
        intro h
        rcases h with rfl | rfl | rfl | rfl <;> cases hw
      simp [Slot.failure?, Slot.fault, hb]

theorem number (count : Nat) : Reads table (List.replicate count .digit) (number count) := by
  intro bs
  rw [Slot.failure?_digits]
  unfold FieldReader.number
  by_cases hcount : count ≤ bs.length
  · simp [hcount]
  · simp [hcount]

theorem operand (f : Form) : Reads table f.slots (operand table f) := by
  cases f with
  | imm8 => exact (number 1).map
  | imm32 => exact (number 4).map
  | reg => exact register.map
  | displ => exact register.bind fun _ => register?.bind fun _ => (number 2).map
  | memory => exact (number 4).map
  | near => exact (number 2).map
  | far => exact (number 4).map
  | sum =>
    exact width.bind fun _ => register.bind fun _ => register?.bind fun _ => register?.bind fun _ =>
      register?.bind fun _ => (number 4).map

theorem operands (fs : List Form) : Reads table (fs.flatMap Form.slots) (operands table fs) := by
  induction fs with
  | nil => exact .pure []
  | cons f fs ih => exact (operand f).bind fun _ => ih.map

end Reads

end FieldReader

end Disassembly
