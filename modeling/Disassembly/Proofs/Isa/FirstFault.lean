import Disassembly.Flow.Edge
import Disassembly.Proofs.Isa.Validation

namespace Disassembly

namespace Definition

/-- What is reported of `d` when the definitions `before` stand ahead of it: the first rule that it
breaks. A rule counts only where all rules before it hold. -/
inductive Breaks (before : List Definition) (d : Definition) : TableError → Prop
  /-- Exactly one definition ahead has the opcode. -/
  | opcode {first : Definition} (taken : before.filter (·.opcode == d.opcode) = [first]) :
    Breaks before d (.duplicateOpcode d.opcode first.mnemonic d.mnemonic)
  | arity (fresh : ∀ c ∈ before, c.opcode ≠ d.opcode)
      (differs : d.arity ≠ d.encoding.operandCount) :
    Breaks before d (.arityMismatch d.mnemonic d.arity d.encoding.operandCount)
  | target (fresh : ∀ c ∈ before, c.opcode ≠ d.opcode)
      (arity : d.arity = d.encoding.operandCount) (jump : d.isJump)
      (missing : ¬ d.encoding.firstIsAddress) :
    Breaks before d (.jumpWithoutTarget d.mnemonic)
  | uncond (fresh : ∀ c ∈ before, c.opcode ≠ d.opcode)
      (arity : d.arity = d.encoding.operandCount) (jump : d.isJump)
      (target : d.encoding.firstIsAddress)
      (differs : ¬ (d.isUncond ↔ d.mnemonic ∈ uncondMnemonics)) :
    Breaks before d (.uncondMismatch d.mnemonic)

theorem isUncondMnemonic_iff {d : Definition} :
    d.isUncondMnemonic ↔ d.mnemonic ∈ uncondMnemonics := by
  rw [isUncondMnemonic, List.contains_iff_mem]

end Definition

namespace TakenOpcodes

variable {before : List Definition} {opcode : UInt8}

/-- Each opcode is taken by the only definition that has it. -/
theorem mnemonic?_foldl_add (hdistinct : before.Pairwise fun c d => c.opcode ≠ d.opcode) :
    (before.foldl add empty).mnemonic? opcode =
      (before.find? (·.opcode == opcode)).map Definition.mnemonic := by
  induction before using List.reverseRecOn with
  | nil => exact mnemonic?_empty opcode
  | append_singleton before d ih =>
    obtain ⟨hdistinct, -, hlast⟩ := List.pairwise_append.mp hdistinct
    rw [List.foldl_append, List.foldl_cons, List.foldl_nil, mnemonic?_add, ih hdistinct,
      List.find?_append]
    by_cases hd : d.opcode = opcode
    · have hfresh : before.find? (·.opcode == opcode) = none := by
        simpa [← hd] using fun c hc => hlast c hc d List.mem_cons_self
      simp [hd, hfresh]
    · simp [hd]

end TakenOpcodes

namespace Definition

variable {before : List Definition} {d : Definition} {e : TableError}

/-- Among definitions with different opcodes, the first one with an opcode is the only one. -/
theorem find?_opcode_eq_some_iff {first : Definition}
    (hdistinct : before.Pairwise fun c d => c.opcode ≠ d.opcode) :
    before.find? (·.opcode == d.opcode) = some first ↔
      before.filter (·.opcode == d.opcode) = [first] := by
  rw [← List.head?_filter]
  constructor
  · intro h
    obtain ⟨others, hfilter⟩ := List.head?_eq_some_iff.mp h
    have hsame : ∀ c ∈ first :: others, c.opcode = d.opcode := by
      intro c hc
      rw [← hfilter] at hc
      simpa using (List.mem_filter.mp hc).2
    have hpair : (first :: others).Pairwise fun c d => c.opcode ≠ d.opcode := by
      rw [← hfilter]
      exact hdistinct.filter _
    have hothers : others = [] := by
      apply List.eq_nil_iff_forall_not_mem.mpr
      intro c hc
      apply (List.pairwise_cons.mp hpair).1 c hc
      rw [hsame first List.mem_cons_self, hsame c (List.mem_cons_of_mem first hc)]
    rw [hfilter, hothers]
  · intro h
    rw [h]
    rfl

theorem mnemonic?_eq_some_iff {mnemonic : String}
    (hdistinct : before.Pairwise fun c d => c.opcode ≠ d.opcode) :
    (before.foldl TakenOpcodes.add .empty).mnemonic? d.opcode = some mnemonic ↔
      ∃ first, before.filter (·.opcode == d.opcode) = [first] ∧ first.mnemonic = mnemonic := by
  simp only [TakenOpcodes.mnemonic?_foldl_add hdistinct, Option.map_eq_some_iff,
    find?_opcode_eq_some_iff hdistinct]

theorem mnemonic?_eq_none_iff (hdistinct : before.Pairwise fun c d => c.opcode ≠ d.opcode) :
    (before.foldl TakenOpcodes.add .empty).mnemonic? d.opcode = none ↔
      ∀ c ∈ before, c.opcode ≠ d.opcode := by
  simp [TakenOpcodes.mnemonic?_foldl_add hdistinct]

theorem breaks_of_fault? (hdistinct : before.Pairwise fun c d => c.opcode ≠ d.opcode)
    (h : d.fault? (before.foldl .add .empty) = some e) : d.Breaks before e := by
  unfold fault? at h
  split at h
  · next mnemonic hslot =>
    cases h
    obtain ⟨first, htaken, rfl⟩ := (mnemonic?_eq_some_iff hdistinct).mp hslot
    exact .opcode htaken
  · next hslot =>
    have hfresh := (mnemonic?_eq_none_iff hdistinct).mp hslot
    split at h
    · next harity =>
      cases h
      exact .arity hfresh harity
    · next harity =>
      have harity : d.arity = d.encoding.operandCount := not_not.mp harity
      split at h
      · next htarget =>
        cases h
        obtain ⟨hjump, hmissing⟩ := Bool.and_eq_true_iff.mp htarget
        exact .target hfresh harity hjump (by simpa using hmissing)
      · next htarget =>
        split at h
        · next huncond =>
          cases h
          obtain ⟨hjump, hdiffers⟩ := Bool.and_eq_true_iff.mp huncond
          have hfirst : d.encoding.firstIsAddress := by simpa [hjump] using htarget
          refine .uncond hfresh harity hjump hfirst ?_
          rw [← isUncondMnemonic_iff]
          intro hsame
          rw [Bool.eq_iff_iff.mpr hsame, bne_self_eq_false] at hdiffers
          cases hdiffers
        · cases h

theorem fault?_of_breaks (hdistinct : before.Pairwise fun c d => c.opcode ≠ d.opcode)
    (h : d.Breaks before e) : d.fault? (before.foldl .add .empty) = some e := by
  unfold fault?
  cases h with
  | opcode taken => rw [(mnemonic?_eq_some_iff hdistinct).mpr ⟨_, taken, rfl⟩]
  | arity fresh differs =>
    have hslot := (mnemonic?_eq_none_iff hdistinct).mpr fresh
    simp [hslot, differs]
  | target fresh arity jump missing =>
    have hslot := (mnemonic?_eq_none_iff hdistinct).mpr fresh
    simp [hslot, arity, jump, missing]
  | uncond fresh arity jump target differs =>
    have hslot := (mnemonic?_eq_none_iff hdistinct).mpr fresh
    have hne : d.isUncondMnemonic ≠ d.isUncond := by
      intro hsame
      apply differs
      rw [← hsame, isUncondMnemonic_iff]
    simp [hslot, arity, jump, target, hne]

end Definition

namespace InstructionTable

variable {taken : TakenOpcodes} {table : InstructionTable} {e : TableError}

/-- The definitions ahead of the first fault are without one, and they have taken their opcodes
there. -/
theorem firstFault?_eq_some_iff :
    firstFault? taken table = some e ↔
      ∃ before d after, table = before ++ d :: after ∧ firstFault? taken before = none ∧
        d.fault? (before.foldl .add taken) = some e := by
  -- What `c` takes is added to `taken`, so `taken` is general in the induction.
  induction table generalizing taken with
  | nil => simp [firstFault?]
  | cons c table ih =>
    rw [firstFault?]
    constructor
    · intro h
      cases hc : c.fault? taken with
      | some fault =>
        rw [hc, Option.some_or] at h
        exact ⟨[], c, table, rfl, rfl, by rw [List.foldl_nil, hc, h]⟩
      | none =>
        rw [hc, Option.none_or] at h
        obtain ⟨before, d, after, rfl, hbefore, hd⟩ := ih.mp h
        refine ⟨c :: before, d, after, rfl, ?_, hd⟩
        rw [firstFault?, hc, Option.none_or, hbefore]
    · intro h
      obtain ⟨before, d, after, htable, hbefore, hd⟩ := h
      cases before with
      | nil =>
        obtain ⟨rfl, rfl⟩ := List.cons.inj htable
        rw [List.foldl_nil] at hd
        rw [hd, Option.some_or]
      | cons b before =>
        obtain ⟨rfl, rfl⟩ := List.cons.inj htable
        rw [firstFault?, Option.or_eq_none_iff] at hbefore
        rw [hbefore.1, Option.none_or]
        exact ih.mpr ⟨before, d, after, rfl, hbefore.2, hd⟩

theorem validate_eq_error_iff :
    table.validate = .error e ↔ firstFault? .empty table = some e := by
  unfold validate
  cases firstFault? .empty table <;> simp

theorem validate_eq_error_iff_breaks :
    table.validate = .error e ↔
      ∃ before d after, table = before ++ d :: after ∧ WellFormed before ∧ d.Breaks before e := by
  rw [validate_eq_error_iff, firstFault?_eq_some_iff]
  constructor
  · intro h
    obtain ⟨before, d, after, htable, hbefore, hd⟩ := h
    obtain ⟨_, hwell⟩ := firstFault?_eq_none_iff.mp hbefore
    exact ⟨before, d, after, htable, hwell, Definition.breaks_of_fault? hwell.distinct hd⟩
  · intro h
    obtain ⟨before, d, after, htable, hwell, hd⟩ := h
    have hbefore : firstFault? .empty before = none :=
      firstFault?_eq_none_iff.mpr ⟨fun c _ => TakenOpcodes.mnemonic?_empty c.opcode, hwell⟩
    refine ⟨before, d, after, htable, hbefore, ?_⟩
    exact Definition.fault?_of_breaks hwell.distinct hd

theorem wellFormed_iff :
    table.WellFormed ↔
      table.Pairwise (fun c d => c.opcode ≠ d.opcode) ∧
      ∀ d ∈ table, d.arity = d.encoding.operandCount ∧
        (d.isJump → d.encoding.firstIsAddress ∧
          (d.isUncond ↔ d.mnemonic ∈ Definition.uncondMnemonics)) := by
  constructor
  · intro h
    refine ⟨h.distinct, ?_⟩
    intro d hd
    have hd := h.consistent d hd
    refine ⟨hd.arity, ?_⟩
    intro hjump
    rw [← Definition.isUncondMnemonic_iff]
    exact ⟨hd.target hjump, hd.uncond hjump⟩
  · intro h
    obtain ⟨hdistinct, hrules⟩ := h
    refine ⟨hdistinct, ?_⟩
    intro d hd
    obtain ⟨harity, hjump⟩ := hrules d hd
    refine ⟨harity, fun hj => (hjump hj).1, ?_⟩
    intro hj
    rw [Definition.isUncondMnemonic_iff]
    exact (hjump hj).2

/-- Validation accepts the tables in which every rule holds. Otherwise the first definition that
breaks one is reported, with the first rule that it breaks, and for an opcode that is taken also
with the one definition that has taken it. -/
theorem validate_reports_first_fault (table : InstructionTable) :
    (table.validate = .ok () ↔
      table.Pairwise (fun c d => c.opcode ≠ d.opcode) ∧
      ∀ d ∈ table, d.arity = d.encoding.operandCount ∧
        (d.isJump → d.encoding.firstIsAddress ∧
          (d.isUncond ↔ d.mnemonic ∈ Definition.uncondMnemonics))) ∧
    ∀ e, table.validate = .error e ↔
      ∃ before d after, table = before ++ d :: after ∧ WellFormed before ∧ d.Breaks before e := by
  constructor
  · rw [validate_eq_ok_iff_wellFormed, wellFormed_iff]
  · intro e
    exact validate_eq_error_iff_breaks

end InstructionTable

/-- A flag can be read whatever is set besides it. -/
theorem Feature.contains_union {f other flag : Feature} (h : other.bits &&& flag.bits = 0) :
    (f.union other).contains flag = f.contains flag := by
  have hbits : (f.bits ||| other.bits) &&& flag.bits = f.bits &&& flag.bits := by
    have hzero : other.bits.toBitVec &&& flag.bits.toBitVec = 0#16 := UInt16.toBitVec_inj.mpr h
    apply UInt16.toBitVec_inj.mp
    simp only [UInt16.toBitVec_and, UInt16.toBitVec_or]
    rw [BitVec.and_or_distrib_right, hzero, BitVec.or_zero]
  simp only [contains, union, hbits]

namespace Definition

/-- The two are the same jump, or they are no jumps and the same but for the flag of jumps that
never fall through. -/
structure SameBarUncond (c d : Definition) : Prop where
  opcode : c.opcode = d.opcode
  mnemonic : c.mnemonic = d.mnemonic
  encoding : c.encoding = d.encoding
  feature : c.feature.union .uncond = d.feature.union .uncond
  jump : c.isJump → c = d

namespace SameBarUncond

variable {c d : Definition}

theorem contains_eq (h : c.SameBarUncond d) {flag : Feature}
    (hflag : Feature.uncond.bits &&& flag.bits = 0) :
    c.feature.contains flag = d.feature.contains flag := by
  rw [← Feature.contains_union hflag, h.feature, Feature.contains_union hflag]

theorem arity_eq (h : c.SameBarUncond d) : c.arity = d.arity := by
  have hfirst : c.feature.contains .use1 = d.feature.contains .use1 := h.contains_eq (by decide)
  have hsecond : c.feature.contains .use2 = d.feature.contains .use2 := h.contains_eq (by decide)
  simp only [arity, Feature.arity, hfirst, hsecond]

theorem isJump_eq (h : c.SameBarUncond d) : c.isJump = d.isJump :=
  h.contains_eq (by decide)

theorem isStop_eq (h : c.SameBarUncond d) : c.isStop = d.isStop :=
  h.contains_eq (by decide)

theorem consistent (h : c.SameBarUncond d) (hc : c.Consistent) : d.Consistent := by
  -- The rules on targets and on the list bind jumps only, and jumps are the same on both sides.
  by_cases hjump : c.isJump
  · rw [← h.jump hjump]
    exact hc
  · have hnot : ¬ d.isJump := by rwa [← h.isJump_eq]
    refine ⟨?_, fun hd => absurd hd hnot, fun hd => absurd hd hnot⟩
    rw [← h.arity_eq, ← h.encoding]
    exact hc.arity

theorem edges_eq (h : c.SameBarUncond d) (i : Instruction) : d.edges i = c.edges i := by
  by_cases hjump : c.isJump
  · rw [h.jump hjump]
  · have hnot : ¬ d.isJump := by rwa [← h.isJump_eq]
    simp [edges, hjump, hnot, h.isStop_eq]

end SameBarUncond

end Definition

namespace InstructionTable

open Definition (SameBarUncond)

variable {table table' : InstructionTable}

theorem map_eq_of_sameBarUncond {α : Type} {f : Definition → α}
    (hf : ∀ c d, SameBarUncond c d → f c = f d) (h : List.Forall₂ SameBarUncond table table') :
    table.map f = table'.map f := by
  rw [← List.forall₂_eq_eq_eq, List.forall₂_map_left_iff, List.forall₂_map_right_iff]
  exact h.imp hf

theorem WellFormed.of_sameBarUncond (h : table.WellFormed)
    (hsame : List.Forall₂ SameBarUncond table table') : table'.WellFormed := by
  constructor
  · have hopcodes : table.map Definition.opcode = table'.map Definition.opcode :=
      map_eq_of_sameBarUncond (fun _ _ hcd => hcd.opcode) hsame
    have hdistinct : (table.map Definition.opcode).Pairwise (· ≠ ·) :=
      List.pairwise_map.mpr h.distinct
    rw [hopcodes] at hdistinct
    exact List.pairwise_map.mp hdistinct
  · have hconsistent := h.consistent
    clear h
    induction hsame with
    | nil => simp
    | cons hcd _ ih =>
      obtain ⟨hc, hrest⟩ := List.forall_mem_cons.mp hconsistent
      exact List.forall_mem_cons.mpr ⟨hcd.consistent hc, ih hrest⟩

theorem edges_of_sameBarUncond (h : List.Forall₂ SameBarUncond table table') (i : Instruction) :
    table'.edges i = table.edges i := by
  have hedges : table.map (·.edges i) = table'.map (·.edges i) :=
    map_eq_of_sameBarUncond (fun _ _ hcd => (hcd.edges_eq i).symm) h
  simp only [edges, ← List.getElem?_map, hedges]

/-- In a valid table the jumps that never fall through are the listed ones. The flag counts for
jumps only: on other definitions it can be set and cleared, and the table stays valid and has the
same edges. -/
theorem uncond_jumps_listed (h : table.validate = .ok ()) :
    (∀ d ∈ table, d.isJump → (d.isUncond ↔ d.mnemonic ∈ Definition.uncondMnemonics)) ∧
    ∀ table' : InstructionTable, List.Forall₂ SameBarUncond table table' →
      table'.validate = .ok () ∧ ∀ i, table'.edges i = table.edges i := by
  have hwell := validate_eq_ok_iff_wellFormed.mp h
  constructor
  · intro d hd hjump
    rw [← Definition.isUncondMnemonic_iff]
    exact (hwell.consistent d hd).uncond hjump
  · intro table' hsame
    have hwell' := hwell.of_sameBarUncond hsame
    exact ⟨validate_eq_ok_iff_wellFormed.mpr hwell', edges_of_sameBarUncond hsame⟩

/-- Neither the flag on a definition that is no jump nor a listed mnemonic there is refused. -/
theorem not_uncond_iff_listed_no_jumps :
    let marked : Definition := ⟨0x00, "nop", .uncond, .none⟩
    let named : Definition := ⟨0x01, "jmp", .empty, .none⟩
    validate [marked, named] = .ok () ∧
      (marked.isUncond ∧ marked.mnemonic ∉ Definition.uncondMnemonics) ∧
      (¬ named.isUncond ∧ named.mnemonic ∈ Definition.uncondMnemonics) ∧
      ¬ ∀ d ∈ [marked, named], d.isUncond ↔ d.mnemonic ∈ Definition.uncondMnemonics := by
  intro marked named
  have hvalid : validate [marked, named] = .ok () := by
    rw [validate_eq_ok_iff]
    decide +kernel
  refine ⟨hvalid, by decide, by decide, ?_⟩
  intro h
  have hmarked := h marked (by simp)
  exact absurd (hmarked.mp (by decide)) (by decide)

/-- The flag of `nop` is cleared beside a jump that needs it. -/
theorem uncond_jumps_listed_cleared_nop :
    let jmp : Definition := ⟨0x40, "jmp", .goto, .near16⟩
    let marked : Definition := ⟨0x00, "nop", .uncond, .none⟩
    let cleared : Definition := ⟨0x00, "nop", .empty, .none⟩
    validate [jmp, marked] = .ok () ∧
      (jmp.isUncond ∧ jmp.mnemonic ∈ Definition.uncondMnemonics) ∧
      List.Forall₂ SameBarUncond [jmp, marked] [jmp, cleared] ∧
      validate [jmp, cleared] = .ok () := by
  intro jmp marked cleared
  have hvalid : validate [jmp, marked] = .ok () := by
    rw [validate_eq_ok_iff]
    decide +kernel
  have hsame : List.Forall₂ SameBarUncond [jmp, marked] [jmp, cleared] :=
    .cons ⟨rfl, rfl, rfl, rfl, fun _ => rfl⟩ (.cons ⟨rfl, rfl, rfl, by decide, by decide⟩ .nil)
  obtain ⟨hlisted, hclear⟩ := uncond_jumps_listed hvalid
  have hjmp := hlisted jmp (by simp) (by decide)
  exact ⟨hvalid, ⟨by decide, hjmp.mp (by decide)⟩, hsame, (hclear _ hsame).1⟩

end InstructionTable

end Disassembly
