import Disassembly.Proofs.Flow.BasicBlock
import Mathlib.Data.List.Sort

namespace Disassembly

/-- The byte at `c` belongs to the instruction. -/
def Instruction.Covers (i : Instruction) (c : Address) : Prop :=
  i.address.toNat ≤ c.toNat ∧ c.toNat < i.address.toNat + i.size.toNat

theorem Instruction.eq_of_ascending {is js : List Instruction}
    (his : is.Pairwise (fun i j => i.address < j.address))
    (hjs : js.Pairwise (fun i j => i.address < j.address)) (h : ∀ i, i ∈ is ↔ i ∈ js) :
    is = js := by
  have : Std.Irrefl (fun i j : Instruction => i.address < j.address) :=
    ⟨fun i => UInt32.lt_irrefl i.address⟩
  have : Std.Antisymm (fun i j : Instruction => i.address < j.address) :=
    ⟨fun i j hij hji => absurd hij (UInt32.lt_asymm hji)⟩
  exact his.eq_of_mem_iff hjs h

namespace Exploration

/-- The decoded instructions in the order of their addresses. -/
def code (x : Exploration) : List Instruction :=
  x.instructions.toList.map Prod.snd

/-- Two decoded instructions share a byte. -/
def Overlaps (x : Exploration) : Prop :=
  ∃ (a b : Address) (i j : Instruction), x.instructions[a]? = some i ∧
    x.instructions[b]? = some j ∧ a ≠ b ∧ ∃ c, i.Covers c ∧ j.Covers c

/-- No decoded instruction has `c` inside, behind its first byte. -/
def IsBoundary (x : Exploration) (c : Address) : Prop :=
  ∀ (a : Address) (i : Instruction), x.instructions[a]? = some i → i.Covers c → a = c

variable {p : Processor} {img : Image} {x : Exploration} {a b c : Address} {i j : Instruction}

theorem mem_code_iff : i ∈ x.code ↔ ∃ a : Address, x.instructions[a]? = some i := by
  simp [code, Std.ExtTreeMap.mem_toList_iff_getElem?_eq_some]

theorem eq_of_covers (h : ¬ x.Overlaps) (hi : x.instructions[a]? = some i)
    (hj : x.instructions[b]? = some j) (hic : i.Covers c) (hjc : j.Covers c) : a = b := by
  by_contra hab
  exact h ⟨a, b, i, j, hi, hj, hab, c, hic, hjc⟩

namespace Faithful

theorem address_eq (hx : x.Faithful p img) (hi : x.instructions[a]? = some i) : i.address = a :=
  InstructionTable.address_of_decode (hx.decodes a i hi)

theorem pairwise_code (hx : x.Faithful p img) :
    x.code.Pairwise (fun i j => i.address < j.address) := by
  rw [code, List.pairwise_map]
  refine Std.ExtTreeMap.ordered_keys_toList.imp_of_mem ?_
  intro s t hs ht hlt
  rw [hx.address_eq (Std.ExtTreeMap.mem_toList_iff_getElem?_eq_some.mp hs),
    hx.address_eq (Std.ExtTreeMap.mem_toList_iff_getElem?_eq_some.mp ht)]
  exact Std.compare_eq_lt.mp hlt

theorem toNat_next (hx : x.Faithful p img) (hi : x.instructions[a]? = some i) :
    i.next.toNat = a.toNat + i.size.toNat ∧ 0 < i.size.toNat :=
  InstructionTable.toNat_next_of_decode (hx.decodes a i hi)

theorem lt_next (hx : x.Faithful p img) (hi : x.instructions[a]? = some i) : a < i.next :=
  InstructionTable.lt_next_of_decode (hx.decodes a i hi)

theorem covers_iff (hx : x.Faithful p img) (hi : x.instructions[a]? = some i) :
    i.Covers c ↔ a ≤ c ∧ c < i.next := by
  obtain ⟨hnext, _⟩ := hx.toNat_next hi
  rw [Instruction.Covers, hx.address_eq hi, UInt32.le_iff_toNat_le, UInt32.lt_iff_toNat_lt, hnext]

theorem isMapped (hx : x.Faithful p img) (hi : x.instructions[a]? = some i) : img.isMapped a :=
  InstructionTable.isMapped_of_decode (hx.decodes a i hi)

theorem covers_first (hx : x.Faithful p img) (hi : x.instructions[a]? = some i) : i.Covers a :=
  (hx.covers_iff hi).mpr ⟨UInt32.le_refl a, hx.lt_next hi⟩

/-- The byte before the next instruction is the last one of this. -/
theorem covers_of_succ_eq_next (hx : x.Faithful p img) (hi : x.instructions[a]? = some i)
    (hc : c.toNat + 1 = i.next.toNat) : i.Covers c := by
  obtain ⟨hnext, hpos⟩ := hx.toNat_next hi
  have haddress := hx.address_eq hi
  constructor
  · rw [haddress]
    omega
  · rw [haddress]
    omega

theorem exists_last (hx : x.Faithful p img) (hi : x.instructions[a]? = some i) :
    ∃ c : Address, c.toNat + 1 = i.next.toNat := by
  obtain ⟨hnext, hpos⟩ := hx.toNat_next hi
  have hlt := i.next.toNat_lt_size
  refine ⟨UInt32.ofNat (i.next.toNat - 1), ?_⟩
  rw [UInt32.toNat_ofNat_of_lt' (by omega)]
  omega

theorem isBoundary_of_decoded (hx : x.Faithful p img) (h : ¬ x.Overlaps)
    (hi : x.instructions[a]? = some i) : x.IsBoundary a := by
  intro b j hj hja
  exact eq_of_covers h hj hi hja (hx.covers_first hi)

/-- An instruction that had the end of another one inside would share that one's last byte. -/
theorem isBoundary_next (hx : x.Faithful p img) (h : ¬ x.Overlaps)
    (hi : x.instructions[a]? = some i) : x.IsBoundary i.next := by
  intro b j hj hcovers
  by_contra hne
  obtain ⟨hbi, hij⟩ := (hx.covers_iff hj).mp hcovers
  obtain ⟨c, hc⟩ := hx.exists_last hi
  have hbc : b ≤ c := by
    have hlt := UInt32.lt_iff_toNat_lt.mp (UInt32.lt_of_le_of_ne hbi hne)
    rw [UInt32.le_iff_toNat_le]
    omega
  have hcj : c < j.next := by
    rw [UInt32.lt_iff_toNat_lt] at hij ⊢
    omega
  have hab : a = b :=
    eq_of_covers h hi hj (hx.covers_of_succ_eq_next hi hc) ((hx.covers_iff hj).mpr ⟨hbc, hcj⟩)
  subst hab
  rw [hi] at hj
  cases hj
  exact UInt32.lt_irrefl _ hij

/-- A byte of no instruction is followed by a boundary. -/
theorem isBoundary_succ (hx : x.Faithful p img) (hbound : x.IsBoundary a)
    (hnone : x.instructions[a]? = none) (hsucc : (a + 1).toNat = a.toNat + 1) :
    x.IsBoundary (a + 1) := by
  intro b j hj hcovers
  by_contra hne
  obtain ⟨hba, haj⟩ := (hx.covers_iff hj).mp hcovers
  have hlt := UInt32.lt_iff_toNat_lt.mp (UInt32.lt_of_le_of_ne hba hne)
  rw [UInt32.lt_iff_toNat_lt] at haj
  have hinside : j.Covers a := by
    refine (hx.covers_iff hj).mpr ⟨?_, ?_⟩
    · rw [UInt32.le_iff_toNat_le]
      omega
    · rw [UInt32.lt_iff_toNat_lt]
      omega
  have hb : b = a := hbound b j hj hinside
  rw [hb, hnone] at hj
  cases hj

/-- Instructions overlap exactly if some two of them do in the order of their addresses. -/
theorem not_overlaps_iff (hx : x.Faithful p img) :
    ¬ x.Overlaps ↔ x.code.Pairwise (fun i j => i.next ≤ j.address) := by
  constructor
  · intro h
    refine hx.pairwise_code.imp_of_mem ?_
    intro i j hi hj hlt
    obtain ⟨a, hi⟩ := mem_code_iff.mp hi
    obtain ⟨b, hj⟩ := mem_code_iff.mp hj
    rw [hx.address_eq hi, hx.address_eq hj] at hlt
    rw [hx.address_eq hj]
    by_contra hnext
    have hcovers : i.Covers b :=
      (hx.covers_iff hi).mpr ⟨UInt32.le_of_lt hlt, UInt32.not_le.mp hnext⟩
    have hab := eq_of_covers h hi hj hcovers (hx.covers_first hj)
    exact UInt32.lt_irrefl b (hab ▸ hlt)
  · intro hpairwise hoverlaps
    obtain ⟨a, b, i, j, hi, hj, hab, c, hic, hjc⟩ := hoverlaps
    let Apart (i j : Instruction) : Prop :=
      i.address = j.address ∨ i.next ≤ j.address ∨ j.next ≤ i.address
    have hself : ∀ i ∈ x.code, Apart i i := fun _ _ => .inl rfl
    have hforth : x.code.Pairwise Apart := hpairwise.imp fun h => .inr (.inl h)
    have hback : x.code.Pairwise (flip Apart) := hpairwise.imp fun h => .inr (.inr h)
    have hapart : Apart i j := List.Pairwise.forall_of_forall_of_flip hself hforth hback
      (mem_code_iff.mpr ⟨a, hi⟩) (mem_code_iff.mpr ⟨b, hj⟩)
    rw [hx.covers_iff hi] at hic
    rw [hx.covers_iff hj] at hjc
    simp only [Apart, hx.address_eq hi, hx.address_eq hj] at hapart
    grind

theorem eq_of_next_eq (hx : x.Faithful p img) (h : ¬ x.Overlaps)
    (hi : x.instructions[a]? = some i) (hj : x.instructions[b]? = some j)
    (hnext : i.next = j.next) : a = b := by
  obtain ⟨c, hc⟩ := hx.exists_last hi
  exact eq_of_covers h hi hj (hx.covers_of_succ_eq_next hi hc)
    (hx.covers_of_succ_eq_next hj (hnext ▸ hc))

/-- Two instructions that fall through to one address both end there. -/
theorem not_merges (hx : x.Faithful p img) (h : ¬ x.Overlaps) : ¬ x.Merges a := by
  intro hmerge
  obtain ⟨e, he, f, hf, hek, hfk, hea, hfa, hne⟩ := hmerge
  obtain ⟨i, hi, hie⟩ := (hx.edges e).mp he
  obtain ⟨j, hj, hjf⟩ := (hx.edges f).mp hf
  have hnext : i.next = j.next := by
    rw [← Processor.target_of_flow_mem_edges hie hek, hea, ← hfa]
    exact Processor.target_of_flow_mem_edges hjf hfk
  exact hne (hx.eq_of_next_eq h hi hj hnext)

end Faithful

end Exploration

end Disassembly
