import Disassembly.Listing.Page
import Disassembly.Proofs.Text.AddressGrammar

namespace Disassembly

namespace Style

/-- The text of `v` is made of the hexadecimal digits `ds` and of what marks a number in the style.
Digits do not begin with a zero unless they are a single one. -/
structure Writes (s : Style) (v : UInt32) (ds : List Char) : Prop where
  marked : (s.number v).toList =
    match s.hex with
    | .bare => ds
    | .cstyle => '0' :: 'x' :: ds
    | .suffix => (if ds.head?.any Char.isAlpha then '0' :: ds else ds) ++ ['h']
  spelled : ∀ c ∈ ds, c ∈ (if s.uppercase then "0123456789ABCDEF" else "0123456789abcdef").toList
  value : Denotes 16 ds v.toNat
  nonempty : ds ≠ []
  leading : ds.head? = some '0' → v = 0 ∧ ds = ['0']

theorem spell_digitChar_mem (s : Style) {d : Nat} (hd : d < 16) :
    s.spell d.digitChar ∈
      (if s.uppercase then "0123456789ABCDEF" else "0123456789abcdef").toList := by
  unfold spell
  cases s.uppercase with
  | true => decide +revert
  | false => decide +revert

theorem digits_zero (s : Style) : s.digits 0 = ['0'] := by
  unfold digits
  cases s.uppercase <;> rfl

theorem head?_digits_ne (s : Style) {n : Nat} (hn : 0 < n) : (s.digits n).head? ≠ some '0' := by
  have hbase : 1 < 16 := by decide
  obtain ⟨d, rest, hpos, hd, hdigits⟩ := exists_toDigits_eq_cons hbase hn
  rw [digits_eq_map, hdigits, List.map_cons, List.head?_cons, ne_eq, Option.some_inj]
  intro hzero
  have hvalue := s.digitValue?_spell hd
  rw [hzero] at hvalue
  have h0 : digitValue? 16 '0' = some 0 := rfl
  rw [h0, Option.some_inj] at hvalue
  omega

theorem writes_digits (s : Style) (v : UInt32) : s.Writes v (s.digits v.toNat) := by
  refine ⟨?_, ?_, ?_, s.digits_ne_nil v.toNat, ?_⟩
  · unfold number
    cases s.hex <;> simp
  · intro c hc
    obtain ⟨d, hd, rfl⟩ := exists_digit_of_mem_digits hc
    exact s.spell_digitChar_mem hd
  · exact denotes_of_readDigits (by decide) le_rfl (by decide) (s.readDigits_digits v)
  · intro hzero
    by_cases hv : v.toNat = 0
    · rw [hv]
      exact ⟨UInt32.toNat_inj.mp hv, s.digits_zero⟩
    · exact absurd hzero (s.head?_digits_ne (Nat.pos_of_ne_zero hv))

end Style

theorem not_isBlank_of_isDigit {base d : Nat} {c : Char} (hbase : base ≤ 16)
    (h : IsDigit base d c) : ¬ isBlank c ∧ c ≠ '+' ∧ c ≠ 'x' ∧ c ≠ 'X' := by
  have hsixteen : ∀ d < 16, ∀ c, c = d.digitChar ∨ c = d.digitChar.toUpper →
      ¬ isBlank c ∧ c ≠ '+' ∧ c ≠ 'x' ∧ c ≠ 'X' := by
    simp only [forall_eq_or_imp, forall_eq]
    decide
  exact hsixteen d (h.1.trans_le hbase) c h.2

theorem Denotes.exists_isDigit {base n : Nat} {cs : List Char} {c : Char} (h : Denotes base cs n)
    (hc : c ∈ cs) : ∃ d, IsDigit base d c := by
  induction cs using List.reverseRecOn generalizing n with
  | nil => cases hc
  | append_singleton cs b ih =>
    obtain ⟨k, d, hk, hd, -⟩ := denotes_concat.mp h
    rcases List.mem_append.mp hc with hc | hc
    · exact ih hk hc
    · rw [List.mem_singleton.mp hc]
      exact ⟨d, hd⟩

theorem IsBody.not_isBlank {base : Nat} {t body : List Char} (h : IsBody t base body)
    (hbody : ∀ c ∈ body, ¬ isBlank c) : ∀ c ∈ t, ¬ isBlank c := by
  cases h with
  | small =>
    rw [List.forall_mem_cons, List.forall_mem_cons]
    exact ⟨by decide, by decide, hbody⟩
  | capital =>
    rw [List.forall_mem_cons, List.forall_mem_cons]
    exact ⟨by decide, by decide, hbody⟩
  | plain => exact hbody

/-- A text without blanks and without a sign is read as the value of its digits. -/
theorem readAddress_of_denotes {s : String} {base : Nat} {body : List Char} {a : UInt32}
    (hbody : IsBody s.toList base body) (hne : body ≠ []) (hvalue : Denotes base body a.toNat) :
    readAddress s = .ok a := by
  have hchars : ∀ c ∈ body, ¬ isBlank c ∧ c ≠ '+' ∧ c ≠ 'x' ∧ c ≠ 'X' := by
    intro c hc
    obtain ⟨d, hd⟩ := hvalue.exists_isDigit hc
    exact not_isBlank_of_isDigit hbody.le_sixteen.2 hd
  have hblank : ∀ c ∈ s.toList, ¬ isBlank c := hbody.not_isBlank fun c hc => (hchars c hc).1
  have htrimmed : IsTrimmed s.toList s.toList :=
    ⟨⟨[], [], by simp, by simp, by simp⟩, fun c hc => hblank c (List.mem_of_mem_head? hc),
      fun c hc => hblank c (List.mem_of_getLast? hc)⟩
  refine (readAddress_eq_ok_iff htrimmed hbody).mpr ⟨body, .plain fun hplus => ?_, hne, hvalue⟩
  exact (hchars '+' (List.mem_of_mem_head? hplus)).2.1 rfl

theorem readAddress_number {s : Style} (hhex : s.hex = .cstyle) (v : UInt32) :
    readAddress (s.number v) = .ok v := by
  have hwrites := s.writes_digits v
  have hmarked := hwrites.marked
  rw [hhex] at hmarked
  refine readAddress_of_denotes ?_ hwrites.nonempty hwrites.value
  rw [hmarked]
  exact .small _

theorem toList_addressText (v : UInt32) :
    (addressText v).toList = '0' :: 'x' :: (hexText 8 v.toNat).toList := by
  simp [addressText]

theorem readAddress_addressText (v : UInt32) : readAddress (addressText v) = .ok v := by
  have hword := isHexWord_hexText v
  have hne : (hexText 8 v.toNat).toList ≠ [] := by
    rw [← List.length_pos_iff, hword.length_eq]
    decide
  refine readAddress_of_denotes ?_ hne
    (denotes_of_readDigits (by decide) le_rfl (by decide) hword.value)
  rw [toList_addressText]
  exact .small _

theorem readAddress_decimalText (v : UInt32) : readAddress (decimalText v.toNat) = .ok v := by
  have hvalue : Denotes 10 (Nat.toDigits 10 v.toNat) v.toNat :=
    denotes_of_readDigits (by decide) (by decide) (by decide)
      (readDigits_toDigits (by decide) (by decide) v.toNat_lt)
  have hlist : (decimalText v.toNat).toList = Nat.toDigits 10 v.toNat := String.toList_ofList
  have hsecond (x : Char) (hx : ['0', x] <+: Nat.toDigits 10 v.toNat) : x ≠ 'x' ∧ x ≠ 'X' := by
    obtain ⟨d, hd⟩ := hvalue.exists_isDigit (hx.subset (by simp : x ∈ ['0', x]))
    exact (not_isBlank_of_isDigit (by decide) hd).2.2
  refine readAddress_of_denotes ?_ (Nat.toDigits_ne_nil : Nat.toDigits 10 v.toNat ≠ []) hvalue
  rw [hlist]
  exact .plain (fun h => (hsecond 'x' h).1 rfl) (fun h => (hsecond 'X' h).2 rfl)

/-- The address of which a row tells. -/
def Row.address : Row → Address
  | code i => i.address
  | data a _ => a
  | label a _ => a
  | unmapped a => a

/-- The first ten characters of every row are its address. -/
theorem Page.take_row (page : Page) (r : Row) :
    (page.row r).toList.take 10 = (addressText r.address).toList := by
  have hlength : (addressText r.address).toList.length = 10 := by
    rw [toList_addressText, List.length_cons, List.length_cons, (isHexWord_hexText _).length_eq]
  have hrow : ∃ rest, page.row r = addressText r.address ++ rest := by
    cases r with
    | code i => exact ⟨_, by simp only [row, instruction, String.append_assoc]; rfl⟩
    | data a b => exact ⟨_, by simp only [row, data, String.append_assoc]; rfl⟩
    | label a name => exact ⟨_, by simp only [row, String.append_assoc]; rfl⟩
    | unmapped a => exact ⟨_, by simp only [row, String.append_assoc]; rfl⟩
  obtain ⟨rest, hrest⟩ := hrow
  rw [hrest, String.toList_append, List.take_left' hlength]

/-- A number in any style has the digits of its value between the marks of the style, so that
different numbers have different texts. It is read back from its text with a leading mark, from
the text of an address, which every row of a listing begins with, and from its decimal text. -/
theorem number_text_denotes (s : Style) :
    (∀ v, ∃ ds, s.Writes v ds) ∧
    (s.hex = .suffix → ∀ v, (s.number v).toList.head?.any Char.isDigit) ∧
    Function.Injective s.number ∧
    (∀ v, readAddress (Style.number { s with hex := .cstyle } v) = .ok v) ∧
    (∀ v, readAddress (addressText v) = .ok v) ∧
    (∀ (page : Page) (r : Row),
      readAddress (String.ofList ((page.row r).toList.take 10)) = .ok r.address) ∧
    ∀ v : UInt32, readAddress (decimalText v.toNat) = .ok v := by
  refine ⟨fun v => ⟨_, s.writes_digits v⟩, Style.isDigit_head?_number, s.number_injective,
    readAddress_number rfl, readAddress_addressText, fun page r => ?_, readAddress_decimalText⟩
  rw [page.take_row, String.ofList_toList, readAddress_addressText]

/-- A number whose first digit is a letter, with its mark behind it and with it in front. -/
theorem number_text_denotes_letter_first :
    let s : Style := { hex := .suffix, uppercase := true }
    s.hex = .suffix ∧ s.number 0xbeef = "0BEEFh" ∧
      (s.number 0xbeef).toList.head?.any Char.isDigit ∧
      Style.number { s with hex := .cstyle } 0xbeef = "0xBEEF" ∧ readAddress "0xBEEF" = .ok 0xbeef := by
  intro s
  have hcstyle : Style.number { s with hex := .cstyle } 0xbeef = "0xBEEF" := by decide +kernel
  obtain ⟨_, hdigit, _, hread, _⟩ := number_text_denotes s
  have hback := hread 0xbeef
  rw [hcstyle] at hback
  exact ⟨rfl, by decide +kernel, hdigit rfl 0xbeef, hcstyle, hback⟩

end Disassembly
