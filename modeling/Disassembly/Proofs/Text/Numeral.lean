import Disassembly.Listing.Style
import Disassembly.Text.Number

namespace Disassembly

theorem readDigits_append (base limit n : Nat) (cs ds : List Char) :
    readDigits base limit n (cs ++ ds) =
      (readDigits base limit n cs).bind fun k => readDigits base limit k ds := by
  induction cs generalizing n with
  | nil => rfl
  | cons c cs ih =>
    simp only [List.cons_append, readDigits]
    cases digitValue? base c with
    | none => rfl
    | some d =>
      by_cases hlimit : n * base + d < limit
      · simp [hlimit, ih]
      · simp [hlimit, Except.bind]

/-- A number is read back from its digits, in whatever way these are spelled. -/
theorem readDigits_map_toDigits {base limit : Nat} {spell : Char → Char} (hbase : 1 < base)
    (hspell : ∀ d < base, digitValue? base (spell d.digitChar) = some d) {n : Nat}
    (hn : n < limit) :
    readDigits base limit 0 ((Nat.toDigits base n).map spell) = .ok n := by
  induction n using Nat.strongRecOn with
  | ind n ih =>
    by_cases hlow : n < base
    · rw [Nat.toDigits_of_lt_base hlow]
      simp [readDigits, hspell n hlow, hn]
    · -- The last digit is read behind the number that the others make.
      have hhigh : n / base < n := Nat.div_lt_self (by omega) hbase
      have hlast : n % base < base := Nat.mod_lt n (by omega)
      have hsum : n / base * base + n % base = n := Nat.div_add_mod' n base
      rw [Nat.toDigits_of_base_le hbase (by omega), List.map_append, readDigits_append,
        ih (n / base) hhigh (by omega)]
      simp [Except.bind, readDigits, hspell _ hlast, hsum, hn]

theorem exists_digit_of_mem_toDigits {base n : Nat} {c : Char} (hbase : 1 < base)
    (h : c ∈ Nat.toDigits base n) : ∃ d < base, c = d.digitChar := by
  induction n using Nat.strongRecOn with
  | ind n ih =>
    by_cases hlow : n < base
    · rw [Nat.toDigits_of_lt_base hlow, List.mem_singleton] at h
      exact ⟨n, hlow, h⟩
    · rw [Nat.toDigits_of_base_le hbase (by omega), List.mem_append, List.mem_singleton] at h
      rcases h with h | h
      · exact ih (n / base) (Nat.div_lt_self (by omega) hbase) h
      · exact ⟨n % base, Nat.mod_lt n (by omega), h⟩

theorem digitValue?_digitChar {base d : Nat} (hbase : base ≤ 16) (hd : d < base) :
    digitValue? base d.digitChar = some d := by
  have hhex : ∀ d < 16, digitValue? 16 d.digitChar = some d := by decide
  have hd16 := hhex d (by omega)
  rw [digitValue?, Option.filter_eq_some_iff] at hd16 ⊢
  exact ⟨hd16.1, decide_eq_true hd⟩

theorem digitChar_ne_plus {d : Nat} (hd : d < 16) : d.digitChar ≠ '+' := by
  decide +revert

theorem readNumber_of_ne_plus {base limit : Nat} {c : Char} {cs : List Char} (hc : c ≠ '+') :
    readNumber base limit (c :: cs) = readDigits base limit 0 (c :: cs) := by
  simp [readNumber, hc]

theorem readDigits_toDigits {base limit n : Nat} (hbase : 1 < base) (hlast : base ≤ 16)
    (hn : n < limit) : readDigits base limit 0 (Nat.toDigits base n) = .ok n := by
  have hspell : ∀ d < base, digitValue? base (id d.digitChar) = some d :=
    fun _ hd => digitValue?_digitChar hlast hd
  have hread := readDigits_map_toDigits hbase hspell hn
  rwa [List.map_id] at hread

theorem readNumber_toDigits {base limit n : Nat} (hbase : 1 < base) (hlast : base ≤ 16)
    (hn : n < limit) : readNumber base limit (Nat.toDigits base n) = .ok n := by
  have hread := readDigits_toDigits hbase hlast hn
  obtain ⟨c, cs, hdigits⟩ :=
    List.exists_cons_of_ne_nil (Nat.toDigits_ne_nil : Nat.toDigits base n ≠ [])
  obtain ⟨d, hd, rfl⟩ := exists_digit_of_mem_toDigits hbase (hdigits ▸ List.mem_cons_self)
  rw [hdigits] at hread
  rw [hdigits, readNumber_of_ne_plus (digitChar_ne_plus (by omega)), hread]

/-- A number other than zero does not begin with a zero. -/
theorem exists_toDigits_eq_cons {base n : Nat} (hbase : 1 < base) (hn : 0 < n) :
    ∃ d rest, 0 < d ∧ d < base ∧ Nat.toDigits base n = d.digitChar :: rest := by
  induction n using Nat.strongRecOn with
  | ind n ih =>
    by_cases hlow : n < base
    · exact ⟨n, [], hn, hlow, Nat.toDigits_of_lt_base hlow⟩
    · have hhigh : 0 < n / base := Nat.div_pos (by omega) (by omega)
      obtain ⟨d, rest, hpos, hd, hdigits⟩ := ih (n / base) (Nat.div_lt_self hn hbase) hhigh
      refine ⟨d, rest ++ [(n % base).digitChar], hpos, hd, ?_⟩
      rw [Nat.toDigits_of_base_le hbase (by omega), hdigits, List.cons_append]

/-- Zeros in front of a number do not change it. -/
theorem readDigits_padZeros {base limit : Nat} (hbase : 0 < base) (hlimit : 0 < limit)
    (width : Nat) (cs : List Char) :
    readDigits base limit 0 (padZeros width cs) = readDigits base limit 0 cs := by
  have hzero : digitValue? base '0' = some 0 := by
    simp [digitValue?, hbase]
  unfold padZeros
  induction width - cs.length with
  | zero => rfl
  | succ n ih =>
    rw [List.replicate_succ, List.cons_append, readDigits, hzero]
    simp only [Nat.zero_mul, Nat.zero_add, hlimit, if_true]
    exact ih

/-- Eight lower-case hexadecimal digits that make the number `v`. -/
structure IsHexWord (v : UInt32) (ds : List Char) : Prop where
  length_eq : ds.length = 8
  lower : ∀ c ∈ ds, c ∈ "0123456789abcdef".toList
  value : readDigits 16 UInt32.size 0 ds = .ok v.toNat

theorem IsHexWord.unique {v w : UInt32} {ds : List Char} (hv : IsHexWord v ds)
    (hw : IsHexWord w ds) : v = w := by
  have hvalue := hv.value
  rw [hw.value, Except.ok.injEq] at hvalue
  exact UInt32.toNat_inj.mp hvalue.symm

theorem digitChar_mem_lower {d : Nat} (hd : d < 16) :
    d.digitChar ∈ "0123456789abcdef".toList := by
  decide +revert

theorem isHexWord_hexText (v : UInt32) : IsHexWord v (hexText 8 v.toNat).toList := by
  have hlength : (hexDigits v.toNat).length ≤ 8 :=
    (Nat.length_toDigits_le_iff (by decide) (by decide)).mpr v.toNat_lt
  have hread : readDigits 16 UInt32.size 0 (hexDigits v.toNat) = .ok v.toNat :=
    readDigits_toDigits (by decide) (by decide) v.toNat_lt
  rw [hexText, String.toList_ofList]
  refine ⟨?_, ?_, ?_⟩
  · rw [length_padZeros]
    omega
  · intro c hc
    rcases List.mem_append.mp hc with hc | hc
    · rw [List.eq_of_mem_replicate hc]
      decide
    · obtain ⟨d, hd, rfl⟩ := exists_digit_of_mem_toDigits (by decide) hc
      exact digitChar_mem_lower hd
  · rw [readDigits_padZeros (by decide) (by decide), hread]

/-- Looks like a number in one of the styles: a decimal digit comes first, or all characters are
hexadecimal digits. -/
def looksNumeric (cs : List Char) : Bool :=
  cs.head?.any Char.isDigit || cs.all fun c => (digitValue? 16 c).isSome

/-- What marks a number in front of its digits. -/
def HexStyle.before : HexStyle → List Char
  | cstyle => ['0', 'x']
  | _ => []

/-- What marks a number behind its digits. -/
def HexStyle.behind : HexStyle → List Char
  | suffix => ['h']
  | _ => []

namespace Style

def spell (s : Style) : Char → Char :=
  if s.uppercase then Char.toUpper else id

theorem digits_eq_map (s : Style) (n : Nat) : s.digits n = (Nat.toDigits 16 n).map s.spell := by
  unfold digits spell
  split
  · rfl
  · rw [List.map_id, hexDigits]

theorem digitValue?_spell (s : Style) {d : Nat} (hd : d < 16) :
    digitValue? 16 (s.spell d.digitChar) = some d := by
  unfold spell
  cases s.uppercase with
  | true => decide +revert
  | false => decide +revert

theorem isAlphanum_spell (s : Style) {d : Nat} (hd : d < 16) :
    (s.spell d.digitChar).isAlphanum := by
  unfold spell
  cases s.uppercase with
  | true => decide +revert
  | false => decide +revert

theorem digits_ne_nil (s : Style) (n : Nat) : s.digits n ≠ [] := by
  rw [digits_eq_map, ne_eq, List.map_eq_nil_iff]
  exact Nat.toDigits_ne_nil

theorem exists_digit_of_mem_digits {s : Style} {n : Nat} {c : Char} (h : c ∈ s.digits n) :
    ∃ d < 16, c = s.spell d.digitChar := by
  rw [digits_eq_map, List.mem_map] at h
  obtain ⟨c, hc, rfl⟩ := h
  obtain ⟨d, hd, rfl⟩ := exists_digit_of_mem_toDigits (by decide) hc
  exact ⟨d, hd, rfl⟩

/-- The characters of a number between its marks. -/
def numeral (s : Style) (v : UInt32) : List Char :=
  if s.hex = .suffix ∧ (s.digits v.toNat).head?.any Char.isAlpha then '0' :: s.digits v.toNat
  else s.digits v.toNat

theorem eq_or_mem_of_mem_numeral {s : Style} {v : UInt32} {c : Char} (h : c ∈ s.numeral v) :
    c = '0' ∨ c ∈ s.digits v.toNat := by
  unfold numeral at h
  split at h
  · exact List.mem_cons.mp h
  · exact .inr h

theorem toList_number (s : Style) (v : UInt32) :
    (s.number v).toList = s.hex.before ++ s.numeral v ++ s.hex.behind := by
  unfold number numeral
  cases s.hex with
  | bare => simp [HexStyle.before, HexStyle.behind]
  | cstyle => simp [HexStyle.before, HexStyle.behind]
  | suffix =>
    simp [HexStyle.before, HexStyle.behind]

theorem toList_number_ne_nil (s : Style) (v : UInt32) : (s.number v).toList ≠ [] := by
  have hdigits := s.digits_ne_nil v.toNat
  rw [toList_number, numeral]
  split <;> simp [hdigits]

theorem readDigits_digits (s : Style) (v : UInt32) :
    readDigits 16 UInt32.size 0 (s.digits v.toNat) = .ok v.toNat := by
  rw [digits_eq_map]
  exact readDigits_map_toDigits (by decide) (fun _ hd => s.digitValue?_spell hd) v.toNat_lt

theorem readDigits_numeral (s : Style) (v : UInt32) :
    readDigits 16 UInt32.size 0 (s.numeral v) = .ok v.toNat := by
  unfold numeral
  split
  · exact s.readDigits_digits v
  · exact s.readDigits_digits v

theorem number_injective (s : Style) : Function.Injective s.number := by
  intro v w h
  have hlist := congrArg String.toList h
  rw [toList_number, toList_number, List.append_left_inj, List.append_right_inj] at hlist
  have hread := s.readDigits_numeral v
  rw [hlist, readDigits_numeral, Except.ok.injEq] at hread
  exact UInt32.toNat_inj.mp hread.symm

theorem isAlphanum_of_mem_number {s : Style} {v : UInt32} {c : Char}
    (h : c ∈ (s.number v).toList) : c.isAlphanum := by
  have hbefore : s.hex.before.all Char.isAlphanum := by
    cases s.hex <;> rfl
  have hbehind : s.hex.behind.all Char.isAlphanum := by
    cases s.hex <;> rfl
  rw [toList_number, List.mem_append, List.mem_append] at h
  rcases h with (h | h) | h
  · exact List.all_eq_true.mp hbefore c h
  · rcases eq_or_mem_of_mem_numeral h with rfl | h
    · decide
    · obtain ⟨d, hd, rfl⟩ := exists_digit_of_mem_digits h
      exact s.isAlphanum_spell hd
  · exact List.all_eq_true.mp hbehind c h

/-- With its mark behind it, a number begins with a decimal digit. -/
theorem isDigit_head?_number {s : Style} (hhex : s.hex = .suffix) (v : UInt32) :
    (s.number v).toList.head?.any Char.isDigit := by
  obtain ⟨c, cs, hcs⟩ := List.exists_cons_of_ne_nil (s.digits_ne_nil v.toNat)
  rw [toList_number]
  by_cases hc : c.isAlpha
  · simp [numeral, hhex, hcs, hc, HexStyle.before]
  · have halnum : c.isAlphanum := by
      obtain ⟨d, hd, rfl⟩ := exists_digit_of_mem_digits (hcs ▸ List.mem_cons_self)
      exact s.isAlphanum_spell hd
    have hdigit : c.isDigit := by simpa [Char.isAlphanum, hc] using halnum
    simp [numeral, hhex, hcs, hc, hdigit, HexStyle.before]

theorem looksNumeric_number (s : Style) (v : UInt32) : looksNumeric (s.number v).toList := by
  cases hhex : s.hex with
  | bare =>
    have hall : (s.numeral v).all fun c => (digitValue? 16 c).isSome := by
      simp only [numeral, hhex, List.all_eq_true]
      intro c hc
      obtain ⟨d, hd, rfl⟩ := exists_digit_of_mem_digits hc
      simp [s.digitValue?_spell hd]
    simp [looksNumeric, toList_number, hhex, HexStyle.before, HexStyle.behind, hall]
  | cstyle => simp [looksNumeric, toList_number, hhex, HexStyle.before]
  | suffix => simp [looksNumeric, isDigit_head?_number hhex v]

end Style

end Disassembly
