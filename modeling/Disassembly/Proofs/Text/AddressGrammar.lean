import Disassembly.Proofs.Text.Numeral
import Mathlib.Data.List.Forall2
import Mathlib.Data.List.Induction
import Mathlib.Data.List.TakeWhile
import Mathlib.Data.Nat.Digits.Defs

namespace Disassembly

/-- The character is the digit of value `d`, in small or capital spelling. -/
def IsDigit (base d : Nat) (c : Char) : Prop :=
  d < base ∧ (c = d.digitChar ∨ c = d.digitChar.toUpper)

/-- The characters are digits, the least significant last, and `n` is their value. -/
def Denotes (base : Nat) (cs : List Char) (n : Nat) : Prop :=
  ∃ ds, List.Forall₂ (IsDigit base) ds cs.reverse ∧ n = Nat.ofDigits base ds

variable {base limit : Nat}

/-- The letters continue the digits. -/
theorem toNat_digitChar {d : Nat} (hd : d < 16) :
    d.digitChar.toNat = (if d < 10 then 48 + d else 87 + d) ∧
      d.digitChar.toUpper.toNat = if d < 10 then 48 + d else 55 + d := by
  decide +revert

theorem digitValue?_toUpper_digitChar {d : Nat} (hd : d < 16) :
    digitValue? 16 d.digitChar.toUpper = some d := by
  decide +revert

theorem digitValue?_eq_some_iff {c : Char} {d : Nat} (hbase : base ≤ 16) :
    digitValue? base c = some d ↔ IsDigit base d c := by
  rw [digitValue?, Option.filter_eq_some_iff, decide_eq_true_iff]
  constructor
  · rintro ⟨hvalue, hd⟩
    refine ⟨hd, ?_⟩
    obtain ⟨hsmall, hcapital⟩ := toNat_digitChar (hd.trans_le hbase)
    rw [← Char.toNat_inj, ← Char.toNat_inj, hsmall, hcapital]
    simp only [Char.isDigit, ge_iff_le, Char.le_def, UInt32.le_iff_toNat_le, Char.toNat_val,
      Char.reduceToNat, Bool.and_eq_true, decide_eq_true_eq] at hvalue
    split at hvalue
    · obtain rfl := Option.some_inj.mp hvalue
      left
      rw [if_pos (by omega)]
      omega
    · split at hvalue
      · obtain rfl := Option.some_inj.mp hvalue
        left
        rw [if_neg (by omega)]
        omega
      · obtain ⟨hrange, hletter⟩ := Option.ite_none_right_eq_some.mp hvalue
        obtain rfl := Option.some_inj.mp hletter
        right
        rw [if_neg (by omega)]
        omega
  · rintro ⟨hd, hc⟩
    refine ⟨?_, hd⟩
    have hsixteen : digitValue? 16 c = some d := by
      rcases hc with rfl | rfl
      · exact digitValue?_digitChar le_rfl (by omega)
      · exact digitValue?_toUpper_digitChar (by omega)
    rw [digitValue?, Option.filter_eq_some_iff] at hsixteen
    exact hsixteen.1

theorem denotes_nil {n : Nat} : Denotes base [] n ↔ n = 0 := by
  simp only [Denotes, List.reverse_nil, List.forall₂_nil_right_iff, exists_eq_left,
    Nat.ofDigits_nil]

/-- The last digit stands behind the number that the others make. -/
theorem denotes_concat {cs : List Char} {c : Char} {n : Nat} :
    Denotes base (cs ++ [c]) n ↔
      ∃ k d, Denotes base cs k ∧ IsDigit base d c ∧ n = k * base + d := by
  simp only [Denotes, List.reverse_concat]
  constructor
  · rintro ⟨ds, hds, hn⟩
    obtain ⟨d, high, hd, hhigh, rfl⟩ := List.forall₂_cons_right_iff.mp hds
    refine ⟨_, d, ⟨high, hhigh, rfl⟩, hd, ?_⟩
    rw [hn, Nat.ofDigits_cons, Nat.mul_comm base, Nat.add_comm]
  · rintro ⟨k, d, ⟨high, hhigh, hk⟩, hd, hn⟩
    refine ⟨d :: high, .cons hd hhigh, ?_⟩
    rw [hn, hk, Nat.ofDigits_cons, Nat.mul_comm base, Nat.add_comm]

theorem readDigits_singleton_eq_ok_iff {c : Char} {k n : Nat} (hbase : base ≤ 16) :
    readDigits base limit k [c] = .ok n ↔
      ∃ d, IsDigit base d c ∧ n = k * base + d ∧ n < limit := by
  simp only [readDigits, ← digitValue?_eq_some_iff hbase]
  cases digitValue? base c with
  | none => simp
  | some d =>
    by_cases hd : k * base + d < limit
    · simp only [hd, if_true, Except.ok.injEq, Option.some.injEq, exists_eq_left']
      constructor
      · rintro rfl
        exact ⟨rfl, hd⟩
      · intro h
        exact h.1.symm
    · simp only [hd, if_false, reduceCtorEq, Option.some.injEq, exists_eq_left', false_iff,
        not_and]
      rintro rfl
      exact hd

/-- Only the value has to stay below the limit: it does not shrink with a further digit. -/
theorem readDigits_eq_ok_iff {cs : List Char} {n : Nat} (hpos : 0 < base) (hbase : base ≤ 16)
    (hlimit : 0 < limit) :
    readDigits base limit 0 cs = .ok n ↔ Denotes base cs n ∧ n < limit := by
  induction cs using List.reverseRecOn generalizing n with
  | nil =>
    rw [readDigits, denotes_nil, Except.ok.injEq]
    omega
  | append_singleton cs c ih =>
    calc
      _ ↔ ∃ k, readDigits base limit 0 cs = .ok k ∧ readDigits base limit k [c] = .ok n := by
        rw [readDigits_append]
        cases readDigits base limit 0 cs <;> simp [Except.bind]
      _ ↔ ∃ k, (Denotes base cs k ∧ k < limit) ∧
            ∃ d, IsDigit base d c ∧ n = k * base + d ∧ n < limit := by
        simp only [ih, readDigits_singleton_eq_ok_iff hbase]
      _ ↔ Denotes base (cs ++ [c]) n ∧ n < limit := by
        rw [denotes_concat]
        constructor
        · rintro ⟨k, hk, d, hd, hn, hlt⟩
          exact ⟨⟨k, d, hk.1, hd, hn⟩, hlt⟩
        · rintro ⟨⟨k, d, hk, hd, hn⟩, hlt⟩
          have hle : k ≤ k * base := Nat.le_mul_of_pos_right k hpos
          exact ⟨k, ⟨hk, by omega⟩, d, hd, hn, hlt⟩

theorem denotes_of_readDigits {cs : List Char} {n : Nat} (hpos : 0 < base)
    (hbase : base ≤ 16) (hlimit : 0 < limit) (h : readDigits base limit 0 cs = .ok n) :
    Denotes base cs n :=
  ((readDigits_eq_ok_iff hpos hbase hlimit).mp h).1

theorem Denotes.unique {cs : List Char} {m n : Nat} (hpos : 0 < base) (hbase : base ≤ 16)
    (hm : Denotes base cs m) (hn : Denotes base cs n) : m = n := by
  have hread {k : Nat} (hk : Denotes base cs k) (hle : k ≤ max m n) :
      readDigits base (max m n + 1) 0 cs = .ok k :=
    (readDigits_eq_ok_iff hpos hbase (Nat.succ_pos _)).mpr ⟨hk, Nat.lt_succ_of_le hle⟩
  exact Except.ok.inj ((hread hm (le_max_left m n)).symm.trans (hread hn (le_max_right m n)))

/-- Why a number below `limit` cannot go on with `c` behind the digits `before`. -/
inductive FailsAt (base limit : Nat) (before : List Char) (c : Char) : NumberError → Prop
  | invalidDigit (h : ∀ d, ¬ IsDigit base d c) : FailsAt base limit before c .invalidDigit
  | tooLarge {n : Nat} (h : Denotes base (before ++ [c]) n) (hn : limit ≤ n) :
    FailsAt base limit before c .tooLarge

theorem readDigits_singleton_eq_error_iff {before : List Char} {c : Char} {k : Nat}
    {e : NumberError} (hpos : 0 < base) (hbase : base ≤ 16) (hk : Denotes base before k) :
    readDigits base limit k [c] = .error e ↔ FailsAt base limit before c e := by
  constructor
  · intro h
    rw [readDigits] at h
    cases hd : digitValue? base c with
    | none =>
      simp only [hd] at h
      obtain rfl := Except.error.inj h
      refine .invalidDigit fun d hdigit => ?_
      rw [(digitValue?_eq_some_iff hbase).mpr hdigit] at hd
      cases hd
    | some d =>
      simp only [hd, readDigits, ite_eq_iff, reduceCtorEq, and_false, false_or] at h
      obtain ⟨hlimit, herror⟩ := h
      obtain rfl := Except.error.inj herror
      have hdigit := (digitValue?_eq_some_iff hbase).mp hd
      exact .tooLarge (denotes_concat.mpr ⟨k, d, hk, hdigit, rfl⟩) (Nat.le_of_not_lt hlimit)
  · intro h
    rw [readDigits]
    cases h with
    | invalidDigit h =>
      have hnone : digitValue? base c = none :=
        Option.eq_none_iff_forall_ne_some.mpr fun d hd =>
          h d ((digitValue?_eq_some_iff hbase).mp hd)
      rw [hnone]
    | tooLarge h hn =>
      obtain ⟨j, d, hj, hdigit, rfl⟩ := denotes_concat.mp h
      obtain rfl := hk.unique hpos hbase hj
      rw [(digitValue?_eq_some_iff hbase).mpr hdigit]
      exact if_neg (Nat.not_lt_of_le hn)

/-- The leftmost character that fails decides the error. -/
theorem readDigits_eq_error_iff {cs : List Char} {e : NumberError} (hpos : 0 < base)
    (hbase : base ≤ 16) (hlimit : 0 < limit) :
    readDigits base limit 0 cs = .error e ↔
      ∃ before c after n, cs = before ++ c :: after ∧ Denotes base before n ∧ n < limit ∧
        FailsAt base limit before c e := by
  constructor
  · intro h
    induction cs using List.reverseRecOn with
    | nil => cases h
    | append_singleton cs c ih =>
      rw [readDigits_append] at h
      cases hread : readDigits base limit 0 cs with
      | error e' =>
        rw [hread] at h
        obtain ⟨before, b, after, n, rfl, hbefore⟩ := ih (hread.trans h)
        exact ⟨before, b, after ++ [c], n, by simp, hbefore⟩
      | ok k =>
        rw [hread] at h
        obtain ⟨hk, hlt⟩ := (readDigits_eq_ok_iff hpos hbase hlimit).mp hread
        exact ⟨cs, c, [], k, rfl, hk, hlt,
          (readDigits_singleton_eq_error_iff hpos hbase hk).mp h⟩
  · rintro ⟨before, c, after, n, hcs, hbefore, hlt, hfails⟩
    have hread := (readDigits_eq_ok_iff hpos hbase hlimit).mpr ⟨hbefore, hlt⟩
    have hc := (readDigits_singleton_eq_error_iff hpos hbase hbefore).mpr hfails
    have hsplit : cs = before ++ ([c] ++ after) := hcs
    rw [hsplit, readDigits_append, hread]
    change readDigits base limit n ([c] ++ after) = _
    rw [readDigits_append, hc]
    rfl

/-- What stands behind the sign of a number, of which there is at most one. -/
inductive IsUnsigned : List Char → List Char → Prop
  | plain {cs : List Char} (h : cs.head? ≠ some '+') : IsUnsigned cs cs
  | signed (cs : List Char) : IsUnsigned ('+' :: cs) cs

/-- A number is written with at least one digit. -/
def IsNumeral (base : Nat) (body : List Char) (n : Nat) : Prop :=
  ∃ digits, IsUnsigned body digits ∧ digits ≠ [] ∧ Denotes base digits n

/-- Why a text is not a number below `limit`: the leftmost character at which it fails to be one
decides. A plus sign with nothing behind it fails itself. -/
inductive IsRefused (base limit : Nat) : List Char → NumberError → Prop
  | empty : IsRefused base limit [] .empty
  | plus : IsRefused base limit ['+'] .invalidDigit
  | leftmost {body before after : List Char} {c : Char} {n : Nat} {e : NumberError}
    (unsigned : IsUnsigned body (before ++ c :: after)) (digits : Denotes base before n)
    (below : n < limit) (fails : FailsAt base limit before c e) : IsRefused base limit body e

theorem readNumber_of_isUnsigned {body digits : List Char} (h : IsUnsigned body digits)
    (hne : digits ≠ []) : readNumber base limit body = readDigits base limit 0 digits := by
  obtain ⟨c, cs, rfl⟩ := List.exists_cons_of_ne_nil hne
  cases h with
  | plain hplus =>
    have hc : c ≠ '+' := by simpa using hplus
    exact readNumber_of_ne_plus hc
  | signed => rfl

theorem IsUnsigned.unique {body ds ds' : List Char} (h : IsUnsigned body ds)
    (h' : IsUnsigned body ds') : ds = ds' := by
  cases h with
  | plain hplus =>
    cases h' with
    | plain => rfl
    | signed => exact absurd rfl hplus
  | signed =>
    cases h' with
    | plain hplus => exact absurd rfl hplus
    | signed => rfl

/-- Every body is empty, a lone plus sign, or has something behind its sign. -/
theorem isUnsigned_cases (body : List Char) :
    body = [] ∨ body = ['+'] ∨ ∃ digits, IsUnsigned body digits ∧ digits ≠ [] := by
  cases body with
  | nil => exact .inl rfl
  | cons c cs =>
    right
    by_cases hc : c = '+'
    · subst hc
      by_cases hcs : cs = []
      · exact .inl (by rw [hcs])
      · exact .inr ⟨cs, .signed cs, hcs⟩
    · exact .inr ⟨c :: cs, .plain (by simpa using hc), List.cons_ne_nil c cs⟩

theorem readNumber_eq_ok_iff {body : List Char} {n : Nat} (hpos : 0 < base) (hbase : base ≤ 16)
    (hlimit : 0 < limit) :
    readNumber base limit body = .ok n ↔ IsNumeral base body n ∧ n < limit := by
  obtain rfl | rfl | ⟨digits, hdigits, hne⟩ := isUnsigned_cases body
  · simp only [readNumber, reduceCtorEq, false_iff, not_and]
    rintro ⟨digits, hdigits, hne, _⟩
    cases hdigits
    exact absurd rfl hne
  · simp only [readNumber, reduceCtorEq, false_iff, not_and]
    rintro ⟨digits, hdigits, hne, _⟩
    exact absurd (hdigits.unique (.signed [])) hne
  · rw [readNumber_of_isUnsigned hdigits hne, readDigits_eq_ok_iff hpos hbase hlimit]
    constructor
    · rintro ⟨hn, hlt⟩
      exact ⟨⟨digits, hdigits, hne, hn⟩, hlt⟩
    · rintro ⟨⟨ds, hds, _, hn⟩, hlt⟩
      rw [hdigits.unique hds]
      exact ⟨hn, hlt⟩

theorem readNumber_eq_error_iff {body : List Char} {e : NumberError} (hpos : 0 < base)
    (hbase : base ≤ 16) (hlimit : 0 < limit) :
    readNumber base limit body = .error e ↔ IsRefused base limit body e := by
  constructor
  · intro h
    obtain rfl | rfl | ⟨digits, hdigits, hne⟩ := isUnsigned_cases body
    · obtain rfl := Except.error.inj h
      exact .empty
    · obtain rfl := Except.error.inj h
      exact .plus
    · rw [readNumber_of_isUnsigned hdigits hne] at h
      obtain ⟨before, c, after, n, rfl, hn, hlt, hfails⟩ :=
        (readDigits_eq_error_iff hpos hbase hlimit).mp h
      exact .leftmost hdigits hn hlt hfails
  · intro h
    cases h with
    | empty => rfl
    | plus => rfl
    | leftmost hdigits hn hlt hfails =>
      rw [readNumber_of_isUnsigned hdigits (by simp)]
      exact (readDigits_eq_error_iff hpos hbase hlimit).mpr ⟨_, _, _, _, rfl, hn, hlt, hfails⟩

/-- The text `t` is what is left of `cs` without the blanks at its two ends. -/
structure IsTrimmed (cs t : List Char) : Prop where
  ends : ∃ before after, cs = before ++ (t ++ after) ∧
    (∀ c ∈ before, isBlank c) ∧ ∀ c ∈ after, isBlank c
  first : ∀ c ∈ t.head?, ¬ isBlank c
  last : ∀ c ∈ t.getLast?, ¬ isBlank c

theorem dropWhile_isBlank {before t : List Char} (hbefore : ∀ c ∈ before, isBlank c)
    (ht : ∀ c ∈ t.head?, ¬ isBlank c) : (before ++ t).dropWhile isBlank = t := by
  rw [List.dropWhile_append_of_pos hbefore]
  cases t with
  | nil => rfl
  | cons c t => exact List.dropWhile_cons_of_neg (ht c rfl)

theorem not_isBlank_of_head?_dropWhile {cs : List Char} {c : Char}
    (h : c ∈ (cs.dropWhile isBlank).head?) : ¬ isBlank c := by
  have hnot := List.head?_dropWhile_not isBlank cs
  rw [h] at hnot
  simpa using hnot

theorem isTrimmed_trimBlanks (cs : List Char) : IsTrimmed cs (trimBlanks cs) := by
  have hfront : cs.takeWhile isBlank ++ cs.dropWhile isBlank = cs :=
    List.takeWhile_append_dropWhile
  have hback : trimBlanks cs ++ ((cs.dropWhile isBlank).reverse.takeWhile isBlank).reverse =
      cs.dropWhile isBlank := by
    rw [trimBlanks, ← List.reverse_append, List.takeWhile_append_dropWhile, List.reverse_reverse]
  have hhead : ∀ c ∈ (cs.dropWhile isBlank).head?, ¬ isBlank c :=
    fun c => not_isBlank_of_head?_dropWhile
  have hafter : ∀ c ∈ ((cs.dropWhile isBlank).reverse.takeWhile isBlank).reverse, isBlank c :=
    fun c hc => List.mem_takeWhile_imp (List.mem_reverse.mp hc)
  refine ⟨⟨cs.takeWhile isBlank, _, ?_, fun c => List.mem_takeWhile_imp, hafter⟩, ?_, ?_⟩
  · rw [hback, hfront]
  · intro c hc
    apply hhead
    rw [← hback, List.head?_append, hc]
    rfl
  · intro c hc
    rw [trimBlanks, List.getLast?_reverse] at hc
    exact not_isBlank_of_head?_dropWhile hc

theorem IsTrimmed.eq_trimBlanks {cs t : List Char} (h : IsTrimmed cs t) : t = trimBlanks cs := by
  obtain ⟨⟨before, after, rfl, hbefore, hafter⟩, hfirst, hlast⟩ := h
  have hback : (t ++ after).reverse.dropWhile isBlank = t.reverse := by
    rw [List.reverse_append]
    apply dropWhile_isBlank
    · intro c hc
      exact hafter c (List.mem_reverse.mp hc)
    · rwa [List.head?_reverse]
  by_cases ht : t = []
  · -- Then all characters are blank, and the first pass removes them.
    subst ht
    have hall : (before ++ ([] ++ after)).dropWhile isBlank = [] := by
      rw [List.dropWhile_append_of_pos hbefore]
      exact List.dropWhile_eq_nil_iff.mpr hafter
    rw [trimBlanks, hall]
    rfl
  · have hfront : (before ++ (t ++ after)).dropWhile isBlank = t ++ after := by
      apply dropWhile_isBlank hbefore
      rwa [List.head?_append_of_ne_nil _ ht]
    rw [trimBlanks, hfront, hback, List.reverse_reverse]

/-- The part of an address text that holds the number, and the base of its digits. -/
inductive IsBody : List Char → Nat → List Char → Prop
  | small (cs : List Char) : IsBody ('0' :: 'x' :: cs) 16 cs
  | capital (cs : List Char) : IsBody ('0' :: 'X' :: cs) 16 cs
  | plain {t : List Char} (hsmall : ¬ ['0', 'x'] <+: t) (hcapital : ¬ ['0', 'X'] <+: t) :
    IsBody t 10 t

theorem isBody_addressBody (t : List Char) : IsBody t (addressBody t).1 (addressBody t).2 := by
  unfold addressBody
  split
  · exact .small _
  · exact .capital _
  · next hsmall hcapital =>
    refine .plain ?_ ?_
    · rintro ⟨cs, hcs⟩
      exact hsmall cs hcs.symm
    · rintro ⟨cs, hcs⟩
      exact hcapital cs hcs.symm

theorem IsBody.eq_addressBody {t cs : List Char} (h : IsBody t base cs) :
    addressBody t = (base, cs) := by
  cases h with
  | small => rfl
  | capital => rfl
  | plain hsmall hcapital =>
    unfold addressBody
    split
    · exact absurd (List.prefix_append _ _) hsmall
    · exact absurd (List.prefix_append _ _) hcapital
    · rfl

theorem IsBody.le_sixteen {t cs : List Char} (h : IsBody t base cs) : 0 < base ∧ base ≤ 16 := by
  cases h <;> decide

theorem map_ofNat_eq_ok_iff {r : Except NumberError Nat} {a : UInt32}
    (hr : ∀ n, r = .ok n → n < UInt32.size) :
    r.map UInt32.ofNat = .ok a ↔ r = .ok a.toNat := by
  cases r with
  | error e => simp [Except.map]
  | ok n =>
    have hn : n < UInt32.size := hr n rfl
    simp only [Except.map, Except.ok.injEq]
    constructor
    · rintro rfl
      exact (UInt32.toNat_ofNat_of_lt' hn).symm
    · rintro rfl
      exact UInt32.ofNat_toNat

section Address

variable {s : String} {t body : List Char}

theorem readAddress_eq_map (ht : IsTrimmed s.toList t) (hbody : IsBody t base body) :
    readAddress s = (readNumber base UInt32.size body).map UInt32.ofNat := by
  rw [readAddress, ← ht.eq_trimBlanks, hbody.eq_addressBody]

theorem readAddress_eq_ok_iff {a : UInt32} (ht : IsTrimmed s.toList t)
    (hbody : IsBody t base body) : readAddress s = .ok a ↔ IsNumeral base body a.toNat := by
  obtain ⟨hpos, hbase⟩ := hbody.le_sixteen
  have hiff (n : Nat) :
      readNumber base UInt32.size body = .ok n ↔ IsNumeral base body n ∧ n < UInt32.size :=
    readNumber_eq_ok_iff hpos hbase (by decide)
  rw [readAddress_eq_map ht hbody, map_ofNat_eq_ok_iff fun n hn => ((hiff n).mp hn).2, hiff]
  exact and_iff_left a.toNat_lt_size

theorem readAddress_eq_error_iff {e : NumberError} (ht : IsTrimmed s.toList t)
    (hbody : IsBody t base body) :
    readAddress s = .error e ↔ IsRefused base UInt32.size body e := by
  obtain ⟨hpos, hbase⟩ := hbody.le_sixteen
  rw [readAddress_eq_map ht hbody, ← readNumber_eq_error_iff hpos hbase (by decide)]
  cases readNumber base UInt32.size body <;> simp [Except.map]

end Address

/-- An address text is read exactly by its grammar: the text without the blanks around it has one
body and one base, it is read as an address if the body is a numeral of that base whose value fits,
and otherwise the leftmost character at which the body fails decides the error. -/
theorem readAddress_iff_grammar (s : String) :
    ∃ t base body, (∀ u, IsTrimmed s.toList u ↔ u = t) ∧
      (∀ b cs, IsBody t b cs ↔ b = base ∧ cs = body) ∧
      (∀ a, readAddress s = .ok a ↔ IsNumeral base body a.toNat) ∧
      ∀ e, readAddress s = .error e ↔ IsRefused base UInt32.size body e := by
  have htrimmed := isTrimmed_trimBlanks s.toList
  have hbody := isBody_addressBody (trimBlanks s.toList)
  refine ⟨trimBlanks s.toList, _, _, fun u => ⟨IsTrimmed.eq_trimBlanks, ?_⟩,
    fun b cs => ⟨fun h => ?_, ?_⟩, fun a => readAddress_eq_ok_iff htrimmed hbody,
    fun e => readAddress_eq_error_iff htrimmed hbody⟩
  · rintro rfl
    exact htrimmed
  · have hpair := h.eq_addressBody
    exact ⟨(congrArg Prod.fst hpair).symm, (congrArg Prod.snd hpair).symm⟩
  · rintro ⟨rfl, rfl⟩
    exact hbody

/-- The value is too large before the character that is no digit is reached. -/
example : readAddress "\t0X+00100000000g " = .error .tooLarge := rfl

end Disassembly
