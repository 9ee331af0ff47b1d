import Mathlib.Data.List.TakeWhile
import Mathlib.Data.Nat.Digits.Defs
import TableLang.Text.Numeral

/-! What decimal digits denote, and when they are read: a row of digits is read as the number that
it denotes, however long it is, unless that number does not fit. Without a zero in front, the digits
are the only ones that denote their number. -/
namespace TableLang.Text

def decimalValue (digits : List Char) : Nat :=
  Nat.ofDigits 10 (digits.reverse.map fun c => c.toNat - '0'.toNat)

theorem decimalValue_cons (c : Char) (cs : List Char) :
    decimalValue (c :: cs) = (c.toNat - '0'.toNat) * 10 ^ cs.length + decimalValue cs := by
  rw [decimalValue, List.reverse_cons, List.map_append, Nat.ofDigits_append, Nat.add_comm]
  simp [decimalValue, Nat.mul_comm]

/-- A digit in front of others can be added to the number that stands in front of all of them. -/
theorem add_decimalValue_cons (acc : Nat) (c : Char) (cs : List Char) :
    acc * 10 ^ (c :: cs).length + decimalValue (c :: cs) =
      (acc * 10 + (c.toNat - '0'.toNat)) * 10 ^ cs.length + decimalValue cs := by
  rw [decimalValue_cons, List.length_cons]
  ring

theorem digit?_eq_some {c : Char} (h : c.isDigit = true) :
    digit? c = some (c.toNat - '0'.toNat) := by
  simp only [Char.isDigit, Bool.and_eq_true, decide_eq_true_eq] at h
  exact if_pos h

theorem digit?_eq_none {c : Char} (h : c.isDigit = false) : digit? c = none := by
  refine if_neg fun hc => ?_
  have hdigit : c.isDigit = true := by
    simp only [Char.isDigit, Bool.and_eq_true, decide_eq_true_eq]
    exact hc
  rw [h] at hdigit
  cases hdigit

/-- What is read on top of a value that fits is decided by the digits that come first: if the number
they make with it is too large, that is noticed before any other character is met. The value only
grows with each digit, so that it is too large in the end if it is so once. -/
theorem readDigits_text (cs : List Char) (acc : Nat) (hacc : acc ≤ maxNumeral) :
    readDigits acc cs =
      if acc * 10 ^ (cs.takeWhile Char.isDigit).length + decimalValue (cs.takeWhile Char.isDigit) ≤
          maxNumeral then
        if cs.all Char.isDigit then
          .ok (acc * 10 ^ (cs.takeWhile Char.isDigit).length +
            decimalValue (cs.takeWhile Char.isDigit))
        else .error .invalidDigit
      else .error .tooLarge := by
  induction cs generalizing acc with
  | nil => simp [readDigits, decimalValue, hacc]
  | cons c cs ih =>
    rw [readDigits]
    cases hc : c.isDigit with
    | false =>
      rw [digit?_eq_none hc, List.takeWhile_cons_of_neg (by simp [hc])]
      have hfits : acc * 10 ^ ([] : List Char).length + decimalValue [] ≤ maxNumeral := by
        simpa [decimalValue] using hacc
      rw [if_pos hfits, List.all_cons, hc]
      rfl
    | true =>
      rw [digit?_eq_some hc, List.takeWhile_cons_of_pos hc, add_decimalValue_cons]
      by_cases hfits : acc * 10 + (c.toNat - '0'.toNat) ≤ maxNumeral
      · simp only [hfits, if_true, ih _ hfits, List.all_cons, hc, Bool.true_and]
      · have hpos := Nat.le_mul_of_pos_right (acc * 10 + (c.toNat - '0'.toNat))
          (Nat.pow_pos (n := (cs.takeWhile Char.isDigit).length) (show 0 < 10 by decide))
        rw [if_neg (by omega)]
        exact if_neg hfits

def unsigned : List Char → List Char
  | '+' :: cs => cs
  | cs => cs

theorem unsigned_of_digits {digits : List Char} (h : ∀ c ∈ digits, c.isDigit = true) :
    unsigned digits = digits := by
  unfold unsigned
  split
  · simpa using h '+' (List.mem_cons_self ..)
  · rfl

/-- A text denotes a number if it is a row of digits for it, perhaps after a plus sign and perhaps
with zeros in front. -/
def Denotes (text : List Char) (n : Nat) : Prop :=
  ∃ sign digits, (sign = [] ∨ sign = ['+']) ∧ text = sign ++ digits ∧ digits ≠ [] ∧
    (∀ c ∈ digits, c.isDigit = true) ∧ decimalValue digits = n

theorem denotes_iff {text : List Char} {n : Nat} :
    Denotes text n ↔ unsigned text ≠ [] ∧ (∀ c ∈ unsigned text, c.isDigit = true) ∧
      decimalValue (unsigned text) = n := by
  constructor
  · rintro ⟨sign, digits, rfl | rfl, rfl, hne, hdigits, hvalue⟩
    · rw [unsigned_of_digits hdigits]
      exact ⟨hne, hdigits, hvalue⟩
    · exact ⟨hne, hdigits, hvalue⟩
  · intro h
    unfold unsigned at h
    split at h
    case h_1 cs => exact ⟨['+'], cs, .inr rfl, rfl, h⟩
    case h_2 => exact ⟨[], text, .inl rfl, rfl, h⟩

theorem readDigits_zero (cs : List Char) :
    readDigits 0 cs =
      if decimalValue (cs.takeWhile Char.isDigit) < 2 ^ 64 then
        if cs.all Char.isDigit then .ok (decimalValue cs) else .error .invalidDigit
      else .error .tooLarge := by
  rw [readDigits_text _ 0 (Nat.zero_le _), Nat.zero_mul, Nat.zero_add]
  have hfits (n : Nat) : n ≤ maxNumeral ↔ n < 2 ^ 64 := Nat.lt_succ_iff.symm
  simp only [hfits]
  by_cases hdigits : cs.all Char.isDigit = true
  · rw [List.takeWhile_eq_self_iff.2 (List.all_eq_true.1 hdigits)]
  · rw [if_neg hdigits, if_neg hdigits]

/-- Any text but the empty one is read as the number that it denotes if that number fits, and
refused otherwise: as too large if the digits that come first make a number that does not fit, and
else for a character that is no digit. -/
theorem readNumeral_text {text : List Char} (h : text ≠ []) :
    readNumeral text =
      if decimalValue ((unsigned text).takeWhile Char.isDigit) < 2 ^ 64 then
        if !(unsigned text).isEmpty && (unsigned text).all Char.isDigit then
          .ok (decimalValue (unsigned text))
        else .error .invalidDigit
      else .error .tooLarge := by
  unfold readNumeral
  split
  case h_1 => exact absurd rfl h
  case h_2 => simp [unsigned, decimalValue]
  case h_3 digits hne =>
    have hdigits : digits.isEmpty = false := by
      rw [List.isEmpty_eq_false_iff]
      rintro rfl
      exact hne rfl
    simp only [unsigned, readDigits_zero, hdigits, Bool.not_false, Bool.true_and]
  case h_4 hlone hsign =>
    have hunsigned : unsigned text = text := by
      unfold unsigned
      split
      · exact absurd rfl (hsign _)
      · rfl
    simp only [hunsigned, readDigits_zero, List.isEmpty_eq_false_iff.2 h, Bool.not_false,
      Bool.true_and]

/-- A row of digits is read as the number that it denotes, unless that number is too large. -/
theorem readNumeral_eq {digits : List Char} (hne : digits ≠ [])
    (h : ∀ c ∈ digits, c.isDigit = true) :
    readNumeral digits =
      if decimalValue digits < 2 ^ 64 then .ok (decimalValue digits) else .error .tooLarge := by
  simp only [readNumeral_text hne, unsigned_of_digits h, List.takeWhile_eq_self_iff.2 h,
    List.isEmpty_eq_false_iff.2 hne, List.all_eq_true.2 h, Bool.not_false, Bool.true_and, if_true]

theorem ne_nil_of_denotes {text : List Char} {n : Nat} (h : Denotes text n) : text ≠ [] := by
  obtain ⟨hne, -, -⟩ := denotes_iff.1 h
  rintro rfl
  exact hne rfl

theorem readNumeral_of_denotes {text : List Char} {n : Nat} (h : Denotes text n)
    (hfits : n < 2 ^ 64) : readNumeral text = .ok n := by
  obtain ⟨hne, hdigits, rfl⟩ := denotes_iff.1 h
  simp only [readNumeral_text (ne_nil_of_denotes h), List.takeWhile_eq_self_iff.2 hdigits, hfits,
    List.isEmpty_eq_false_iff.2 hne, List.all_eq_true.2 hdigits, Bool.not_false, Bool.true_and,
    if_true]

theorem readNumeral_of_not_denotes {text : List Char} (hne : text ≠ [])
    (h : ∀ n, Denotes text n → 2 ^ 64 ≤ n) :
    readNumeral text = .error
      (if 2 ^ 64 ≤ decimalValue ((unsigned text).takeWhile Char.isDigit) then .tooLarge
      else .invalidDigit) := by
  rw [readNumeral_text hne]
  by_cases hlarge : 2 ^ 64 ≤ decimalValue ((unsigned text).takeWhile Char.isDigit)
  · rw [if_neg (Nat.not_lt.2 hlarge), if_pos hlarge]
  · rw [if_pos (Nat.lt_of_not_le hlarge), if_neg hlarge]
    refine if_neg fun hnumeral => hlarge ?_
    simp only [Bool.and_eq_true, Bool.not_eq_true', List.isEmpty_eq_false_iff,
      List.all_eq_true] at hnumeral
    obtain ⟨hunsigned, hdigits⟩ := hnumeral
    rw [List.takeWhile_eq_self_iff.2 hdigits]
    exact h _ (denotes_iff.2 ⟨hunsigned, hdigits, rfl⟩)

theorem le_of_readDigits {cs : List Char} {acc n : Nat} (h : readDigits acc cs = .ok n)
    (hacc : acc ≤ maxNumeral) : n ≤ maxNumeral := by
  induction cs generalizing acc with
  | nil =>
    cases h
    exact hacc
  | cons c cs ih =>
    rw [readDigits] at h
    split at h
    · cases h
    · split at h
      case isTrue hfits => exact ih h hfits
      case isFalse => cases h

/-- Whatever is read fits. -/
theorem le_of_readNumeral {cs : List Char} {n : Nat} (h : readNumeral cs = .ok n) :
    n ≤ maxNumeral := by
  unfold readNumeral at h
  split at h
  · cases h
  · cases h
  · exact le_of_readDigits h (Nat.zero_le _)
  · exact le_of_readDigits h (Nat.zero_le _)

theorem toNat_of_isDigit {c : Char} (h : c.isDigit = true) :
    c.toNat - '0'.toNat < 10 ∧ c.toNat - '0'.toNat + '0'.toNat = c.toNat := by
  have hc : 48 ≤ c.toNat ∧ c.toNat ≤ 57 := Char.isDigit_iff_toNat.1 h
  have hzero : '0'.toNat = 48 := rfl
  omega

theorem digitChar_sub {c : Char} (h : c.isDigit = true) :
    Nat.digitChar (c.toNat - '0'.toNat) = c := by
  obtain ⟨hlt, hsum⟩ := toNat_of_isDigit h
  apply Char.toNat_inj.1
  rw [Nat.toNat_digitChar_of_lt_ten hlt, Nat.add_comm]
  exact hsum

/-- Digits behind those of a positive number are the digits of the number that they make with
it. -/
theorem toDigits_append (digits : List Char) (h : ∀ c ∈ digits, c.isDigit = true) (acc : Nat)
    (hacc : 0 < acc) :
    Nat.toDigits 10 acc ++ digits =
      Nat.toDigits 10 (acc * 10 ^ digits.length + decimalValue digits) := by
  induction digits generalizing acc with
  | nil => simp [decimalValue]
  | cons c cs ih =>
    have hc : c.isDigit = true := h c (by simp)
    have hdigit : c.toNat - '0'.toNat < 10 := (toNat_of_isDigit hc).1
    have hfirst : Nat.toDigits 10 acc ++ [c] =
        Nat.toDigits 10 (acc * 10 + (c.toNat - '0'.toNat)) := by
      have happend := Nat.toDigits_append_toDigits (show 1 < 10 by decide) hacc hdigit
      rwa [Nat.toDigits_of_lt_base hdigit, digitChar_sub hc, Nat.mul_comm 10 acc] at happend
    rw [add_decimalValue_cons, ← ih (fun x hx => h x (by simp [hx])) _ (by omega), ← hfirst,
      List.append_assoc, List.singleton_append]

/-- A row of digits without a zero in front denotes a positive number, of which they are the
digits. -/
theorem toDigits_decimalValue {c : Char} {cs : List Char} (hc : c.isDigit = true) (hne : c ≠ '0')
    (hcs : ∀ x ∈ cs, x.isDigit = true) :
    0 < decimalValue (c :: cs) ∧ Nat.toDigits 10 (decimalValue (c :: cs)) = c :: cs := by
  obtain ⟨hlt, hsum⟩ := toNat_of_isDigit hc
  have hcode : c.toNat ≠ '0'.toNat := fun h => hne (Char.toNat_inj.1 h)
  have hpos : 0 < c.toNat - '0'.toNat := by omega
  have hdigits := toDigits_append cs hcs _ hpos
  rw [Nat.toDigits_of_lt_base hlt, digitChar_sub hc, ← decimalValue_cons] at hdigits
  refine ⟨?_, hdigits.symm⟩
  rw [decimalValue_cons]
  exact Nat.add_pos_left (Nat.mul_pos hpos (Nat.pow_pos (by decide))) _

end TableLang.Text
