/-
Decimals as text.

* `Denotes` — the text in positional notation and the fraction that it stands for;
* `Denotes.unique` — a text stands for one fraction at most;
* `Numeral.denotes_text` — the text of a decimal stands for its value.
-/
import Mathlib.Algebra.Order.Ring.Rat
import Mathlib.Tactic.Positivity
import Lox.Decimal.Text
import Lox.Proofs.Lexing.Words

namespace Lox.Decimal

open Token (Digits)

/-- A text in positional notation and the fraction that it stands for. -/
inductive Denotes : List Char → ℚ → Prop
  | integer {whole : List Char} (digits : Digits whole) : Denotes whole (digitsValue whole)
  | decimal {whole fraction : List Char} (digits : Digits whole) (places : Digits fraction) :
    Denotes (whole ++ '.' :: fraction)
      (digitsValue (whole ++ fraction) / 10 ^ fraction.length)

/-- A text stands for one fraction at most. -/
theorem Denotes.unique {text : List Char} {q q' : ℚ} (h : Denotes text q)
    (h' : Denotes text q') : q = q' := by
  -- The fraction can be read off the text: the digits before the first point, and those after.
  have hread : ∀ {q : ℚ}, Denotes text q →
      q = digitsValue (text.takeWhile isDigit ++ (text.dropWhile isDigit).tail) /
        10 ^ (text.dropWhile isDigit).tail.length := by
    intro q h
    cases h with
    | integer digits =>
      rw [List.takeWhile_eq_self_iff.mpr digits.isDigit,
        List.dropWhile_eq_nil_iff.mpr digits.isDigit]
      simp
    | decimal digits places =>
      obtain ⟨htake, hdrop⟩ := digits.takeWhile_append '.' (by decide) _
      rw [htake, hdrop]
      rfl
  rw [hread h, hread h']

/-- A number starts with a digit, and has only digits and a point in it. -/
theorem Denotes.chars {text : List Char} {q : ℚ} (h : Denotes text q) :
    (∃ c cs, text = c :: cs ∧ isDigit c = true) ∧ ∀ c ∈ text, isDigit c = true ∨ c = '.' := by
  have hfirst : ∀ {whole : List Char}, Digits whole → ∃ c cs, whole = c :: cs ∧ isDigit c = true := by
    intro whole digits
    obtain ⟨c, cs, rfl⟩ := List.exists_cons_of_ne_nil digits.ne_nil
    exact ⟨c, cs, rfl, digits.isDigit c List.mem_cons_self⟩
  cases h with
  | integer digits => exact ⟨hfirst digits, fun c hc => .inl (digits.isDigit c hc)⟩
  | @decimal whole fraction digits places =>
    obtain ⟨c, cs, hwhole, hc⟩ := hfirst digits
    refine ⟨⟨c, cs ++ '.' :: fraction, by rw [hwhole]; rfl, hc⟩, fun c hc => ?_⟩
    rcases List.mem_append.mp hc with hc | hc
    · exact .inl (digits.isDigit c hc)
    · rcases List.mem_cons.mp hc with rfl | hc
      · exact .inr rfl
      · exact .inl (places.isDigit c hc)

/-! ### Digits -/

theorem digitsValue_eq (digits : List Char) : digitsValue digits = Nat.ofDigitChars 10 digits 0 :=
  Nat.ofDigitChars_eq_foldl.symm

theorem digitsValue_append (digits more : List Char) :
    digitsValue (digits ++ more) = digitsValue digits * 10 ^ more.length + digitsValue more := by
  rw [digitsValue_eq, Nat.ofDigitChars_append, Nat.ofDigitChars_eq_ofDigitChars_zero,
    ← digitsValue_eq, ← digitsValue_eq, Nat.mul_comm]

theorem digitsValue_zeros (n : Nat) : digitsValue (List.replicate n '0') = 0 := by
  rw [digitsValue_eq, Nat.ofDigitChars_replicate_zero, Nat.mul_zero]

theorem digitsValue_toString (n : Nat) : digitsValue (toString n).toList = n := by
  rw [digitsValue_eq, Nat.toString_eq_ofList_toDigits, String.toList_ofList,
    Nat.ofDigitChars_ten_toDigits]

theorem digits_toString (n : Nat) : Digits (toString n).toList := by
  rw [Nat.toString_eq_ofList_toDigits, String.toList_ofList]
  refine ⟨Nat.toDigits_ne_nil, fun c hc => ?_⟩
  have hdigit := Nat.isDigit_of_mem_toDigits (by decide) (by decide) hc
  simpa [isDigit, Char.isDigit, Char.le_def] using hdigit

theorem length_toString_le {n places : Nat} (hplaces : 0 < places) (h : n < 10 ^ places) :
    (toString n).length ≤ places := by
  rw [Nat.toString_eq_ofList_toDigits, String.length_ofList]
  exact (Nat.length_toDigits_le_iff (by decide) hplaces).mpr h

/-! ### Fractions -/

/-- With its zeros, a fraction has as many digits as there are places. -/
theorem padZeros_fraction {n places : Nat} (hplaces : 0 < places) (h : n < 10 ^ places) :
    (padZeros places (toString n)).toList.length = places ∧
      (∀ c ∈ (padZeros places (toString n)).toList, isDigit c = true) ∧
        digitsValue (padZeros places (toString n)).toList = n := by
  have hlength := length_toString_le hplaces h
  rw [padZeros, String.toList_append, String.toList_ofList]
  refine ⟨?_, fun c hc => ?_, ?_⟩
  · rw [List.length_append, List.length_replicate, String.length_toList]
    omega
  · rcases List.mem_append.mp hc with hc | hc
    · rw [List.eq_of_mem_replicate hc]
      rfl
    · exact (digits_toString n).isDigit c hc
  · rw [digitsValue_append, digitsValue_zeros, digitsValue_toString, Nat.zero_mul, Nat.zero_add]

/-- Only zeros are dropped at the end. -/
theorem dropEndZeros_append (s : String) :
    ∃ zeros, s.toList = (dropEndZeros s).toList ++ List.replicate zeros '0' := by
  let isZero (c : Char) : Bool := decide (c = '0')
  let ending := s.toList.reverse.takeWhile isZero
  have hending : ending = List.replicate ending.length '0' := by
    refine List.eq_replicate_of_mem fun c hc => ?_
    have hzero : isZero c = true := List.mem_takeWhile_imp hc
    exact of_decide_eq_true hzero
  refine ⟨ending.length, ?_⟩
  rw [dropEndZeros, String.toList_ofList, ← List.reverse_replicate, ← hending,
    ← List.reverse_append, List.takeWhile_append_dropWhile, List.reverse_reverse]

/-- The digits before and after the point, read as one number, are the coefficient but for
the zeros that are dropped. -/
theorem fraction_value (coefficient : Nat) {places : Nat} (hplaces : 0 < places)
    {fraction : List Char}
    (hfraction : fraction = (dropEndZeros (padZeros places
      (toString (coefficient % 10 ^ places)))).toList) :
    (∀ c ∈ fraction, isDigit c = true) ∧ (coefficient : ℚ) / 10 ^ places =
      digitsValue ((toString (coefficient / 10 ^ places)).toList ++ fraction) /
        10 ^ fraction.length := by
  have hless : coefficient % 10 ^ places < 10 ^ places := Nat.mod_lt _ (Nat.pow_pos (by decide))
  obtain ⟨hlength, hdigits, hvalue⟩ := padZeros_fraction hplaces hless
  obtain ⟨zeros, hzeros⟩ :=
    dropEndZeros_append (padZeros places (toString (coefficient % 10 ^ places)))
  rw [← hfraction] at hzeros
  rw [hzeros] at hlength hdigits hvalue
  rw [List.length_append, List.length_replicate] at hlength
  rw [digitsValue_append, digitsValue_zeros, List.length_replicate, Nat.add_zero] at hvalue
  refine ⟨fun c hc => hdigits c (List.mem_append_left _ hc), ?_⟩
  -- The dropped zeros put back, these are the digits of the coefficient.
  have hcoefficient : digitsValue ((toString (coefficient / 10 ^ places)).toList ++ fraction) *
      10 ^ zeros = coefficient := by
    rw [digitsValue_append, digitsValue_toString, Nat.add_mul, hvalue, Nat.mul_assoc, ← Nat.pow_add,
      hlength, Nat.div_add_mod']
  have hcast : (digitsValue ((toString (coefficient / 10 ^ places)).toList ++ fraction) : ℚ) *
      10 ^ zeros = coefficient := by exact_mod_cast hcoefficient
  have hpower : (10 : ℚ) ^ places = 10 ^ fraction.length * 10 ^ zeros := by rw [← pow_add, hlength]
  rw [← hcast, hpower, mul_div_mul_right _ _ (by positivity)]

/-! ### Decimals -/

/-- The value of a decimal. -/
def Numeral.value (n : Numeral) : ℚ :=
  n.coefficient / 10 ^ n.places

/-- The text of a decimal stands for its value. -/
theorem Numeral.denotes_text (n : Numeral) : Denotes n.text.toList n.value := by
  obtain ⟨coefficient, places⟩ := n
  unfold text value
  simp only [Nat.pow_eq]
  split
  · rename_i hplaces
    -- No places: the coefficient with zeros behind it.
    obtain ⟨zeros, rfl⟩ := Int.exists_eq_neg_ofNat hplaces
    have hvalue : (coefficient : ℚ) / 10 ^ (-(zeros : ℤ)) =
        digitsValue (toString (coefficient * 10 ^ (- -(zeros : ℤ)).toNat)).toList := by
      rw [digitsValue_toString, neg_neg, Int.toNat_natCast, zpow_neg, zpow_natCast, div_inv_eq_mul]
      push_cast
      rfl
    rw [hvalue]
    exact .integer (digits_toString _)
  · rename_i hplaces
    obtain ⟨places, rfl⟩ := Int.eq_ofNat_of_zero_le (Int.le_of_lt (Int.not_le.mp hplaces))
    have hpositive : 0 < places := by omega
    rw [Int.toNat_natCast, zpow_natCast]
    obtain ⟨hdigits, hvalue⟩ := fraction_value coefficient hpositive rfl
    rw [hvalue]
    split
    · rename_i hfraction
      rw [hfraction, String.toList_empty, List.append_nil, List.length_nil, pow_zero, div_one]
      exact .integer (digits_toString _)
    · rename_i hfraction
      rw [String.toList_append, String.toList_append, List.append_assoc]
      exact .decimal (digits_toString _)
        ⟨fun hnil => hfraction (String.toList_eq_nil_iff.mp hnil), hdigits⟩

end Lox.Decimal
