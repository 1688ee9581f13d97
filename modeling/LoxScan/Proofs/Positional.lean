import LoxScan.Number.Layout
import LoxScan.Proofs.Numeral
import LoxScan.Proofs.Rounding

/-!
# Plain notation

A numeral denotes its digits as one number, divided by ten for every digit behind the point, and it
is read as the decimal that is this number.

A decimal in plain notation is a numeral with digits on both sides of a point, and it denotes the
number that was written: zeros behind a whole number count for powers of ten, and a point that is
moved to the left by as many places as there are counts for negative ones.
-/

namespace LoxScan

namespace Digits

/-- Digits that follow digits are a longer run. -/
theorem append {front rest : List Char} (h : Digits front)
    (hrest : ∀ c ∈ rest, c.isDigit = true) : Digits (front ++ rest) := by
  refine ⟨List.append_ne_nil_of_left_ne_nil h.ne_nil rest, fun c hc => ?_⟩
  rcases List.mem_append.1 hc with hc | hc
  · exact h.isDigit c hc
  · exact hrest c hc

/-- The decimal digits of a number are a run. -/
theorem toDigits (n : Nat) : Digits (Nat.toDigits 10 n) :=
  ⟨Nat.toDigits_ne_nil, fun _ => Nat.isDigit_of_mem_toDigits (by decide) (by decide)⟩

end Digits

/-- Zeros are digits. -/
theorem isDigit_of_mem_replicate_zero {count : Nat} {c : Char}
    (h : c ∈ List.replicate count '0') : c.isDigit = true := by
  rw [List.eq_of_mem_replicate h]
  rfl

/-- The number that a numeral denotes: all its digits as one number, and of that a tenth for every
digit behind the point. -/
inductive Denotes : List Char → ℚ → Prop
  | whole {text : List Char} : Digits text → Denotes text (Nat.ofDigitChars 10 text 0)
  | fraction {whole part : List Char} : Digits whole → Digits part →
    Denotes (whole ++ '.' :: part) (Nat.ofDigitChars 10 (whole ++ part) 0 / 10 ^ part.length)

namespace Decimal

/-- Runs of digits are read from left to right. -/
theorem ofDigits_eq (digits : List Char) : ofDigits digits = Nat.ofDigitChars 10 digits 0 := by
  rw [ofDigits, Nat.ofDigitChars]
  simp only [Nat.mul_comm]

/-- A number is read back from its digits, also behind zeros. -/
theorem ofDigits_padded (count n : Nat) :
    ofDigits (List.replicate count '0' ++ Nat.toDigits 10 n) = n := by
  rw [ofDigits_eq, Nat.ofDigitChars_append, Nat.ofDigitChars_replicate_zero, Nat.mul_zero,
    Nat.ofDigitChars_ten_toDigits]

/-- Zeros behind the digits of a number count for powers of ten. -/
theorem ofDigits_append_zeros (n count : Nat) :
    ofDigits (Nat.toDigits 10 n ++ List.replicate count '0') = 10 ^ count * n := by
  rw [ofDigits_eq, Nat.ofDigitChars_append, Nat.ofDigitChars_ten_toDigits,
    Nat.ofDigitChars_replicate_zero]

/-- A run of digits stands for one number. -/
theorem value_whole (digits : List Char) :
    (⟨ofDigits digits, 0⟩ : Decimal).value = Nat.ofDigitChars 10 digits 0 := by
  rw [value, zpow_zero, mul_one, ofDigits_eq]

/-- Places behind the point make it as many tenths. -/
theorem value_point (digits : List Char) (places : Nat) :
    (⟨ofDigits digits, -places⟩ : Decimal).value =
      Nat.ofDigitChars 10 digits 0 / 10 ^ places := by
  rw [value, zpow_neg, zpow_natCast, ← div_eq_mul_inv, ofDigits_eq]

/-- Numerals are read as what they denote. -/
theorem denotes_of_ofNumeral? {text : List Char} {decimal : Decimal}
    (h : ofNumeral? text = some decimal) : Denotes text decimal.value := by
  have hnumeral : Numeral text := numeral_of_ofNumeral?_isSome (h ▸ rfl)
  cases hnumeral with
  | whole hdigits =>
    rw [ofNumeral?_whole hdigits] at h
    cases h
    rw [value_whole]
    exact .whole hdigits
  | fraction hwhole hpart =>
    rw [ofNumeral?_point hwhole hpart] at h
    cases h
    rw [value_point]
    exact .fraction hwhole hpart

/-- What denotes a number is read as it. -/
theorem map_value_ofNumeral? {text : List Char} {exact : ℚ} (h : Denotes text exact) :
    (ofNumeral? text).map value = some exact := by
  cases h with
  | whole hdigits => rw [ofNumeral?_whole hdigits, Option.map_some, value_whole]
  | fraction hwhole hpart => rw [ofNumeral?_point hwhole hpart, Option.map_some, value_point]

/-- No text denotes two numbers. -/
theorem denotes_unique {text : List Char} {first second : ℚ}
    (hfirst : Denotes text first) (hsecond : Denotes text second) : first = second := by
  have hsame := (map_value_ofNumeral? hfirst).symm.trans (map_value_ofNumeral? hsecond)
  exact Option.some_inj.1 hsame

/-- A text with a point between two runs of digits that denotes a value. -/
inductive Spelled (value : ℚ) : List Char → Prop
  | mk {whole part : List Char} : Digits whole → Digits part →
    (⟨ofDigits (whole ++ part), -part.length⟩ : Decimal).value = value →
    Spelled value (whole ++ '.' :: part)

/-- A whole number is written with a zero behind the point. -/
theorem spelled_of_nonneg (coefficient zeros : Nat) :
    Spelled (⟨coefficient, zeros⟩ : Decimal).value (positional ⟨coefficient, zeros⟩) := by
  have hwhole : Digits (Nat.toDigits 10 coefficient ++ List.replicate zeros '0') :=
    (Digits.toDigits coefficient).append fun c => isDigit_of_mem_replicate_zero
  have hpart : Digits ['0'] := ⟨by simp, by simp⟩
  have hpositional : positional ⟨coefficient, zeros⟩ =
      Nat.toDigits 10 coefficient ++ List.replicate zeros '0' ++ '.' :: ['0'] := by
    rw [positional]
    simp
  rw [hpositional]
  refine .mk hwhole hpart ?_
  have hdigits : ofDigits (Nat.toDigits 10 coefficient ++ List.replicate zeros '0' ++ ['0']) =
      10 ^ (zeros + 1) * coefficient := by
    rw [List.append_assoc, ← List.replicate_succ', ofDigits_append_zeros]
  rw [hdigits, value, value, List.length_singleton, Nat.cast_mul, Nat.cast_pow, Nat.cast_ofNat,
    Nat.cast_one, zpow_neg_one, zpow_natCast, pow_succ]
  field_simp

/-- A fraction is written with as many digits behind the point as its exponent says. -/
theorem spelled_of_neg (coefficient : Nat) {places : Nat} (hplaces : 0 < places) :
    Spelled (⟨coefficient, -places⟩ : Decimal).value (positional ⟨coefficient, -places⟩) := by
  let padded := List.replicate (places + 1 - (Nat.toDigits 10 coefficient).length) '0' ++
    Nat.toDigits 10 coefficient
  have hpositional : positional ⟨coefficient, -places⟩ =
      padded.take (padded.length - places) ++ '.' :: padded.drop (padded.length - places) := by
    rw [positional, if_neg (by simp only; omega)]
    simp only [neg_neg, Int.toNat_natCast]
    rfl
  have hpadded : ∀ c ∈ padded, c.isDigit = true := by
    intro c hc
    rcases List.mem_append.1 hc with hc | hc
    · exact isDigit_of_mem_replicate_zero hc
    · exact (Digits.toDigits coefficient).isDigit c hc
  have hlength : places + 1 ≤ padded.length := by
    simp only [padded, List.length_append, List.length_replicate]
    omega
  have hwhole : Digits (padded.take (padded.length - places)) := by
    refine ⟨List.ne_nil_of_length_pos ?_, fun c hc => hpadded c (List.mem_of_mem_take hc)⟩
    rw [List.length_take]
    omega
  have hpartLength : (padded.drop (padded.length - places)).length = places := by
    rw [List.length_drop]
    omega
  have hpart : Digits (padded.drop (padded.length - places)) := by
    refine ⟨List.ne_nil_of_length_pos ?_, fun c hc => hpadded c (List.mem_of_mem_drop hc)⟩
    rwa [hpartLength]
  rw [hpositional]
  refine .mk hwhole hpart ?_
  rw [List.take_append_drop, hpartLength, ofDigits_padded]

/-- Plain notation denotes the number that was written. -/
theorem spelled_positional (decimal : Decimal) : Spelled decimal.value decimal.positional := by
  obtain ⟨coefficient, exponent⟩ := decimal
  rcases Int.lt_or_le exponent 0 with hexponent | hexponent
  · obtain ⟨places, hplaces⟩ := Int.eq_ofNat_of_zero_le (Int.neg_nonneg.2 (Int.le_of_lt hexponent))
    obtain rfl : exponent = -places := by omega
    exact spelled_of_neg coefficient (by omega)
  · obtain ⟨zeros, rfl⟩ := Int.eq_ofNat_of_zero_le hexponent
    exact spelled_of_nonneg coefficient zeros

/-- How long plain notation can get. -/
theorem length_positional_le (decimal : Decimal) :
    decimal.positional.length ≤
      (Nat.toDigits 10 decimal.coefficient).length + decimal.exponent.natAbs + 2 := by
  rw [positional]
  split
  · simp only [List.length_append, List.length_replicate, List.length_cons, List.length_nil]
    omega
  · simp only [List.length_append, List.length_replicate, List.length_cons, List.length_take,
      List.length_drop]
    omega

end Decimal

end LoxScan
