import LoxScan.Number.Binary64

/-!
# Rounding to the nearest floating-point number

An exact magnitude is a quotient of natural numbers, counted in units of 2⁻¹⁰⁷⁴. It is rounded to
the nearest number that 53 binary digits can hold, with ties to the even one, and to infinity
beyond the largest.
-/

namespace LoxScan

/-- The natural number nearest to a quotient; of two equally near ones the even one. -/
def roundQuotient (dividend divisor : Nat) : Nat :=
  let below := dividend / divisor
  let rest := dividend % divisor
  if 2 * rest < divisor then below
  else if divisor < 2 * rest then below + 1
  else below + below % 2

/-- The exponent at which a quotient has 53 binary digits before the point, or zero if it has
fewer. -/
def quotientScale (dividend divisor : Nat) : Nat :=
  let guess := dividend.log2 - (divisor.log2 + 52)
  if 0 < guess ∧ dividend < divisor * Nat.pow 2 (guess + 52) then guess - 1 else guess

namespace Binary64

/-- The code of the number nearest to a quotient of units. A significand that rounds up to the
next power of two carries into the exponent field of the sum. -/
def nearestCode (dividend divisor : Nat) : Nat :=
  let scale := quotientScale dividend divisor
  min infinityCode (scale * Nat.pow 2 52 + roundQuotient dividend (divisor * Nat.pow 2 scale))

/-- No quotient is rounded beyond infinity. -/
theorem nearestCode_le (dividend divisor : Nat) :
    nearestCode dividend divisor ≤ infinityCode :=
  Nat.min_le_left _ _

/-- The number nearest to a quotient of units. -/
def nearest (dividend divisor : Nat) : Binary64 :=
  ⟨false, nearestCode dividend divisor,
    Nat.lt_of_le_of_lt (nearestCode_le dividend divisor) (by decide)⟩

/-- Rounding yields a number, infinity included. -/
theorem isNaN_nearest (dividend divisor : Nat) : (nearest dividend divisor).isNaN = false :=
  decide_eq_false (Nat.not_lt.mpr (nearestCode_le dividend divisor))

end Binary64

end LoxScan
