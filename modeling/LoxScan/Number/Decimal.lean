import LoxScan.Number.Rounding

/-!
# Decimals and numerals

A decimal is a natural coefficient times a power of ten. A numeral is a run of digits, or two runs
with a point between them; it denotes a decimal exactly, and the decimal is rounded once.
-/

namespace LoxScan

/-- The number `coefficient · 10 ^ exponent`. -/
structure Decimal where
  coefficient : Nat
  exponent : Int
  deriving DecidableEq, Repr

namespace Decimal

/-- The value of a run of decimal digits. -/
def ofDigits (digits : List Char) : Nat :=
  digits.foldl (fun value digit => value * 10 + (digit.toNat - '0'.toNat)) 0

/-- The decimal that a numeral denotes. -/
def ofNumeral? (text : List Char) : Option Decimal :=
  let whole := text.takeWhile Char.isDigit
  if whole.isEmpty then none
  else
    match text.dropWhile Char.isDigit with
    | [] => some ⟨ofDigits whole, 0⟩
    | '.' :: fraction =>
      if !fraction.isEmpty && fraction.all Char.isDigit then
        some ⟨ofDigits (whole ++ fraction), -fraction.length⟩
      else
        none
    | _ => none

/-- The floating-point number nearest to a decimal. -/
def nearest (decimal : Decimal) : Binary64 :=
  Binary64.nearest
    (decimal.coefficient * Nat.pow 10 decimal.exponent.toNat * Binary64.unitsPerOne)
    (Nat.pow 10 (-decimal.exponent).toNat)

/-- The same number with no zero at the end of its coefficient. -/
def trim (decimal : Decimal) : Decimal :=
  if 0 < decimal.coefficient ∧ decimal.coefficient % 10 = 0 then
    trim ⟨decimal.coefficient / 10, decimal.exponent + 1⟩
  else
    decimal
termination_by decimal.coefficient
decreasing_by exact Nat.div_lt_self (by omega) (by omega)

end Decimal

end LoxScan
