import LoxScan.Number.Shortest

/-!
# Written numbers

Plain notation has digits, a point and digits, whatever the size of the number. Mixed notation is
plain between 10⁻⁴ and 10¹⁶, and has one digit before the point and an exponent outside.
-/

namespace LoxScan

namespace Decimal

/-- Digits with a point among them, and at least one digit on either side of it. -/
def positional (decimal : Decimal) : List Char :=
  let digits := Nat.toDigits 10 decimal.coefficient
  if 0 ≤ decimal.exponent then
    digits ++ List.replicate decimal.exponent.toNat '0' ++ ['.', '0']
  else
    let places := (-decimal.exponent).toNat
    let padded := List.replicate (places + 1 - digits.length) '0' ++ digits
    let whole := padded.length - places
    padded.take whole ++ '.' :: padded.drop whole

/-- One digit, the others after a point if there are others, and the power of ten. -/
def scientific (decimal : Decimal) : List Char :=
  let digits := Nat.toDigits 10 decimal.coefficient
  let power : Int := decimal.exponent + digits.length - 1
  let fraction := digits.drop 1
  digits.take 1 ++ (if fraction.isEmpty then [] else '.' :: fraction) ++
    'e' :: (toString power).toList

end Decimal

namespace Binary64

/-- Writes the sign, and the magnitude of a finite number with `finite`. -/
def written (x : Binary64) (finite : Binary64 → List Char) : String :=
  if x.isNaN then "NaN"
  else
    let magnitude := if x.isFinite then finite x else ['i', 'n', 'f']
    String.ofList (if x.negative then '-' :: magnitude else magnitude)

/-- Plain notation: a number without fraction by all its digits, another by the shortest decimal
that reads back. -/
def plain (x : Binary64) : String :=
  x.written fun x =>
    if x.isIntegral then (Decimal.mk (x.units / unitsPerOne) 0).positional
    else x.shortest.positional

/-- Mixed notation: the shortest decimal that reads back. -/
def mixed (x : Binary64) : String :=
  x.written fun x =>
    if x.code == 0 ||
        (Decimal.nearest ⟨1, -4⟩).code ≤ x.code && x.code < (Decimal.nearest ⟨1, 16⟩).code then
      x.shortest.positional
    else
      x.shortest.scientific

end Binary64

end LoxScan
