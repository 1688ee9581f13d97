import LoxScan.Number.Decimal

/-!
# The shortest decimal that reads back

For a growing count of digits, the two neighbours of a number on the grid of decimals with that
many digits are tried. The first grid with a neighbour that rounds back to the number wins, then
the nearer neighbour, and of two equally near ones the larger. Every answer therefore rounds back
to the number; a number without such a neighbour is given by all its digits.
-/

namespace LoxScan.Binary64

/-- The exponent of the smallest power of ten above a positive finite number. Every such number,
times 10³²⁴, is at least one. -/
def decimalWidth (x : Binary64) : Int :=
  (Nat.toDigits 10 (x.units * Nat.pow 10 324 / unitsPerOne)).length - 324

/-- All the digits of a finite number: one unit is 5¹⁰⁷⁴ · 10⁻¹⁰⁷⁴. -/
def exactDecimal (x : Binary64) : Decimal := ⟨x.units * Nat.pow 5 1074, -1074⟩

/-- The neighbour with `count` digits that rounds back to the number, if there is one. -/
def neighbour? (x : Binary64) (count : Nat) : Option Decimal :=
  let exponent := x.decimalWidth - count
  let dividend := x.units * Nat.pow 10 (-exponent).toNat
  let divisor := unitsPerOne * Nat.pow 10 exponent.toNat
  let below : Decimal := ⟨dividend / divisor, exponent⟩
  let above : Decimal := ⟨dividend / divisor + 1, exponent⟩
  let belowFits := below.nearest.code == x.code
  let aboveFits := above.nearest.code == x.code
  if belowFits && (!aboveFits || 2 * (dividend % divisor) < divisor) then some below
  else if aboveFits then some above
  else none

/-- The shortest decimal that rounds to the magnitude of a finite number. -/
def shortest (x : Binary64) : Decimal :=
  if x.code == 0 then ⟨0, 0⟩
  else
    (((List.range 17).findSome? fun count => x.neighbour? (count + 1)).getD x.exactDecimal).trim

end LoxScan.Binary64
