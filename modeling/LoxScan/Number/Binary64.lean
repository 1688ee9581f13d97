/-!
# Binary floating-point numbers

A number of 64 bits is a sign and a code: its exponent and fraction fields read as one natural
number. Codes are in the order of the magnitudes they stand for, infinity comes after the finite
ones, and what follows infinity is not a number. A finite magnitude is a whole number of units of
2⁻¹⁰⁷⁴, so all arithmetic on magnitudes is arithmetic on natural numbers.
-/

namespace LoxScan

/-- A 64-bit floating-point number. -/
structure Binary64 where
  negative : Bool
  code : Nat
  code_lt : code < Nat.pow 2 63
  deriving DecidableEq, Repr

namespace Binary64

/-- The code of infinity. -/
def infinityCode : Nat := 2047 * Nat.pow 2 52

/-- The number with the given 64 bits; higher bits do not count. -/
def ofBits (bits : Nat) : Binary64 :=
  ⟨bits / Nat.pow 2 63 % 2 == 1, bits % Nat.pow 2 63, Nat.mod_lt _ (by decide)⟩

/-- The 64 bits of a number. -/
def toBits (x : Binary64) : Nat :=
  (if x.negative then Nat.pow 2 63 else 0) + x.code

/-- A value that is not a number. -/
def nan : Binary64 := ⟨false, infinityCode + Nat.pow 2 51, by decide⟩

/-- Whether a value is not a number. -/
def isNaN (x : Binary64) : Bool := infinityCode < x.code

/-- Whether a value is a number other than the infinities. -/
def isFinite (x : Binary64) : Bool := x.code < infinityCode

/-- The fraction of a finite number with its leading bit, which only the smallest lack. -/
def significand (x : Binary64) : Nat :=
  if x.code < Nat.pow 2 52 then x.code else x.code % Nat.pow 2 52 + Nat.pow 2 52

/-- The binary exponent, above the smallest one, at which the significand counts. -/
def scale (x : Binary64) : Nat := x.code / Nat.pow 2 52 - 1

/-- The number of units in one. -/
def unitsPerOne : Nat := Nat.pow 2 1074

/-- The magnitude of a finite number, in units. -/
def units (x : Binary64) : Nat := x.significand * Nat.pow 2 x.scale

/-- Whether a finite number has no fraction. -/
def isIntegral (x : Binary64) : Bool := x.units % unitsPerOne == 0

/-- Numeric equality: the two zeros are equal, and what is not a number equals nothing. -/
def numericEq (x y : Binary64) : Bool :=
  !x.isNaN && !y.isNaN && x.code == y.code && (x.negative == y.negative || x.code == 0)

/-- Numeric equality fails to be reflexive exactly at what is not a number. -/
theorem numericEq_self (x : Binary64) : x.numericEq x = !x.isNaN := by
  simp [numericEq]

end Binary64

end LoxScan
