import LoxScan.Proofs.Shortest
import Mathlib.Algebra.Order.Floor.Semifield
import Mathlib.Data.Rat.Floor
import Mathlib.Tactic.Ring

/-!
# No decimal with fewer digits reads back

The decimals that are rounded to a number have no gaps between them, since what lies between two
values that are rounded to a number is rounded to it too. On the grid of decimals with a given
number of digits it is therefore enough to try the two neighbours of a number: if any decimal of the
grid is rounded to the number, a neighbour is.

A decimal with as many digits on another grid is either on this one as well or is smaller than the
power of ten below the number, which is on the grid. So the first grid with a neighbour that is
rounded to the number has the fewest digits. Seventeen digits are always enough, and of the decimals
with the fewest digits that are rounded to the number none is nearer than the one that is given.
-/

namespace LoxScan

/-- Decimals are not negative. -/
theorem Decimal.value_nonneg (decimal : Decimal) : 0 ≤ decimal.value :=
  mul_nonneg (Nat.cast_nonneg _) (zpow_nonneg (by norm_num) _)

/-- A decimal is nearer to a number than another one, or it is as near and not less. -/
structure Decimal.Nearer (x : Binary64) (decimal other : Decimal) : Prop where
  le : |decimal.value - x.magnitude| ≤ |other.value - x.magnitude|
  value_le : |decimal.value - x.magnitude| = |other.value - x.magnitude| →
    other.value ≤ decimal.value

namespace Binary64

variable {x : Binary64} {left value right : ℚ}

/-! ## Values that are rounded to a number -/

section

variable {low high : ℚ}

/-- The lower of two numbers is the nearer one up to half way between them. -/
theorem abs_low_le_iff (h : low < high) :
    |low - value| ≤ |high - value| ↔ 2 * value ≤ low + high := by
  have hsquares : (high - value) ^ 2 - (low - value) ^ 2 =
      (high - low) * (low + high - 2 * value) := by ring
  rw [← sq_le_sq, ← sub_nonneg, hsquares, mul_nonneg_iff_of_pos_left (sub_pos.2 h), sub_nonneg]

/-- The higher one is from there on. -/
theorem abs_high_le_iff (h : low < high) :
    |high - value| ≤ |low - value| ↔ low + high ≤ 2 * value := by
  have hsquares : (low - value) ^ 2 - (high - value) ^ 2 =
      (high - low) * (2 * value - (low + high)) := by ring
  rw [← sq_le_sq, ← sub_nonneg, hsquares, mul_nonneg_iff_of_pos_left (sub_pos.2 h), sub_nonneg]

end

end Binary64

namespace Decimal.Nearer

variable {x : Binary64} {first second third : Decimal}

/-- Of two decimals that are not above a number the greater one is nearer. -/
theorem of_le (h : second.value ≤ first.value) (hle : first.value ≤ x.magnitude) :
    first.Nearer x second :=
  ⟨abs_le_abs_of_nonpos (by linarith) (by linarith), fun _ => h⟩

/-- Of two that are not below it the lesser one is. -/
theorem of_ge (hge : x.magnitude ≤ first.value) (h : first.value ≤ second.value) :
    first.Nearer x second := by
  refine ⟨abs_le_abs_of_nonneg (by linarith) (by linarith), fun hdist => ?_⟩
  rw [abs_of_nonneg (by linarith), abs_of_nonneg (by linarith)] at hdist
  linarith

/-- One that is not above a number is nearer than one that is, if the number is in the lower half
between them. -/
theorem of_le_of_half (hle : first.value ≤ x.magnitude) (hlt : x.magnitude < second.value)
    (hhalf : 2 * x.magnitude < first.value + second.value) : first.Nearer x second := by
  refine ⟨(Binary64.abs_low_le_iff (hle.trans_lt hlt)).2 hhalf.le, fun hdist => ?_⟩
  have hhigh := (Binary64.abs_high_le_iff (hle.trans_lt hlt)).1 hdist.ge
  exact absurd hhalf (not_lt.2 hhigh)

/-- One that is above a number is nearer than one that is not, if the number is not in the lower
half between them. -/
theorem of_ge_of_half (hle : second.value ≤ x.magnitude) (hlt : x.magnitude < first.value)
    (hhalf : second.value + first.value ≤ 2 * x.magnitude) : first.Nearer x second :=
  ⟨(Binary64.abs_high_le_iff (hle.trans_lt hlt)).2 hhalf, fun _ => (hle.trans_lt hlt).le⟩

/-- What is nearer than a nearer decimal is nearer. -/
theorem trans (h : first.Nearer x second) (hsecond : second.Nearer x third) :
    first.Nearer x third := by
  refine ⟨h.le.trans hsecond.le, fun hdist => ?_⟩
  have heq : |second.value - x.magnitude| = |third.value - x.magnitude| :=
    le_antisymm hsecond.le (hdist ▸ h.le)
  exact (hsecond.value_le heq).trans (h.value_le (hdist.trans heq.symm))

/-- Only the values of decimals count. -/
theorem congr {other following : Decimal} (h : first.Nearer x second)
    (hfirst : first.value = other.value) (hsecond : second.value = following.value) :
    other.Nearer x following := by
  obtain ⟨hle, hvalueLe⟩ := h
  rw [hfirst, hsecond] at hle hvalueLe
  exact ⟨hle, hvalueLe⟩

/-- Decimals that are both nearer than the other have one value. -/
theorem antisymm (h : first.Nearer x second) (hsecond : second.Nearer x first) :
    first.value = second.value := by
  have hdist := le_antisymm h.le hsecond.le
  exact le_antisymm (hsecond.value_le hdist.symm) (h.value_le hdist)

end Decimal.Nearer

namespace Binary64

variable {x : Binary64} {left value right : ℚ}

/-- What lies between two values that are rounded to a number is rounded to it. -/
theorem Rounds.convex (hleft : x.Rounds left) (hright : x.Rounds right) (hle : left ≤ value)
    (hge : value ≤ right) : x.Rounds value := by
  refine ⟨hleft.isNaN, hleft.negative, fun y hy => ?_, fun y hy hne hdist => ?_⟩
  · rcases Nat.lt_trichotomy x.code y.code with hlt | heq | hgt
    · have hnear := (abs_low_le_iff (magnitude_lt_magnitude hlt)).1 (hright.nearest y hy)
      exact (abs_low_le_iff (magnitude_lt_magnitude hlt)).2 (by linarith)
    · rw [magnitude, magnitude, units_eq, units_eq, heq]
    · have hnear := (abs_high_le_iff (magnitude_lt_magnitude hgt)).1 (hleft.nearest y hy)
      exact (abs_high_le_iff (magnitude_lt_magnitude hgt)).2 (by linarith)
  · -- A value half way to another number is the last one that is rounded to this one.
    rcases Nat.lt_or_gt_of_ne hne with hlt | hgt
    · have hlower := magnitude_lt_magnitude hlt
      have hnear := (abs_high_le_iff hlower).1 (hleft.nearest y hy)
      have hhalf := (abs_low_le_iff hlower).1 hdist.ge
      obtain rfl : left = value := by linarith
      exact hleft.even y hy hne hdist
    · have hhigher := magnitude_lt_magnitude hgt
      have hnear := (abs_low_le_iff hhigher).1 (hright.nearest y hy)
      have hhalf := (abs_high_le_iff hhigher).1 hdist.ge
      obtain rfl : value = right := by linarith
      exact hright.even y hy hne hdist

/-- A value that is nearer than half the distance to any other number is rounded to the number. -/
theorem Rounds.of_near (hx : x.isNaN = false) (hsign : x.negative = false)
    (h : ∀ y : Binary64, y.code ≠ x.code →
      2 * |x.magnitude - value| < |y.magnitude - x.magnitude|) : x.Rounds value := by
  have hnearer (y : Binary64) (hne : y.code ≠ x.code) :
      |x.magnitude - value| < |y.magnitude - value| := by
    have hnear := h y hne
    have htriangle := abs_sub_le y.magnitude value x.magnitude
    rw [abs_sub_comm value] at htriangle
    linarith
  refine ⟨hx, hsign, fun y hy => ?_, fun y hy hne hdist => ?_⟩
  · by_cases hcode : y.code = x.code
    · rw [magnitude, magnitude, units_eq, units_eq, hcode]
    · exact le_of_lt (hnearer y hcode)
  · exact absurd hdist (ne_of_lt (hnearer y hne))

/-! ## Distances of numbers -/

/-- The next magnitude is at most as many units of its distance as a significand can count. -/
theorem unitsOfCode_succ_le (code : Nat) :
    unitsOfCode (code + 1) ≤ 2 ^ 53 * (unitsOfCode (code + 1) - unitsOfCode code) := by
  obtain ⟨scale, significand, hcode, hscale, hlt, h⟩ : ∃ scale significand,
      code = scale * 2 ^ 52 + significand ∧ code / 2 ^ 52 - 1 = scale ∧ significand < 2 ^ 53 ∧
        (scale = 0 ∨ 2 ^ 52 ≤ significand) :=
    ⟨code / 2 ^ 52 - 1, code - (code / 2 ^ 52 - 1) * 2 ^ 52, by omega, rfl, by omega, by omega⟩
  have hnext : unitsOfCode (code + 1) = (significand + 1) * 2 ^ scale := by
    rw [hcode, Nat.add_assoc]
    exact unitsOfCode_add hlt (h.imp_right (Nat.le_trans · (Nat.le_succ _)))
  have hdistance : unitsOfCode (code + 1) - unitsOfCode code = 2 ^ scale := by
    rw [unitsOfCode_succ, hscale, Nat.add_sub_cancel_left]
  rw [hdistance, hnext]
  exact Nat.mul_le_mul_right _ hlt

/-- Magnitudes are at most so many times their distances. -/
theorem unitsOfCode_le_mul_dist {code other : Nat} (h : other ≠ code) :
    unitsOfCode code ≤ 2 ^ 53 * Nat.dist (unitsOfCode other) (unitsOfCode code) := by
  rcases Nat.lt_or_gt_of_ne h with hlt | hgt
  · obtain ⟨previous, rfl⟩ : ∃ previous, code = previous + 1 := ⟨code - 1, by omega⟩
    have hle := unitsOfCode_strictMono.monotone (Nat.le_of_lt_succ hlt)
    refine (unitsOfCode_succ_le previous).trans (Nat.mul_le_mul_left _ ?_)
    unfold Nat.dist
    omega
  · have hle : unitsOfCode (code + 1) ≤ unitsOfCode other := unitsOfCode_strictMono.monotone hgt
    have hnext : unitsOfCode code ≤ unitsOfCode (code + 1) :=
      unitsOfCode_strictMono.monotone (Nat.le_succ code)
    refine hnext.trans ((unitsOfCode_succ_le code).trans (Nat.mul_le_mul_left _ ?_))
    unfold Nat.dist
    omega

/-- A number is at most `2 ^ 53` times as great as its distance to another. -/
theorem magnitude_le_mul_abs_sub {x y : Binary64} (h : y.code ≠ x.code) :
    x.magnitude ≤ 2 ^ 53 * |y.magnitude - x.magnitude| := by
  have hone := unitsPerOne_pos
  have hdist : |(y.units : ℚ) - x.units| = Nat.dist y.units x.units := by
    rcases Nat.le_total y.units x.units with hle | hge
    · rw [Nat.dist_eq_sub_of_le hle, Nat.cast_sub hle, abs_sub_comm, abs_of_nonneg]
      exact sub_nonneg.2 (Nat.cast_le.2 hle)
    · rw [Nat.dist_eq_sub_of_le_right hge, Nat.cast_sub hge, abs_of_nonneg]
      exact sub_nonneg.2 (Nat.cast_le.2 hge)
  rw [magnitude, magnitude, ← sub_div, abs_div, abs_of_pos hone, hdist, ← mul_div_assoc]
  apply div_le_div_of_nonneg_right _ (le_of_lt hone)
  exact_mod_cast unitsOfCode_le_mul_dist h

/-! ## Grids -/

/-- Magnitudes are not negative. -/
theorem magnitude_nonneg (x : Binary64) : 0 ≤ x.magnitude :=
  div_nonneg (Nat.cast_nonneg _) (le_of_lt unitsPerOne_pos)

/-- Powers of ten are positive. -/
theorem ten_zpow_pos (exponent : Int) : (0 : ℚ) < 10 ^ exponent :=
  zpow_pos (by norm_num) exponent

/-- Powers of ten are multiplied by adding exponents. -/
theorem ten_pow_mul_zpow (digits : Nat) (exponent : Int) :
    ((10 ^ digits : Nat) : ℚ) * 10 ^ exponent = 10 ^ (digits + exponent) := by
  rw [Nat.cast_pow, Nat.cast_ofNat, ← zpow_natCast, ← zpow_add₀ (by norm_num)]

/-- Only the number with the code zero has no units. -/
theorem units_pos (h : 0 < x.code) : 0 < x.units :=
  Nat.lt_of_lt_of_le h (unitsOfCode_strictMono.le_apply)

/-- The decimal below a number, or equal to it, on the grid of an exponent. -/
def lower (x : Binary64) (exponent : Int) : Decimal :=
  ⟨x.units * Nat.pow 10 (-exponent).toNat / (unitsPerOne * Nat.pow 10 exponent.toNat), exponent⟩

/-- The decimal above a number. -/
def upper (x : Binary64) (exponent : Int) : Decimal :=
  ⟨(x.lower exponent).coefficient + 1, exponent⟩

/-- The quotient of which the lower neighbour is the whole part. -/
theorem dividend_div_divisor (x : Binary64) (exponent : Int) :
    (x.units * Nat.pow 10 (-exponent).toNat : Nat) /
      (unitsPerOne * Nat.pow 10 exponent.toNat : Nat) = x.magnitude / 10 ^ exponent := by
  have hone := unitsPerOne_pos
  rw [Decimal.ten_zpow_eq, magnitude, Nat.cast_mul, Nat.cast_mul, Nat.pow_eq, Nat.pow_eq]
  generalize (unitsPerOne : ℚ) = one at *
  push_cast
  field_simp

/-- The lower neighbour has as many steps of its grid as the number has whole ones. -/
theorem coefficient_lower (x : Binary64) (exponent : Int) :
    (x.lower exponent).coefficient = ⌊x.magnitude / 10 ^ exponent⌋₊ := by
  rw [← dividend_div_divisor, Nat.floor_div_eq_div, lower]

/-- A decimal of a grid is not above a number if it is not above the lower neighbour. -/
theorem le_coefficient_lower_iff (x : Binary64) (exponent : Int) (n : Nat) :
    n ≤ (x.lower exponent).coefficient ↔ n * 10 ^ exponent ≤ x.magnitude := by
  have hpos := ten_zpow_pos exponent
  rw [coefficient_lower, Nat.le_floor_iff (div_nonneg (magnitude_nonneg x) (le_of_lt hpos)),
    le_div_iff₀ hpos]

/-- The lower neighbour is not above the number. -/
theorem value_lower_le (x : Binary64) (exponent : Int) :
    (x.lower exponent).value ≤ x.magnitude :=
  (le_coefficient_lower_iff x exponent _).1 (Nat.le_refl _)

/-- The upper neighbour is above the number. -/
theorem lt_value_upper (x : Binary64) (exponent : Int) :
    x.magnitude < (x.upper exponent).value :=
  lt_of_not_ge (mt (le_coefficient_lower_iff x exponent _).2 (Nat.not_succ_le_self _))

/-- Neighbours are one step of their grid apart. -/
theorem value_upper_sub_value_lower (x : Binary64) (exponent : Int) :
    (x.upper exponent).value - (x.lower exponent).value = 10 ^ exponent := by
  rw [Decimal.value, Decimal.value, upper, Nat.cast_succ, add_mul, one_mul]
  exact add_sub_cancel_left _ _

/-- The digits of a positive number tell the power of ten below it. -/
theorem exists_length_toDigits_eq {n : Nat} (hn : 0 < n) :
    ∃ digits, (Nat.toDigits 10 n).length = digits + 1 ∧ 10 ^ digits ≤ n ∧
      n < 10 ^ (digits + 1) := by
  obtain ⟨digits, hlength⟩ : ∃ digits, (Nat.toDigits 10 n).length = digits + 1 :=
    Nat.exists_eq_add_one.2 (List.length_pos_of_ne_nil Nat.toDigits_ne_nil)
  refine ⟨digits, hlength, ?_, ?_⟩
  · cases digits with
    | zero => exact hn
    | succ digits =>
      rw [← Nat.not_lt, ← Nat.length_toDigits_le_iff (by decide) (Nat.succ_pos digits), hlength]
      exact Nat.not_succ_le_self _
  · exact (Nat.length_toDigits_le_iff (by decide) (Nat.succ_pos digits)).1 (Nat.le_of_eq hlength)

/-- On a grid of fractions the lower neighbour counts units for all its zeros. -/
theorem coefficient_lower_neg (x : Binary64) (zeros : Nat) :
    (x.lower (-zeros)).coefficient = x.units * Nat.pow 10 zeros / unitsPerOne := by
  rw [lower, neg_neg, Int.toNat_natCast, Int.toNat_eq_zero.2 (by omega)]
  simp only [Nat.pow_eq, Nat.pow_zero, Nat.mul_one]

/-- The power of ten below a positive number, and the next one. -/
theorem ten_zpow_decimalWidth (h : 0 < x.code) :
    10 ^ (x.decimalWidth - 1) ≤ x.magnitude ∧ x.magnitude < 10 ^ x.decimalWidth := by
  have hone : 0 < unitsPerOne := Nat.cast_pos.1 unitsPerOne_pos
  have hfit : unitsPerOne ≤ Nat.pow 10 324 := by decide +kernel
  have hcast : (324 : Int) = (324 : Nat) := rfl
  unfold decimalWidth
  rw [hcast]
  generalize (324 : Nat) = zeros at *
  rw [← coefficient_lower_neg]
  have hpos : 0 < (x.lower (-zeros)).coefficient := by
    rw [coefficient_lower_neg]
    exact Nat.div_pos (hfit.trans (Nat.le_mul_of_pos_left _ (units_pos h))) hone
  obtain ⟨digits, hlength, hle, hlt⟩ := exists_length_toDigits_eq hpos
  rw [le_coefficient_lower_iff, ten_pow_mul_zpow] at hle
  rw [← Nat.not_le, le_coefficient_lower_iff, not_le, ten_pow_mul_zpow] at hlt
  have hlow : ((digits + 1 : Nat) - zeros - 1 : Int) = digits + -zeros := by omega
  rw [hlength, hlow, sub_eq_add_neg]
  exact ⟨hle, hlt⟩

/-! ## Neighbours -/

/-- The remainder of a number tells which of its neighbours is nearer. -/
theorem two_mul_rest_lt_iff (x : Binary64) (exponent : Int) :
    2 * (x.units * Nat.pow 10 (-exponent).toNat % (unitsPerOne * Nat.pow 10 exponent.toNat)) <
        unitsPerOne * Nat.pow 10 exponent.toNat ↔
      2 * x.magnitude < (x.lower exponent).value + (x.upper exponent).value := by
  have hquotient := dividend_div_divisor x exponent
  have hone : 0 < unitsPerOne := Nat.cast_pos.1 unitsPerOne_pos
  have hdivisor : 0 < unitsPerOne * Nat.pow 10 exponent.toNat :=
    Nat.mul_pos hone (Nat.pow_pos (by decide))
  unfold upper lower Decimal.value
  dsimp only
  generalize x.units * Nat.pow 10 (-exponent).toNat = dividend at *
  generalize unitsPerOne * Nat.pow 10 exponent.toNat = divisor at *
  have hdiv := Nat.div_add_mod dividend divisor
  have hhalf : 2 * (dividend % divisor) < divisor ↔
      2 * dividend < (dividend / divisor + (dividend / divisor + 1)) * divisor := by
    rw [Nat.add_mul, Nat.succ_mul (dividend / divisor), Nat.mul_comm _ divisor]
    omega
  have hpos : (0 : ℚ) < divisor := Nat.cast_pos.2 hdivisor
  rw [hhalf, ← add_mul, ← div_lt_iff₀ (ten_zpow_pos exponent), mul_div_assoc, ← hquotient,
    ← mul_div_assoc, div_lt_iff₀ hpos]
  exact_mod_cast Iff.rfl

/-- The lower neighbour is given if it is rounded to the number and the upper one is not, or is not
as near. -/
theorem neighbour?_eq (x : Binary64) (count : Nat) {exponent : Int}
    (hexponent : exponent = x.decimalWidth - count) :
    x.neighbour? count =
      if (x.lower exponent).nearest.code = x.code ∧ ((x.upper exponent).nearest.code = x.code →
          2 * x.magnitude < (x.lower exponent).value + (x.upper exponent).value) then
        some (x.lower exponent)
      else if (x.upper exponent).nearest.code = x.code then some (x.upper exponent)
      else none := by
  subst hexponent
  rw [neighbour?]
  simp only [← two_mul_rest_lt_iff, Bool.and_eq_true, Bool.or_eq_true, beq_iff_eq,
    Bool.not_eq_true', beq_eq_false_iff_ne, decide_eq_true_eq, ← imp_iff_not_or]
  rfl

/-- If a decimal of a grid is rounded to a number, a neighbour is given, and no decimal of the grid
that is rounded to the number is nearer. -/
theorem exists_neighbour?_of_exponent_eq {count : Nat} {decimal : Decimal}
    (h : decimal.nearest = x) (hexponent : decimal.exponent = x.decimalWidth - count) :
    ∃ neighbour, x.neighbour? count = some neighbour ∧ neighbour.Nearer x decimal := by
  have hrounds := Decimal.nearest_eq_iff.1 h
  have hmagnitude := rounds_magnitude hrounds.isNaN hrounds.negative
  have hlower := value_lower_le x decimal.exponent
  have hupper := lt_value_upper x decimal.exponent
  rw [neighbour?_eq x count hexponent]
  rcases Nat.lt_or_ge (x.lower decimal.exponent).coefficient decimal.coefficient
    with habove | hbelow
  · have hge : (x.upper decimal.exponent).value ≤ decimal.value :=
      mul_le_mul_of_nonneg_right (Nat.cast_le.2 habove) (ten_zpow_pos _).le
    have hfits := Decimal.nearest_eq_iff.2 (hmagnitude.convex hrounds (le_of_lt hupper) hge)
    rw [hfits]
    split_ifs with hfirst hsecond
    · exact ⟨_, rfl, .of_le_of_half hlower (hupper.trans_le hge) (by linarith [hfirst.2 rfl])⟩
    · exact ⟨_, rfl, .of_ge hupper.le hge⟩
    · exact absurd rfl hsecond
  · have hle : decimal.value ≤ (x.lower decimal.exponent).value :=
      mul_le_mul_of_nonneg_right (Nat.cast_le.2 hbelow) (ten_zpow_pos _).le
    have hfits := Decimal.nearest_eq_iff.2 (hrounds.convex hmagnitude hle hlower)
    rw [hfits]
    split_ifs with hfirst hsecond
    · exact ⟨_, rfl, .of_le hle hlower⟩
    · have hhalf := not_lt.1 fun hlt => hfirst ⟨rfl, fun _ => hlt⟩
      exact ⟨_, rfl, .of_ge_of_half (hle.trans hlower) hupper (by linarith)⟩
    · exact absurd ⟨rfl, fun hcode => absurd hcode hsecond⟩ hfirst

/-- If a decimal with so many digits is rounded to a number, a neighbour is given that is nearer. -/
theorem exists_neighbour?_of_lt {count : Nat} {decimal : Decimal} (hx : 0 < x.code)
    (h : decimal.nearest = x) (hcount : 0 < count) (hlt : decimal.coefficient < 10 ^ count) :
    ∃ neighbour, x.neighbour? count = some neighbour ∧ neighbour.Nearer x decimal := by
  have hrounds := Decimal.nearest_eq_iff.1 h
  have hmagnitude := rounds_magnitude hrounds.isNaN hrounds.negative
  obtain ⟨coefficient, exponent⟩ := decimal
  rcases Int.lt_or_le exponent (x.decimalWidth - count) with hfine | hcoarse
  · -- The power of ten below the number is on the grid and lies between the decimal and the number.
    let power : Decimal := ⟨10 ^ (count - 1), x.decimalWidth - count⟩
    have hpower : power.value = 10 ^ (x.decimalWidth - 1) := by
      have hexponent : (count - 1 : Nat) + (x.decimalWidth - count) = x.decimalWidth - 1 := by omega
      rw [Decimal.value, ten_pow_mul_zpow, hexponent]
    have hle : power.value ≤ x.magnitude := by
      rw [hpower]
      exact (ten_zpow_decimalWidth hx).1
    have hge : (⟨coefficient, exponent⟩ : Decimal).value ≤ power.value := by
      calc (⟨coefficient, exponent⟩ : Decimal).value ≤ (10 ^ count : Nat) * 10 ^ exponent :=
            mul_le_mul_of_nonneg_right (Nat.cast_le.2 (Nat.le_of_lt hlt)) (ten_zpow_pos _).le
        _ = 10 ^ (count + exponent) := ten_pow_mul_zpow count exponent
        _ ≤ 10 ^ (x.decimalWidth - 1) := zpow_le_zpow_right₀ (by norm_num) (by omega)
        _ = power.value := hpower.symm
    obtain ⟨neighbour, hneighbour, hnear⟩ := exists_neighbour?_of_exponent_eq
      (Decimal.nearest_eq_iff.2 (hrounds.convex hmagnitude hge hle)) rfl
    exact ⟨neighbour, hneighbour, hnear.trans (.of_le hge hle)⟩
  · obtain ⟨zeros, hzeros⟩ := Int.eq_ofNat_of_zero_le (Int.sub_nonneg.2 hcoarse)
    have hvalue : (⟨coefficient * 10 ^ zeros, x.decimalWidth - count⟩ : Decimal).value =
        (⟨coefficient, exponent⟩ : Decimal).value := by
      have hexponent : zeros + (x.decimalWidth - count) = exponent := by omega
      rw [Decimal.value, Decimal.value, Nat.cast_mul, mul_assoc, ten_pow_mul_zpow, hexponent]
    obtain ⟨neighbour, hneighbour, hnear⟩ :=
      exists_neighbour?_of_exponent_eq ((Decimal.nearest_eq_of_value_eq hvalue).trans h) rfl
    exact ⟨neighbour, hneighbour, hnear.congr rfl hvalue⟩

/-- What is half a step of the grid of seventeen digits away is rounded to the number. -/
theorem nearest_eq_of_half_step {decimal : Decimal} (hx : x.isNaN = false)
    (hsign : x.negative = false) (hcode : 0 < x.code)
    (hexponent : decimal.exponent = x.decimalWidth - (17 : Nat))
    (h : 2 * |x.magnitude - decimal.value| ≤ 10 ^ decimal.exponent) : decimal.nearest = x := by
  have hmagnitude : ((10 ^ 16 : Nat) : ℚ) * 10 ^ decimal.exponent ≤ x.magnitude := by
    have hwidth : (16 : Nat) + decimal.exponent = x.decimalWidth - 1 := by omega
    rw [ten_pow_mul_zpow, hwidth]
    exact (ten_zpow_decimalWidth hcode).1
  have hpos := ten_zpow_pos decimal.exponent
  refine Decimal.nearest_eq_iff.2 (Rounds.of_near hx hsign fun y hne => ?_)
  -- Another number is more than 10¹⁶ / 2⁵³ steps away.
  have hdist := magnitude_le_mul_abs_sub hne
  have hless : (2 : ℚ) ^ 53 < (10 ^ 16 : Nat) := by norm_num
  by_contra hnear
  have hbound := mul_le_mul_of_nonneg_left ((not_lt.1 hnear).trans h)
    (by norm_num : (0 : ℚ) ≤ 2 ^ 53)
  linarith [mul_lt_mul_of_pos_right hless hpos]

/-- One of the neighbours with seventeen digits is rounded to the number. -/
theorem exists_neighbour?_seventeen (hx : x.isNaN = false) (hsign : x.negative = false)
    (hcode : 0 < x.code) : ∃ neighbour, x.neighbour? 17 = some neighbour := by
  obtain ⟨exponent, hexponent⟩ : ∃ exponent, exponent = x.decimalWidth - (17 : Nat) := ⟨_, rfl⟩
  have hlower := value_lower_le x exponent
  have hupper := lt_value_upper x exponent
  have hstep := value_upper_sub_value_lower x exponent
  have hnearer : ∃ decimal : Decimal, decimal.nearest = x ∧ decimal.exponent = exponent := by
    rcases le_total (2 * x.magnitude) ((x.lower exponent).value + (x.upper exponent).value)
      with hnear | hnear
    · refine ⟨x.lower exponent,
        nearest_eq_of_half_step hx hsign hcode hexponent (le_trans ?_ (le_of_eq hstep)), rfl⟩
      rw [abs_of_nonneg (sub_nonneg.2 hlower)]
      linarith
    · refine ⟨x.upper exponent,
        nearest_eq_of_half_step hx hsign hcode hexponent (le_trans ?_ (le_of_eq hstep)), rfl⟩
      rw [abs_of_neg (sub_neg.2 hupper)]
      linarith
  obtain ⟨decimal, hnearest, hdecimal⟩ := hnearer
  obtain ⟨neighbour, hneighbour, -⟩ :=
    exists_neighbour?_of_exponent_eq hnearest (hdecimal.trans hexponent)
  exact ⟨neighbour, hneighbour⟩

/-- A neighbour has as many digits as its grid says, or is the power of ten that has one more. -/
theorem coefficient_le_of_neighbour? {count : Nat} {neighbour : Decimal} (hcode : 0 < x.code)
    (h : x.neighbour? count = some neighbour) : neighbour.coefficient ≤ 10 ^ count := by
  have hlower : (x.lower (x.decimalWidth - count)).coefficient < 10 ^ count := by
    rw [← Nat.not_le, le_coefficient_lower_iff, not_le, ten_pow_mul_zpow, add_sub_cancel]
    exact (ten_zpow_decimalWidth hcode).2
  rw [neighbour?_eq x count rfl] at h
  split_ifs at h
  · cases h
    exact Nat.le_of_lt hlower
  · cases h
    exact hlower

end Binary64

/-! ## Digits of the shortest decimal -/

namespace Decimal

/-- How many digits a decimal is written with, zeros for its exponent left out. -/
def digitCount (decimal : Decimal) : Nat := (Nat.toDigits 10 decimal.coefficient).length

/-- Every decimal is written with a digit. -/
theorem digitCount_pos (decimal : Decimal) : 0 < decimal.digitCount :=
  List.length_pos_of_ne_nil Nat.toDigits_ne_nil

/-- Digits are counted by powers of ten. -/
theorem digitCount_le_iff {decimal : Decimal} {count : Nat} (hcount : 0 < count) :
    decimal.digitCount ≤ count ↔ decimal.coefficient < 10 ^ count :=
  Nat.length_toDigits_le_iff (by decide) hcount

/-- A coefficient that was trimmed has no zero at its end. -/
theorem coefficient_trim (decimal : Decimal) :
    decimal.trim.coefficient % 10 = 0 → decimal.trim.coefficient = 0 := by
  fun_induction trim decimal with
  | case1 decimal h ih => exact ih
  | case2 decimal h => omega

/-- A power of ten that has one digit too many is trimmed to one digit. -/
theorem coefficient_trim_lt {count : Nat} {decimal : Decimal} (hcount : 0 < count)
    (h : decimal.coefficient ≤ 10 ^ count) : decimal.trim.coefficient < 10 ^ count := by
  have hlt : decimal.coefficient < 10 ^ (count + 1) :=
    Nat.lt_of_le_of_lt h (Nat.pow_lt_pow_succ (by decide))
  have hle := (exponent_trim hlt).1.trans h
  refine Nat.lt_of_le_of_ne hle fun heq => ?_
  have hzero := coefficient_trim decimal
  rw [heq] at hzero
  have hdvd : 10 ∣ 10 ^ count := dvd_pow_self 10 hcount.ne'
  exact absurd (hzero (Nat.mod_eq_zero_of_dvd hdvd)) (Nat.pow_pos (by decide)).ne'

end Decimal

/-- The first number of a range that gives a result. -/
theorem exists_first_of_findSome?_range {α : Type} {give : Nat → Option α} {count : Nat} {found : α}
    (h : (List.range count).findSome? give = some found) :
    ∃ first, first < count ∧ give first = some found ∧ ∀ before, before < first →
      give before = none := by
  induction count with
  | zero => cases h
  | succ count ih =>
    rw [List.range_succ, List.findSome?_append] at h
    cases hfront : (List.range count).findSome? give with
    | some before =>
      rw [hfront] at h
      obtain ⟨first, hlt, hgive, hbefore⟩ := ih (hfront.trans h)
      exact ⟨first, Nat.lt_succ_of_lt hlt, hgive, hbefore⟩
    | none =>
      rw [hfront] at h
      rw [List.findSome?_eq_none_iff] at hfront
      refine ⟨count, Nat.lt_succ_self count, ?_, fun before hlt => hfront _ (List.mem_range.2 hlt)⟩
      simpa using h

namespace Binary64

variable {x : Binary64}

/-- The shortest decimal of zero is zero. -/
theorem shortest_of_code_eq_zero (h : x.code = 0) : x.shortest = ⟨0, 0⟩ := by
  rw [shortest, h]
  rfl

/-- The shortest decimal is the neighbour on the first grid that has one. -/
theorem exists_shortest_eq (hx : x.isNaN = false) (hsign : x.negative = false)
    (hcode : 0 < x.code) :
    ∃ count neighbour, x.neighbour? (count + 1) = some neighbour ∧ x.shortest = neighbour.trim ∧
      ∀ before, before < count → x.neighbour? (before + 1) = none := by
  have hne : (x.code == 0) = false := beq_false_of_ne hcode.ne'
  rw [shortest, hne]
  cases hfound : (List.range 17).findSome? fun count => x.neighbour? (count + 1) with
  | some neighbour =>
    obtain ⟨count, -, hneighbour, hbefore⟩ := exists_first_of_findSome?_range hfound
    exact ⟨count, neighbour, hneighbour, rfl, hbefore⟩
  | none =>
    obtain ⟨neighbour, hneighbour⟩ := exists_neighbour?_seventeen hx hsign hcode
    have hnone := List.findSome?_eq_none_iff.1 hfound 16 (by decide)
    rw [hneighbour] at hnone
    cases hnone

/-- A trimmed neighbour has no more digits than its grid says. -/
theorem digitCount_trim_le {count : Nat} {neighbour : Decimal} (hcode : 0 < x.code)
    (h : x.neighbour? (count + 1) = some neighbour) : neighbour.trim.digitCount ≤ count + 1 := by
  rw [Decimal.digitCount_le_iff (Nat.succ_pos count)]
  exact Decimal.coefficient_trim_lt (Nat.succ_pos count) (coefficient_le_of_neighbour? hcode h)

/-- No decimal that is rounded to a number has fewer digits than the number's shortest one. -/
theorem digitCount_shortest_le (decimal : Decimal) :
    decimal.nearest.shortest.digitCount ≤ decimal.digitCount := by
  have hpos := decimal.digitCount_pos
  have hrounds := decimal.rounds_nearest
  rcases Nat.eq_zero_or_pos decimal.nearest.code with hzero | hcode
  · rw [shortest_of_code_eq_zero hzero]
    exact hpos
  · obtain ⟨count, neighbour, hneighbour, hshortest, hbefore⟩ :=
      exists_shortest_eq hrounds.isNaN hrounds.negative hcode
    rw [hshortest]
    refine (digitCount_trim_le hcode hneighbour).trans (Nat.le_of_not_lt fun hless => ?_)
    -- A grid with fewer digits would have had a neighbour.
    obtain ⟨before, hdigits⟩ := Nat.exists_eq_add_one.2 hpos
    have hlt := (Decimal.digitCount_le_iff hpos).1 (Nat.le_refl _)
    obtain ⟨earlier, hearlier, -⟩ := exists_neighbour?_of_lt hcode rfl hpos hlt
    rw [hdigits, hbefore before (by omega)] at hearlier
    cases hearlier

/-- No decimal with as few digits that is rounded to a number is nearer than the shortest one. -/
theorem shortest_nearer {decimal : Decimal} (h : decimal.nearest = x)
    (hcount : decimal.digitCount ≤ x.shortest.digitCount) : x.shortest.Nearer x decimal := by
  have hrounds := Decimal.nearest_eq_iff.1 h
  rcases Nat.eq_zero_or_pos x.code with hzero | hcode
  · rw [shortest_of_code_eq_zero hzero]
    refine .of_ge ?_ (Decimal.value_zero.trans_le decimal.value_nonneg)
    rw [magnitude_eq_zero hzero, Decimal.value_zero]
  · obtain ⟨count, neighbour, hneighbour, hshortest, -⟩ :=
      exists_shortest_eq hrounds.isNaN hrounds.negative hcode
    rw [hshortest] at hcount
    have hlt := (Decimal.digitCount_le_iff (Nat.succ_pos count)).1
      (hcount.trans (digitCount_trim_le hcode hneighbour))
    obtain ⟨nearer, hnearer, hle⟩ := exists_neighbour?_of_lt hcode h (Nat.succ_pos count) hlt
    obtain rfl := Option.some.inj (hneighbour.symm.trans hnearer)
    rw [hshortest]
    exact hle.congr neighbour.value_trim.symm rfl

end Binary64

end LoxScan
