import LoxScan.Number.Shortest
import LoxScan.Proofs.Positional

/-!
# The shortest decimal reads back

Decimals of one value are rounded to one number, so a number is read back from every decimal that
has its magnitude. A decimal on a coarser grid is given for a number only if it was tried and found
to be rounded to the number, and leaving out zeros at its end does not change its value.

Coefficients and exponents of the decimals that are tried are bounded, so a written number is short.
-/

namespace LoxScan

namespace Binary64

/-- A number is what its magnitude is rounded to. -/
theorem rounds_magnitude {x : Binary64} (hx : x.isNaN = false) (hsign : x.negative = false) :
    x.Rounds x.magnitude := by
  refine ⟨hx, hsign, fun y _ => ?_, fun y _ hne hdist => ?_⟩
  · rw [sub_self, abs_zero]
    exact abs_nonneg _
  · rw [sub_self, abs_zero, eq_comm, abs_eq_zero, sub_eq_zero] at hdist
    rcases Nat.lt_or_gt_of_ne hne with hlt | hgt
    · exact absurd hdist (ne_of_lt (magnitude_lt_magnitude hlt))
    · exact absurd hdist (ne_of_gt (magnitude_lt_magnitude hgt))

end Binary64

namespace Decimal

/-- Decimals of one value are rounded to one number. -/
theorem nearest_eq_of_value_eq {left right : Decimal} (h : left.value = right.value) :
    left.nearest = right.nearest := by
  rw [nearest_eq_iff, h]
  exact right.rounds_nearest

/-- A decimal that has the magnitude of a number is rounded to the number. -/
theorem nearest_eq_of_value_eq_magnitude {decimal : Decimal} {x : Binary64} (hx : x.isNaN = false)
    (hsign : x.negative = false) (h : decimal.value = x.magnitude) : decimal.nearest = x := by
  rw [nearest_eq_iff, h]
  exact Binary64.rounds_magnitude hx hsign

/-- The decimal that is given for zero. -/
theorem value_zero : (⟨0, 0⟩ : Decimal).value = 0 := by
  rw [value, Nat.cast_zero, zero_mul]

/-- Zeros at the end of a coefficient do not matter. -/
theorem value_trim (decimal : Decimal) : decimal.trim.value = decimal.value := by
  fun_induction trim decimal with
  | case1 decimal h ih =>
    have hten : decimal.coefficient / 10 * 10 = decimal.coefficient := by omega
    have hcast : (decimal.coefficient : ℚ) = (decimal.coefficient / 10 : Nat) * 10 := by
      exact_mod_cast hten.symm
    rw [ih, value, value, zpow_add_one₀ (by norm_num), hcast, mul_assoc, mul_comm (10 : ℚ)]
  | case2 => rfl

/-- A decimal with at most as many digits as a bound says, and no greater exponent. -/
structure Within (bound : Nat) (decimal : Decimal) : Prop where
  coefficient_lt : decimal.coefficient < 10 ^ bound
  le_exponent : -bound ≤ decimal.exponent
  exponent_le : decimal.exponent ≤ bound

/-- The exponent grows by one for each digit that is left out. -/
theorem exponent_trim {digits : Nat} {decimal : Decimal} (h : decimal.coefficient < 10 ^ digits) :
    decimal.trim.coefficient ≤ decimal.coefficient ∧ decimal.exponent ≤ decimal.trim.exponent ∧
      decimal.trim.exponent ≤ decimal.exponent + digits := by
  fun_induction trim decimal generalizing digits with
  | case1 decimal hzero ih =>
    cases digits with
    | zero => omega
    | succ digits =>
      rw [Nat.pow_succ] at h
      obtain ⟨hcoefficient, hge, hle⟩ := @ih digits (by simp only; omega)
      simp only at hcoefficient hge hle
      omega
  | case2 => omega

/-- Trimming zeros at most doubles the bounds. -/
theorem Within.trim {bound : Nat} {decimal : Decimal} (h : Within bound decimal) :
    Within (2 * bound) decimal.trim := by
  obtain ⟨hcoefficient, hge, hle⟩ := exponent_trim h.coefficient_lt
  have hlow := h.le_exponent
  have hhigh := h.exponent_le
  refine ⟨?_, by omega, by omega⟩
  calc decimal.trim.coefficient ≤ decimal.coefficient := hcoefficient
    _ < 10 ^ bound := h.coefficient_lt
    _ ≤ 10 ^ (2 * bound) := Nat.pow_le_pow_right (by decide) (by omega)

/-- Decimals within bounds are not long in plain notation. -/
theorem Within.length_positional {bound : Nat} {decimal : Decimal} (h : Within bound decimal)
    (hbound : 0 < bound) : decimal.positional.length ≤ 2 * bound + 2 := by
  have hlength := length_positional_le decimal
  have hdigits := (Nat.length_toDigits_le_iff (by decide) hbound).2 h.coefficient_lt
  have hlow := h.le_exponent
  have hhigh := h.exponent_le
  omega

end Decimal

namespace Binary64

variable {x : Binary64}

/-- A power of ten is at least the power of two. -/
theorem two_pow_le_ten_pow (exponent : Nat) : 2 ^ exponent ≤ 10 ^ exponent :=
  Nat.pow_le_pow_left (by decide) exponent

/-- A significand of one bit stands for a power of two. -/
theorem unitsOfCode_two_pow (scale : Nat) :
    unitsOfCode (scale * 2 ^ 52 + 2 ^ 52) = 2 ^ (52 + scale) := by
  rw [unitsOfCode_add (by decide) (Or.inr (Nat.le_refl _)), Nat.pow_add]

/-- Finite numbers have fewer units than infinity would have. -/
theorem exists_units_lt (h : x.isFinite = true) :
    ∃ digits, 0 < digits ∧ digits ≤ 2098 ∧ x.units < 10 ^ digits := by
  have hcode : infinityCode = 2046 * 2 ^ 52 + 2 ^ 52 := rfl
  have htop := unitsOfCode_strictMono (of_decide_eq_true h)
  rw [hcode, unitsOfCode_two_pow, ← units_eq] at htop
  exact ⟨52 + 2046, by decide, by decide, htop.trans_le (two_pow_le_ten_pow _)⟩

/-- Powers of ten add as many digits. -/
theorem length_toDigits_mul_pow_div {units digits : Nat} (zeros divisor : Nat)
    (h : units < 10 ^ digits) (hdigits : 0 < digits) :
    0 < (Nat.toDigits 10 (units * Nat.pow 10 zeros / divisor)).length ∧
      (Nat.toDigits 10 (units * Nat.pow 10 zeros / divisor)).length ≤ digits + zeros := by
  refine ⟨List.length_pos_of_ne_nil Nat.toDigits_ne_nil, ?_⟩
  apply (Nat.length_toDigits_le_iff (by decide) (by omega)).2
  calc units * Nat.pow 10 zeros / divisor ≤ units * 10 ^ zeros := Nat.div_le_self _ _
    _ < 10 ^ digits * 10 ^ zeros := Nat.mul_lt_mul_of_pos_right h (Nat.pow_pos (by decide))
    _ = 10 ^ (digits + zeros) := (Nat.pow_add ..).symm

/-- How many digits a finite number has in front of the point. -/
theorem decimalWidth_bounds (h : x.isFinite = true) :
    -323 ≤ x.decimalWidth ∧ x.decimalWidth ≤ 2098 := by
  obtain ⟨digits, hdigits, hbound, hunits⟩ := exists_units_lt h
  unfold decimalWidth
  generalize hzeros : 324 = zeros
  obtain ⟨hpos, hle⟩ := length_toDigits_mul_pow_div zeros unitsPerOne hunits hdigits
  omega

/-- A neighbour is on the grid of its digits, and is given only if it is rounded to the number. -/
theorem of_neighbour? {count : Nat} {decimal : Decimal}
    (h : x.neighbour? count = some decimal) :
    decimal.nearest.code = x.code ∧ decimal.exponent = x.decimalWidth - count ∧
      decimal.coefficient ≤ x.units * 10 ^ (-(x.decimalWidth - count)).toNat + 1 := by
  unfold neighbour? at h
  dsimp only at h
  have hle := Nat.div_le_self (x.units * Nat.pow 10 (-(x.decimalWidth - count)).toNat)
    (unitsPerOne * Nat.pow 10 (x.decimalWidth - count).toNat)
  split_ifs at h with hbelow habove
  · cases h
    rw [Bool.and_eq_true] at hbelow
    exact ⟨eq_of_beq hbelow.1, rfl, hle.trans (Nat.le_succ _)⟩
  · cases h
    exact ⟨eq_of_beq habove, rfl, Nat.succ_le_succ hle⟩

/-- Neighbours are within bounds. -/
theorem within_of_neighbour? {bound count : Nat} {decimal : Decimal} (hbound : 3200 ≤ bound)
    (hx : x.isFinite = true) (hcount : count ≤ 17) (h : x.neighbour? count = some decimal) :
    decimal.Within bound := by
  obtain ⟨-, hexponent, hcoefficient⟩ := of_neighbour? h
  obtain ⟨hlow, hhigh⟩ := decimalWidth_bounds hx
  obtain ⟨digits, -, hdigits, hunits⟩ := exists_units_lt hx
  have hzeros : (-(x.decimalWidth - count)).toNat ≤ 340 := by omega
  generalize (-(x.decimalWidth - count)).toNat = zeros at *
  refine ⟨?_, by omega, by omega⟩
  calc decimal.coefficient ≤ x.units * 10 ^ zeros + 1 := hcoefficient
    _ ≤ 10 ^ digits * 10 ^ zeros :=
      Nat.mul_lt_mul_of_pos_right hunits (Nat.pow_pos (by decide))
    _ = 10 ^ (digits + zeros) := (Nat.pow_add ..).symm
    _ < 10 ^ bound := Nat.pow_lt_pow_right (by decide) (by omega)

/-- All digits of a number are within bounds. -/
theorem within_exactDecimal {bound : Nat} (hbound : 3200 ≤ bound) (hx : x.isFinite = true) :
    x.exactDecimal.Within bound := by
  obtain ⟨digits, -, hdigits, hunits⟩ := exists_units_lt hx
  have hexponent : x.exactDecimal.exponent = -1074 := rfl
  refine ⟨?_, by omega, by omega⟩
  unfold exactDecimal
  generalize hplaces : 1074 = places
  calc x.units * Nat.pow 5 places < 10 ^ digits * 10 ^ places :=
        Nat.mul_lt_mul_of_lt_of_le hunits (Nat.pow_le_pow_left (by decide) places)
          (Nat.pow_pos (by decide))
    _ = 10 ^ (digits + places) := (Nat.pow_add ..).symm
    _ < 10 ^ bound := Nat.pow_lt_pow_right (by decide) (by omega)

/-- A power of five in as many decimal places is a power of a half. -/
theorem value_mul_five_pow (units places : Nat) :
    (⟨units * Nat.pow 5 places, -places⟩ : Decimal).value = units / (Nat.pow 2 places : Nat) := by
  rw [Decimal.value, zpow_neg, zpow_natCast, Nat.pow_eq, Nat.pow_eq, Nat.cast_mul, Nat.cast_pow,
    Nat.cast_pow, Nat.cast_ofNat, Nat.cast_ofNat, mul_assoc, div_eq_mul_inv]
  congr 1
  rw [← inv_pow, ← inv_pow, ← mul_pow]
  norm_num

/-- All digits of a number denote its magnitude. -/
theorem value_exactDecimal (x : Binary64) : x.exactDecimal.value = x.magnitude := by
  have hcast : (-1074 : Int) = -(1074 : Nat) := rfl
  unfold exactDecimal magnitude unitsPerOne
  rw [hcast]
  generalize 1074 = places
  exact value_mul_five_pow x.units places

/-- Finite numbers are numbers. -/
theorem isNaN_of_isFinite (h : x.isFinite = true) : x.isNaN = false :=
  (isNaN_eq_false_iff x).2 (Nat.le_of_lt (of_decide_eq_true h))

/-- Only zero has the code zero. -/
theorem magnitude_eq_zero (h : x.code = 0) : x.magnitude = 0 := by
  rw [magnitude, units_eq, h, unitsOfCode, if_pos (by decide), Nat.zero_mul,
    Nat.cast_zero, zero_div]

/-- The first decimal that was found, or all digits, is rounded to the number. -/
theorem nearest_found (hx : x.isFinite = true) (hsign : x.negative = false)
    {tried : Option Decimal}
    (htried : tried = (List.range 17).findSome? fun count => x.neighbour? (count + 1)) :
    (tried.getD x.exactDecimal).nearest = x ∧
      ∀ bound, 3200 ≤ bound → (tried.getD x.exactDecimal).Within bound := by
  cases tried with
  | none =>
    exact ⟨Decimal.nearest_eq_of_value_eq_magnitude (isNaN_of_isFinite hx) hsign
      (value_exactDecimal x), fun bound hbound => within_exactDecimal hbound hx⟩
  | some decimal =>
    obtain ⟨count, hcount, hneighbour⟩ := List.exists_of_findSome?_eq_some htried.symm
    have hle : count + 1 ≤ 17 := List.mem_range.1 hcount
    exact ⟨eq_of_code_eq rfl hsign (of_neighbour? hneighbour).1,
      fun bound hbound => within_of_neighbour? hbound hx hle hneighbour⟩

/-- The shortest decimal of a number is rounded to the number, and is not long. -/
theorem nearest_shortest (hx : x.isFinite = true) (hsign : x.negative = false) :
    x.shortest.nearest = x ∧ ∀ bound, 3200 ≤ bound → x.shortest.Within (2 * bound) := by
  rw [shortest]
  split
  · next hcode =>
    exact ⟨Decimal.nearest_eq_of_value_eq_magnitude (isNaN_of_isFinite hx) hsign
      (Decimal.value_zero.trans (magnitude_eq_zero (eq_of_beq hcode)).symm),
      fun bound hbound => ⟨Nat.pow_pos (by decide), by simp only; omega, by simp only; omega⟩⟩
  · obtain ⟨hnearest, hwithin⟩ := nearest_found hx hsign rfl
    exact ⟨(Decimal.nearest_eq_of_value_eq (Decimal.value_trim _)).trans hnearest,
      fun bound hbound => (hwithin bound hbound).trim⟩

end Binary64

end LoxScan
