import LoxScan.Number.Decimal
import Mathlib.Data.Nat.Dist
import Mathlib.Order.Monotone.Basic
import Mathlib.Algebra.Order.Field.Rat
import Mathlib.Tactic.FieldSimp
import Mathlib.Tactic.Linarith
import Mathlib.Tactic.Positivity

/-!
# Rounding is correct

The number that a quotient is rounded to is the nearest there is, and the even one of two that are
equally near. Infinity counts as the power of two behind the finite magnitudes, so what is nearer
to that than to the largest finite number is rounded to infinity.

Distances are compared in units multiplied by the divisor, where they are natural numbers.
-/

namespace LoxScan

section

variable {dividend divisor : Nat}

/-- A quotient is rounded to the whole number below or to the next one. -/
theorem roundQuotient_cases (dividend divisor : Nat) :
    roundQuotient dividend divisor = dividend / divisor ∨
      roundQuotient dividend divisor = dividend / divisor + 1 := by
  unfold roundQuotient
  dsimp only
  split_ifs <;> omega

/-- A rounded quotient is at most half a unit off, and even if it is off by half a unit. -/
theorem two_mul_dist_roundQuotient_le (dividend : Nat) (hdivisor : 0 < divisor) :
    2 * Nat.dist (roundQuotient dividend divisor * divisor) dividend ≤ divisor ∧
      (2 * Nat.dist (roundQuotient dividend divisor * divisor) dividend = divisor →
        roundQuotient dividend divisor % 2 = 0) := by
  have hdiv : dividend / divisor * divisor + dividend % divisor = dividend := by
    rw [Nat.mul_comm]
    exact Nat.div_add_mod dividend divisor
  have hrest := Nat.mod_lt dividend hdivisor
  have hnext (below : Nat) : (below + 1) * divisor = below * divisor + divisor :=
    Nat.succ_mul below divisor
  unfold roundQuotient
  dsimp only
  generalize dividend / divisor = below at *
  generalize dividend % divisor = rest at *
  unfold Nat.dist
  split_ifs with hless hmore
  · omega
  · rw [hnext]
    omega
  · rcases Nat.mod_two_eq_zero_or_one below with heven | hodd
    · rw [heven, Nat.add_zero]
      omega
    · rw [hodd, hnext]
      omega

/-- At its scale a quotient has at most 53 binary digits before the point. -/
theorem lt_quotientScale (dividend : Nat) (hdivisor : 0 < divisor) :
    dividend < divisor * 2 ^ (quotientScale dividend divisor + 53) := by
  have hdividend := dividend.lt_log2_self
  have hlog := Nat.log2_self_le hdivisor.ne'
  unfold quotientScale
  dsimp only
  generalize dividend.log2 = upper at *
  generalize divisor.log2 = lower at *
  split_ifs with hguess
  · have hscale : upper - (lower + 52) - 1 + 53 = upper - (lower + 52) + 52 := by omega
    rw [hscale]
    exact hguess.2
  · calc dividend < 2 ^ (upper + 1) := hdividend
      _ ≤ 2 ^ (lower + (upper - (lower + 52) + 53)) := Nat.pow_le_pow_right (by decide) (by omega)
      _ = 2 ^ lower * 2 ^ (upper - (lower + 52) + 53) := Nat.pow_add ..
      _ ≤ divisor * 2 ^ (upper - (lower + 52) + 53) := Nat.mul_le_mul_right _ hlog

/-- It has as many if the scale is not zero. -/
theorem quotientScale_le (hscale : quotientScale dividend divisor ≠ 0) :
    divisor * 2 ^ (quotientScale dividend divisor + 52) ≤ dividend := by
  have hdivisor := divisor.lt_log2_self
  have hlog : dividend ≠ 0 → 2 ^ dividend.log2 ≤ dividend := Nat.log2_self_le
  have hzero : dividend = 0 → dividend.log2 = 0 := by
    rintro rfl
    rfl
  revert hscale
  unfold quotientScale
  dsimp only
  generalize dividend.log2 = upper at *
  generalize divisor.log2 = lower at *
  split_ifs with hguess
  · intro _
    calc divisor * 2 ^ (upper - (lower + 52) - 1 + 52)
        ≤ 2 ^ (lower + 1) * 2 ^ (upper - (lower + 52) - 1 + 52) :=
          Nat.mul_le_mul_right _ (Nat.le_of_lt hdivisor)
      _ = 2 ^ (lower + 1 + (upper - (lower + 52) - 1 + 52)) := (Nat.pow_add ..).symm
      _ = 2 ^ upper := by congr 1; omega
      _ ≤ dividend := hlog (by omega)
  · intro hscale
    exact Nat.le_of_not_lt fun hlt => hguess ⟨Nat.pos_of_ne_zero hscale, hlt⟩

/-- The quotient at its scale is a significand. -/
theorem div_lt_two_pow (dividend : Nat) (hdivisor : 0 < divisor) :
    dividend / (divisor * 2 ^ quotientScale dividend divisor) < 2 ^ 53 := by
  have hbound := lt_quotientScale dividend hdivisor
  rw [Nat.pow_add, ← Nat.mul_assoc] at hbound
  exact Nat.div_lt_of_lt_mul hbound

/-- It has its leading bit if the scale is not zero. -/
theorem two_pow_le_div (dividend : Nat) (hdivisor : 0 < divisor)
    (hscale : quotientScale dividend divisor ≠ 0) :
    2 ^ 52 ≤ dividend / (divisor * 2 ^ quotientScale dividend divisor) := by
  have hbound := quotientScale_le hscale
  rw [Nat.pow_add, ← Nat.mul_assoc, Nat.mul_comm] at hbound
  exact (Nat.le_div_iff_mul_le (Nat.mul_pos hdivisor (Nat.two_pow_pos _))).2 hbound

end

namespace Binary64

/-- The units of the magnitude with a code. -/
def unitsOfCode (code : Nat) : Nat :=
  (if code < Nat.pow 2 52 then code else code % Nat.pow 2 52 + Nat.pow 2 52) *
    Nat.pow 2 (code / Nat.pow 2 52 - 1)

/-- The units of a number are those of its code. -/
theorem units_eq (x : Binary64) : x.units = unitsOfCode x.code := rfl

/-- A significand is counted at its scale, also if it has carried into the exponent field. -/
theorem unitsOfCode_add {scale significand : Nat} (hle : significand ≤ 2 ^ 53)
    (h : scale = 0 ∨ 2 ^ 52 ≤ significand) :
    unitsOfCode (scale * 2 ^ 52 + significand) = significand * 2 ^ scale := by
  unfold unitsOfCode
  simp only [Nat.pow_eq]
  rcases Nat.lt_or_ge significand (2 ^ 52) with hsmall | hlarge
  · have hscale : scale = 0 := by omega
    have hquotient : (scale * 2 ^ 52 + significand) / 2 ^ 52 - 1 = scale := by omega
    rw [hquotient, if_pos (by omega), hscale]
    omega
  · rw [if_neg (by omega)]
    rcases Nat.lt_or_eq_of_le hle with hless | rfl
    · have hquotient : (scale * 2 ^ 52 + significand) / 2 ^ 52 - 1 = scale := by omega
      have hrest : (scale * 2 ^ 52 + significand) % 2 ^ 52 + 2 ^ 52 = significand := by omega
      rw [hquotient, hrest]
    · have hquotient : (scale * 2 ^ 52 + 2 ^ 53) / 2 ^ 52 - 1 = scale + 1 := by omega
      have hrest : (scale * 2 ^ 52 + 2 ^ 53) % 2 ^ 52 + 2 ^ 52 = 2 ^ 52 := by omega
      rw [hquotient, hrest, Nat.pow_succ]
      omega

/-- The next magnitude is one more at the scale of a code. -/
theorem unitsOfCode_succ (code : Nat) :
    unitsOfCode (code + 1) = unitsOfCode code + 2 ^ (code / 2 ^ 52 - 1) := by
  -- The significand stays below its bound, so one more is counted at the same scale.
  obtain ⟨scale, significand, hcode, hscale, hlt, h⟩ : ∃ scale significand,
      code = scale * 2 ^ 52 + significand ∧ code / 2 ^ 52 - 1 = scale ∧ significand < 2 ^ 53 ∧
        (scale = 0 ∨ 2 ^ 52 ≤ significand) :=
    ⟨code / 2 ^ 52 - 1, code - (code / 2 ^ 52 - 1) * 2 ^ 52, by omega, rfl, by omega, by omega⟩
  rw [hscale, hcode, Nat.add_assoc, unitsOfCode_add (Nat.le_of_lt hlt) h,
    unitsOfCode_add hlt (h.imp_right (Nat.le_trans · (Nat.le_succ _))), Nat.succ_mul]

/-- Codes are in the order of their magnitudes. -/
theorem unitsOfCode_strictMono : StrictMono unitsOfCode := by
  apply strictMono_nat_of_lt_succ
  intro code
  rw [unitsOfCode_succ]
  exact Nat.lt_add_of_pos_right (Nat.two_pow_pos _)

/-- How far a magnitude is off a quotient of units, times the divisor. -/
def deviation (dividend divisor code : Nat) : Nat :=
  Nat.dist (unitsOfCode code * divisor) dividend

/-- A code whose magnitude is nearer to a quotient of units than that of another code, or as near
and even. -/
def Preferred (dividend divisor code other : Nat) : Prop :=
  deviation dividend divisor code < deviation dividend divisor other ∨
    deviation dividend divisor code = deviation dividend divisor other ∧ code % 2 = 0

section

variable {dividend divisor scale code other : Nat}

/-- Magnitudes of greater codes are at least a unit of the scale away. -/
theorem unitsOfCode_add_le (hlt : code < other) (h : scale = 0 ∨ (scale + 1) * 2 ^ 52 ≤ code) :
    unitsOfCode code + 2 ^ scale ≤ unitsOfCode other := by
  have hscale : scale ≤ code / 2 ^ 52 - 1 := by omega
  calc unitsOfCode code + 2 ^ scale ≤ unitsOfCode code + 2 ^ (code / 2 ^ 52 - 1) :=
        Nat.add_le_add_left (Nat.pow_le_pow_right (by decide) hscale) _
    _ = unitsOfCode (code + 1) := (unitsOfCode_succ code).symm
    _ ≤ unitsOfCode other := unitsOfCode_strictMono.monotone hlt

/-- So are those of smaller codes, unless the code is the first of its scale. -/
theorem unitsOfCode_add_le_of_gt (hlt : other < code)
    (h : scale = 0 ∨ (scale + 1) * 2 ^ 52 < code) :
    unitsOfCode other + 2 ^ scale ≤ unitsOfCode code := by
  have hprevious : unitsOfCode other ≤ unitsOfCode (code - 1) :=
    unitsOfCode_strictMono.monotone (by omega)
  exact (Nat.add_le_add_right hprevious _).trans (unitsOfCode_add_le (by omega) (by omega))

namespace Preferred

/-- What is at most half a unit off is nearer than what is a unit away, or as near. -/
theorem of_gap (hnear : 2 * deviation dividend divisor code ≤ divisor * 2 ^ scale)
    (heven : 2 * deviation dividend divisor code = divisor * 2 ^ scale → code % 2 = 0)
    (hgap : unitsOfCode code + 2 ^ scale ≤ unitsOfCode other ∨
      unitsOfCode other + 2 ^ scale ≤ unitsOfCode code) :
    Preferred dividend divisor code other := by
  have hscaled := hgap.imp (Nat.mul_le_mul_right divisor) (Nat.mul_le_mul_right divisor)
  rw [Nat.add_mul, Nat.add_mul, Nat.mul_comm (2 ^ scale)] at hscaled
  unfold Preferred
  unfold deviation Nat.dist at *
  omega

/-- What is below a quotient is nearer than what is further below. -/
theorem of_lt (hdivisor : 0 < divisor) (hlt : other < code)
    (hle : unitsOfCode code * divisor ≤ dividend) : Preferred dividend divisor code other := by
  have hscaled := Nat.mul_lt_mul_of_pos_right (unitsOfCode_strictMono hlt) hdivisor
  unfold Preferred deviation Nat.dist
  omega

end Preferred

/-- The code of a rounded quotient is preferred to all others. -/
theorem preferred_of_roundQuotient (hdivisor : 0 < divisor)
    (hscale : scale = quotientScale dividend divisor)
    (hcode : code = scale * 2 ^ 52 + roundQuotient dividend (divisor * 2 ^ scale))
    (hother : other ≠ code) : Preferred dividend divisor code other := by
  have hlt := div_lt_two_pow dividend hdivisor
  have hge := two_pow_le_div dividend hdivisor
  rw [← hscale] at hlt hge
  have hbelow := Nat.div_mul_le_self dividend (divisor * 2 ^ scale)
  have hcases := roundQuotient_cases dividend (divisor * 2 ^ scale)
  obtain ⟨hnear, heven⟩ :=
    two_mul_dist_roundQuotient_le dividend (Nat.mul_pos hdivisor (Nat.two_pow_pos scale))
  generalize roundQuotient dividend (divisor * 2 ^ scale) = rounded at *
  generalize dividend / (divisor * 2 ^ scale) = quotient at *
  have hunits : rounded * (divisor * 2 ^ scale) = unitsOfCode code * divisor := by
    rw [hcode, unitsOfCode_add (by omega) (by omega), Nat.mul_assoc, Nat.mul_comm (2 ^ scale)]
  rw [hunits, ← deviation] at hnear heven
  have hparity : rounded % 2 = 0 → code % 2 = 0 := by omega
  rcases Nat.lt_or_gt_of_ne hother with hless | hmore
  · by_cases hinner : scale = 0 ∨ 2 ^ 52 < rounded
    · exact .of_gap hnear (hparity ∘ heven) (Or.inr (unitsOfCode_add_le_of_gt hless (by omega)))
    · -- Magnitudes below a power of two are half a unit apart, but the quotient is not below it.
      have hquotient : quotient = rounded := by omega
      rw [hquotient, hunits] at hbelow
      exact .of_lt hdivisor hless hbelow
  · exact .of_gap hnear (hparity ∘ heven) (Or.inl (unitsOfCode_add_le hmore (by omega)))

/-- The code that a quotient is rounded to is preferred to all others up to that of infinity. -/
theorem preferred_nearestCode (hdivisor : 0 < divisor) (hle : other ≤ infinityCode)
    (hother : other ≠ nearestCode dividend divisor) :
    Preferred dividend divisor (nearestCode dividend divisor) other := by
  have hpreferred (other : Nat) :=
    @preferred_of_roundQuotient dividend divisor _ _ other hdivisor rfl rfl
  unfold nearestCode at hother ⊢
  dsimp only at hother ⊢
  simp only [Nat.pow_eq] at hother ⊢
  generalize quotientScale dividend divisor * 2 ^ 52 + roundQuotient dividend
    (divisor * 2 ^ quotientScale dividend divisor) = code at *
  rcases Nat.lt_or_ge infinityCode code with hbeyond | hinside
  · -- What is nearer to a code beyond infinity is beyond infinity itself.
    rw [Nat.min_eq_left (Nat.le_of_lt hbeyond)] at hother ⊢
    have hinfinity := hpreferred infinityCode (Nat.ne_of_lt hbeyond)
    have hbelow : unitsOfCode other < unitsOfCode infinityCode :=
      unitsOfCode_strictMono (Nat.lt_of_le_of_ne hle hother)
    have hltBelow := Nat.mul_lt_mul_of_pos_right hbelow hdivisor
    have hltBeyond := Nat.mul_lt_mul_of_pos_right (unitsOfCode_strictMono hbeyond) hdivisor
    unfold Preferred deviation Nat.dist at *
    omega
  · rw [Nat.min_eq_right hinside] at hother ⊢
    exact hpreferred other hother

end

/-- The magnitude of a number, its sign left out. That of infinity is the power of two behind the
finite ones. -/
def magnitude (x : Binary64) : ℚ := x.units / unitsPerOne

/-- A number is what a value is rounded to: no number is nearer, and of two that are equally near
it is the even one. -/
structure Rounds (x : Binary64) (value : ℚ) : Prop where
  isNaN : x.isNaN = false
  negative : x.negative = false
  nearest : ∀ y : Binary64, y.isNaN = false → |x.magnitude - value| ≤ |y.magnitude - value|
  even : ∀ y : Binary64, y.isNaN = false → y.code ≠ x.code →
    |x.magnitude - value| = |y.magnitude - value| → x.code % 2 = 0

/-- One is made of units. -/
theorem unitsPerOne_pos : (0 : ℚ) < unitsPerOne := by
  unfold unitsPerOne
  generalize 1074 = exponent
  exact Nat.cast_pos.2 (Nat.two_pow_pos exponent)

/-- Greater codes have magnitudes that are not less. -/
theorem magnitude_le_magnitude {x y : Binary64} (h : x.code ≤ y.code) :
    x.magnitude ≤ y.magnitude := by
  apply div_le_div_of_nonneg_right _ (le_of_lt unitsPerOne_pos)
  exact Nat.cast_le.2 (unitsOfCode_strictMono.monotone h)

/-- Codes are in the order of their magnitudes. -/
theorem magnitude_lt_magnitude {x y : Binary64} (h : x.code < y.code) :
    x.magnitude < y.magnitude := by
  apply div_lt_div_of_pos_right _ unitsPerOne_pos
  exact Nat.cast_lt.2 (unitsOfCode_strictMono h)

/-- Numbers have codes up to that of infinity. -/
theorem isNaN_eq_false_iff (x : Binary64) : x.isNaN = false ↔ x.code ≤ infinityCode := by
  simp [isNaN]

/-- A number without a sign is told by its code. -/
theorem eq_of_code_eq {x y : Binary64} (hx : x.negative = false) (hy : y.negative = false)
    (h : x.code = y.code) : x = y := by
  obtain ⟨negative, code, hlt⟩ := x
  obtain ⟨negative', code', hlt'⟩ := y
  obtain rfl : negative = false := hx
  obtain rfl : negative' = false := hy
  obtain rfl : code = code' := h
  rfl

/-- Only a next number can be as near as the one that a value is rounded to. -/
theorem Rounds.code_eq_succ {x y : Binary64} {value : ℚ} (hx : x.Rounds value)
    (hy : y.isNaN = false) (hlt : x.code < y.code)
    (hdist : |x.magnitude - value| = |y.magnitude - value|) : y.code = x.code + 1 := by
  by_contra hne
  -- A number between two that are equally near would be nearer than both.
  rw [isNaN_eq_false_iff] at hy
  let between : Binary64 := ⟨false, x.code + 1, Nat.lt_trans (by omega) y.code_lt⟩
  have hcode : between.code = x.code + 1 := rfl
  have hbetween : between.isNaN = false := (isNaN_eq_false_iff between).2 (by omega)
  have hleft : x.magnitude < between.magnitude := magnitude_lt_magnitude (by omega)
  have hright : between.magnitude < y.magnitude := magnitude_lt_magnitude (by omega)
  have hnearest := hx.nearest between hbetween
  rcases abs_eq_abs.1 hdist with hsame | hopposite
  · linarith
  · rw [abs_of_neg (by linarith : x.magnitude - value < 0)] at hnearest
    have hless : |between.magnitude - value| < -(x.magnitude - value) :=
      abs_lt.2 ⟨by linarith, by linarith⟩
    linarith

/-- No two numbers are what a value is rounded to. -/
theorem Rounds.unique {x y : Binary64} {value : ℚ} (hx : x.Rounds value) (hy : y.Rounds value) :
    x = y := by
  have hdist := le_antisymm (hx.nearest y hy.isNaN) (hy.nearest x hx.isNaN)
  have hcode : x.code = y.code := by
    by_contra hne
    have hxEven := hx.even y hy.isNaN (Ne.symm hne) hdist
    have hyEven := hy.even x hx.isNaN hne hdist.symm
    rcases Nat.lt_or_gt_of_ne hne with hlt | hgt
    · have hnext := hx.code_eq_succ hy.isNaN hlt hdist
      omega
    · have hnext := hy.code_eq_succ hx.isNaN hgt hdist.symm
      omega
  exact eq_of_code_eq hx.negative hy.negative hcode

/-- How far a magnitude is off a quotient of units. -/
theorem abs_magnitude_sub (x : Binary64) {dividend divisor : Nat} (hdivisor : 0 < divisor) :
    |x.magnitude - dividend / divisor / unitsPerOne| =
      deviation dividend divisor x.code / (divisor * unitsPerOne) := by
  have hpos : (0 : ℚ) < divisor := Nat.cast_pos.2 hdivisor
  have hone := unitsPerOne_pos
  have hdist : |(x.units * divisor : ℚ) - dividend| = deviation dividend divisor x.code := by
    rw [deviation, ← units_eq, ← Nat.cast_mul]
    rcases Nat.le_total (x.units * divisor) dividend with hle | hge
    · rw [Nat.dist_eq_sub_of_le hle, Nat.cast_sub hle, abs_sub_comm, abs_of_nonneg]
      exact sub_nonneg.2 (Nat.cast_le.2 hle)
    · rw [Nat.dist_eq_sub_of_le_right hge, Nat.cast_sub hge, abs_of_nonneg]
      exact sub_nonneg.2 (Nat.cast_le.2 hge)
  unfold magnitude
  generalize (unitsPerOne : ℚ) = one at *
  have hdifference : x.units / one - dividend / divisor / one =
      (x.units * divisor - dividend) / (divisor * one) := by
    field_simp
  rw [hdifference, abs_div, hdist, abs_of_pos (mul_pos hpos hone)]

/-- A quotient is rounded correctly. -/
theorem rounds_nearest {dividend divisor : Nat} (hdivisor : 0 < divisor) :
    (nearest dividend divisor).Rounds (dividend / divisor / unitsPerOne) := by
  have hscaled : (0 : ℚ) < divisor * unitsPerOne :=
    mul_pos (Nat.cast_pos.2 hdivisor) unitsPerOne_pos
  have hpreferred (y : Binary64) (hy : y.isNaN = false)
      (hne : y.code ≠ nearestCode dividend divisor) :=
    preferred_nearestCode hdivisor ((isNaN_eq_false_iff y).1 hy) hne
  refine ⟨isNaN_nearest dividend divisor, rfl, fun y hy => ?_, fun y hy hne hdist => ?_⟩
  · rw [abs_magnitude_sub _ hdivisor, abs_magnitude_sub _ hdivisor]
    apply div_le_div_of_nonneg_right _ (le_of_lt hscaled)
    rw [Nat.cast_le]
    by_cases hne : y.code = nearestCode dividend divisor
    · exact (congrArg (deviation dividend divisor) hne).ge
    · rcases hpreferred y hy hne with hnearer | ⟨hequal, -⟩
      · exact Nat.le_of_lt hnearer
      · exact Nat.le_of_eq hequal
  · rw [abs_magnitude_sub _ hdivisor, abs_magnitude_sub _ hdivisor,
      div_left_inj' (ne_of_gt hscaled), Nat.cast_inj] at hdist
    rcases hpreferred y hy hne with hnearer | ⟨-, heven⟩
    · exact absurd hdist (Nat.ne_of_lt hnearer)
    · exact heven

/-- The magnitude of a number whose unit is no fraction. -/
theorem magnitude_eq {x : Binary64} {significand scale : Nat} (hle : significand ≤ 2 ^ 53)
    (hge : 2 ^ 52 ≤ significand) (hcode : x.code = (scale + 1074) * 2 ^ 52 + significand) :
    x.magnitude = significand * 2 ^ scale := by
  rw [magnitude, units_eq, hcode, unitsOfCode_add hle (Or.inr hge)]
  unfold unitsPerOne
  generalize 1074 = exponent
  have hpos : (0 : ℚ) < 2 ^ exponent := pow_pos two_pos _
  rw [Nat.pow_eq, Nat.pow_add, Nat.cast_mul, Nat.cast_mul, Nat.cast_pow, Nat.cast_pow,
    Nat.cast_two, ← mul_assoc, mul_div_cancel_right₀ _ (ne_of_gt hpos)]

/-- Infinity. -/
def infinity : Binary64 := ⟨false, infinityCode, by decide⟩

/-- The greatest finite number. -/
def greatest : Binary64 := ⟨false, infinityCode - 1, by decide⟩

/-- Infinity stands for the power of two behind the finite magnitudes. -/
theorem magnitude_infinity : infinity.magnitude = 2 ^ 1024 := by
  have hcode : infinity.code = (972 + 1074) * 2 ^ 52 + 2 ^ 52 := rfl
  rw [magnitude_eq (by decide) (by decide) hcode, Nat.cast_pow, Nat.cast_two, ← pow_add]

/-- The greatest finite number is one step of its scale below that power. -/
theorem magnitude_greatest : greatest.magnitude = 2 ^ 1024 - 2 ^ 971 := by
  have hcode : greatest.code = (971 + 1074) * 2 ^ 52 + (2 ^ 53 - 1) := rfl
  rw [magnitude_eq (by decide) (by decide) hcode, Nat.cast_sub (by decide), sub_mul, Nat.cast_one,
    one_mul, Nat.cast_pow, Nat.cast_two, ← pow_add]

/-- A value is rounded to infinity from half a unit behind the greatest finite number on. -/
theorem Rounds.isFinite_iff {x : Binary64} {value : ℚ} (h : x.Rounds value) :
    x.isFinite = true ↔ value < 2 ^ 1024 - 2 ^ 970 := by
  have hdouble : (2 : ℚ) ^ 971 = 2 * 2 ^ 970 := pow_succ' 2 970
  have hpos : (0 : ℚ) < 2 ^ 970 := pow_pos two_pos _
  have htop := magnitude_infinity
  have hlast := magnitude_greatest
  have hnearest := h.nearest infinity rfl
  have hfinite := h.nearest greatest (by decide)
  rw [hdouble] at hlast
  rw [htop] at hnearest
  rw [hlast] at hfinite
  clear hdouble
  generalize (2 : ℚ) ^ 1024 = top at *
  generalize (2 : ℚ) ^ 970 = half at *
  constructor
  · intro hx
    by_contra hge
    have hcode : x.code ≤ greatest.code := Nat.le_pred_of_lt (of_decide_eq_true hx)
    have hle := magnitude_le_magnitude hcode
    have habove : |x.magnitude - value| = -(x.magnitude - value) := abs_of_neg (by linarith)
    -- Half a unit behind, the two are equally near, and the greatest finite number is odd.
    rcases abs_cases (top - value) with ⟨habs, -⟩ | ⟨habs, -⟩
    · have hlastCode : x.code = greatest.code := by
        refine Nat.le_antisymm hcode (Nat.le_of_not_lt fun hlt => ?_)
        have hlt := magnitude_lt_magnitude hlt
        linarith
      have heven := h.even infinity rfl (by rw [hlastCode]; decide)
        (by rw [htop]; linarith)
      rw [hlastCode] at heven
      exact absurd heven (by decide)
    · linarith
  · intro hlt
    by_contra hx
    have hcode : infinity.code ≤ x.code :=
      Nat.le_of_not_lt (of_decide_eq_false (Bool.eq_false_iff.2 hx))
    have hle := magnitude_le_magnitude hcode
    rw [abs_of_pos (by linarith : 0 < x.magnitude - value)] at hfinite
    rcases abs_cases (top - 2 * half - value) with ⟨habs, -⟩ | ⟨habs, -⟩
    · linarith
    · linarith

end Binary64

namespace Decimal

/-- The number that a decimal is. -/
def value (decimal : Decimal) : ℚ := decimal.coefficient * 10 ^ decimal.exponent

/-- A power of ten as the quotient of the two powers by which decimals are rounded. -/
theorem ten_zpow_eq (exponent : Int) :
    (10 : ℚ) ^ exponent = 10 ^ exponent.toNat / 10 ^ (-exponent).toNat := by
  rcases Int.le_total 0 exponent with hexponent | hexponent
  · obtain ⟨digits, rfl⟩ := Int.eq_ofNat_of_zero_le hexponent
    simp
  · obtain ⟨digits, hdigits⟩ := Int.eq_ofNat_of_zero_le (Int.neg_nonneg.2 hexponent)
    obtain rfl : exponent = -digits := by omega
    simp

/-- Decimals are rounded correctly. -/
theorem rounds_nearest (decimal : Decimal) : decimal.nearest.Rounds decimal.value := by
  have hpos : 0 < Nat.pow 10 (-decimal.exponent).toNat := Nat.pow_pos (by decide)
  have hvalue : decimal.value =
      (decimal.coefficient * Nat.pow 10 decimal.exponent.toNat * Binary64.unitsPerOne : Nat) /
        (Nat.pow 10 (-decimal.exponent).toNat : Nat) / Binary64.unitsPerOne := by
    have hone := Binary64.unitsPerOne_pos
    rw [value, ten_zpow_eq, Nat.cast_mul, Nat.cast_mul, Nat.pow_eq, Nat.pow_eq]
    generalize (Binary64.unitsPerOne : ℚ) = one at *
    push_cast
    field_simp
  rw [hvalue]
  exact Binary64.rounds_nearest hpos

/-- A decimal is rounded to the number that is nearest to what the decimal is. -/
theorem nearest_eq_iff {decimal : Decimal} {x : Binary64} :
    decimal.nearest = x ↔ x.Rounds decimal.value := by
  constructor
  · rintro rfl
    exact decimal.rounds_nearest
  · exact decimal.rounds_nearest.unique

/-- The least whole number with 54 binary digits that does not fit goes to its even neighbour. -/
example :
    (⟨9007199254740993, 0⟩ : Decimal).nearest = (⟨9007199254740992, 0⟩ : Decimal).nearest := by
  decide +kernel

end Decimal

end LoxScan
