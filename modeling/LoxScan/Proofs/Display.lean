import LoxScan.Diagnostic
import LoxScan.Proofs.Fewest
import LoxScan.Token.Tokens

/-!
# What tokens and diagnostics are written as

A value is shown by a text that is told without computing it. A string is shown as it is. A whole
number is shown by all its digits, and any other finite number by the decimal with the fewest digits
that is rounded to it, the nearest of these, and the greater of two that are equally near. There is
always one such text and no other, and it is the one that the program prints.

So the line for a token is given by the name of its kind, its lexeme and the text that shows its
value, and the line for a diagnostic by the number of a line and a message.
-/

namespace LoxScan

open Utf8

/-! ## Decimals in plain notation -/

section

variable {n digit width : Nat}

/-- One digit more at the end of a number. -/
theorem toDigits_mul_ten_add (hn : 0 < n) (hdigit : digit < 10) :
    Nat.toDigits 10 (10 * n + digit) = Nat.toDigits 10 n ++ Nat.toDigits 10 digit :=
  (Nat.toDigits_append_toDigits (by decide) hn hdigit).symm

/-- Powers of ten are zeros at the end of a number. -/
theorem toDigits_mul_ten_pow (hn : 0 < n) (zeros : Nat) :
    Nat.toDigits 10 (n * 10 ^ zeros) = Nat.toDigits 10 n ++ List.replicate zeros '0' := by
  induction zeros with
  | zero => rw [Nat.pow_zero, Nat.mul_one, List.replicate_zero, List.append_nil]
  | succ zeros ih =>
    have hpos : 0 < n * 10 ^ zeros := Nat.mul_pos hn (Nat.pow_pos (by decide))
    have hstep : n * 10 ^ (zeros + 1) = 10 * (n * 10 ^ zeros) + 0 := by
      rw [Nat.pow_succ, ← Nat.mul_assoc, Nat.mul_comm 10, Nat.add_zero]
    rw [hstep, toDigits_mul_ten_add hpos (by decide), ih, List.append_assoc, List.replicate_succ']
    rfl

/-- The digits of a number, behind zeros up to some width. -/
def padded (width n : Nat) : List Char := (Nat.toDigits 10 n).leftpad width '0'

/-- A padded number is as wide as it should be. -/
theorem length_padded (hwidth : 0 < width) (h : n < 10 ^ width) :
    (padded width n).length = width := by
  rw [padded, List.length_leftpad]
  exact Nat.max_eq_left ((Nat.length_toDigits_le_iff (by decide) hwidth).2 h)

/-- One digit needs no padding to be one digit wide. -/
theorem padded_one (n : Nat) : padded 1 n = Nat.toDigits 10 n := by
  have hpos : 0 < (Nat.toDigits 10 n).length := List.length_pos_of_ne_nil Nat.toDigits_ne_nil
  rw [padded, List.leftpad, Nat.sub_eq_zero_of_le hpos, List.replicate_zero, List.nil_append]

/-- One digit more at the end of a padded number. -/
theorem padded_mul_ten_add (hwidth : 0 < width) (hdigit : digit < 10) :
    padded (width + 1) (10 * n + digit) = padded width n ++ Nat.toDigits 10 digit := by
  have hone : (Nat.toDigits 10 digit).length = 1 := by
    rw [Nat.toDigits_of_lt_base hdigit, List.length_singleton]
  unfold padded List.leftpad
  rcases Nat.eq_zero_or_pos n with rfl | hn
  · obtain ⟨zeros, rfl⟩ := Nat.exists_eq_add_one.2 hwidth
    have hzero : Nat.toDigits 10 0 = ['0'] := rfl
    rw [Nat.mul_zero, Nat.zero_add, hone, hzero, List.length_singleton, Nat.add_sub_cancel,
      Nat.add_sub_cancel, List.replicate_succ']
  · rw [toDigits_mul_ten_add hn hdigit, List.length_append, hone, Nat.add_sub_add_right,
      List.append_assoc]

/-- The digits of a number are those in front of a place and the padded ones behind it. -/
theorem padded_eq (places n : Nat) : padded (places + 2) n =
    Nat.toDigits 10 (n / 10 ^ (places + 1)) ++ padded (places + 1) (n % 10 ^ (places + 1)) := by
  induction places generalizing n with
  | zero =>
    have hn : 10 * (n / 10) + n % 10 = n := Nat.div_add_mod n 10
    have hpadded := @padded_mul_ten_add (n / 10) (n % 10) 1 (by decide) (Nat.mod_lt n (by decide))
    rw [hn, padded_one] at hpadded
    rw [hpadded, Nat.zero_add, Nat.pow_one, padded_one]
  | succ places ih =>
    have hn : 10 * (n / 10) + n % 10 = n := Nat.div_add_mod n 10
    have hpadded := @padded_mul_ten_add (n / 10) (n % 10) (places + 2) (by omega)
      (Nat.mod_lt n (by decide))
    have hrest : n % 10 ^ (places + 2) = 10 * (n / 10 % 10 ^ (places + 1)) + n % 10 := by
      rw [Nat.pow_succ', Nat.mod_mul, Nat.add_comm]
    rw [hn] at hpadded
    rw [hpadded, ih, Nat.div_div_eq_div_mul, ← Nat.pow_succ', hrest,
      padded_mul_ten_add (Nat.succ_pos places) (Nat.mod_lt n (by decide)), List.append_assoc]

end

namespace Decimal

/-- All digits in front of the point, and those behind it, or a zero if there are none. -/
def pointed (decimal : Decimal) : List Char :=
  let places := (-decimal.exponent).toNat
  let scaled := decimal.coefficient * 10 ^ decimal.exponent.toNat
  Nat.toDigits 10 (scaled / 10 ^ places) ++ '.' :: padded (max 1 places) (scaled % 10 ^ places)

/-- Plain notation is what its digits say. -/
theorem positional_eq_pointed {decimal : Decimal}
    (h : 0 < decimal.coefficient ∨ decimal.exponent = 0) :
    decimal.positional = decimal.pointed := by
  obtain ⟨coefficient, exponent⟩ := decimal
  unfold positional pointed
  dsimp only at h ⊢
  rcases Int.lt_or_le exponent 0 with hexponent | hexponent
  · obtain ⟨places, rfl⟩ : ∃ places : Nat, exponent = -(places + 1 : Nat) :=
      ⟨(-exponent).toNat - 1, by omega⟩
    have hpadded := padded_eq places coefficient
    rw [padded, List.leftpad] at hpadded
    have hlength := @length_padded (coefficient % 10 ^ (places + 1)) (places + 1) (by omega)
      (Nat.mod_lt _ (Nat.pow_pos (by decide)))
    rw [if_neg (by omega), neg_neg, Int.toNat_natCast, hpadded, List.length_append, hlength,
      Nat.add_sub_cancel, List.take_left, List.drop_left, Int.toNat_eq_zero.2 (by omega),
      Nat.pow_zero, Nat.mul_one, Nat.max_eq_right (by omega)]
  · obtain ⟨zeros, rfl⟩ := Int.eq_ofNat_of_zero_le hexponent
    have hdigits : Nat.toDigits 10 (coefficient * 10 ^ zeros) =
        Nat.toDigits 10 coefficient ++ List.replicate zeros '0' := by
      rcases h with hpos | hzero
      · exact toDigits_mul_ten_pow hpos zeros
      · obtain rfl : zeros = 0 := by omega
        rw [Nat.pow_zero, Nat.mul_one, List.replicate_zero, List.append_nil]
    rw [if_pos hexponent, Int.toNat_natCast, Int.toNat_eq_zero.2 (by omega), Nat.pow_zero,
      Nat.div_one, Nat.mod_one, hdigits]
    rfl

/-- The decimal that shows a number: of those that are rounded to the number it has the fewest
digits, and of these it is the nearest. -/
structure Shows (decimal : Decimal) (x : Binary64) : Prop where
  rounds : x.Rounds decimal.value
  fewest : ∀ other : Decimal, x.Rounds other.value → decimal.digitCount ≤ other.digitCount
  nearer : ∀ other : Decimal, x.Rounds other.value → other.digitCount = decimal.digitCount →
    decimal.Nearer x other

section

variable {x : Binary64} {first second : Decimal}

/-- Of two decimals of one value the one with the less exponent has zeros at its end. -/
theorem coefficient_eq_of_value_eq (h : first.value = second.value) {zeros : Nat}
    (hexponent : second.exponent = first.exponent + zeros) :
    first.coefficient = second.coefficient * 10 ^ zeros := by
  have hpos : (10 : ℚ) ^ first.exponent ≠ 0 := (Binary64.ten_zpow_pos _).ne'
  rw [value, value, hexponent, zpow_add₀ (by norm_num), zpow_natCast, mul_comm (10 ^ _ : ℚ),
    ← mul_assoc, mul_left_inj' hpos] at h
  exact_mod_cast h

/-- So it has more digits, unless they are the same. -/
theorem eq_of_value_eq_of_le (h : first.value = second.value)
    (hcount : first.digitCount = second.digitCount) (hpos : 0 < second.coefficient)
    (hle : first.exponent ≤ second.exponent) : first = second := by
  obtain ⟨zeros, hzeros⟩ := Int.eq_ofNat_of_zero_le (Int.sub_nonneg.2 hle)
  have hcoefficient := @coefficient_eq_of_value_eq _ _ h zeros (by omega)
  rw [digitCount, digitCount, hcoefficient, toDigits_mul_ten_pow hpos, List.length_append,
    List.length_replicate] at hcount
  obtain rfl : zeros = 0 := by omega
  rw [Nat.pow_zero, Nat.mul_one] at hcoefficient
  have hexponent : first.exponent = second.exponent := by omega
  obtain ⟨coefficient, exponent⟩ := first
  obtain rfl : coefficient = second.coefficient := hcoefficient
  obtain rfl : exponent = second.exponent := hexponent
  rfl

/-- Decimals with as many digits are told by their values. -/
theorem eq_of_value_eq (h : first.value = second.value)
    (hcount : first.digitCount = second.digitCount) (hfirst : 0 < first.coefficient)
    (hsecond : 0 < second.coefficient) : first = second := by
  rcases Int.le_total first.exponent second.exponent with hle | hge
  · exact eq_of_value_eq_of_le h hcount hsecond hle
  · exact (eq_of_value_eq_of_le h.symm hcount.symm hfirst hge).symm

/-- What is rounded to a number other than zero is not zero. -/
theorem coefficient_pos_of_rounds (hcode : 0 < x.code) (h : x.Rounds first.value) :
    0 < first.coefficient := by
  refine Nat.pos_of_ne_zero fun hzero => hcode.ne' ?_
  have hvalue : first.value = (⟨0, 0⟩ : Decimal).value := by
    rw [value_zero, value, hzero, Nat.cast_zero, zero_mul]
  rw [hvalue, ← nearest_eq_iff] at h
  rw [← h]
  decide +kernel

/-- No two decimals show a number. -/
theorem Shows.unique (hcode : 0 < x.code) (hfirst : first.Shows x) (hsecond : second.Shows x) :
    first = second := by
  have hcount := le_antisymm (hfirst.fewest second hsecond.rounds)
    (hsecond.fewest first hfirst.rounds)
  have hvalue := (hfirst.nearer second hsecond.rounds hcount.symm).antisymm
    (hsecond.nearer first hfirst.rounds hcount)
  exact eq_of_value_eq hvalue hcount (coefficient_pos_of_rounds hcode hfirst.rounds)
    (coefficient_pos_of_rounds hcode hsecond.rounds)

end

end Decimal

/-! ## Numbers -/

namespace Binary64

/-- The text that shows a number. -/
inductive Shown : Binary64 → List Char → Prop
  | nan {x : Binary64} : x.isNaN = true → Shown x ['N', 'a', 'N']
  | infinite {x : Binary64} :
    x.isNaN = false → x.isFinite = false → x.negative = false → Shown x ['i', 'n', 'f']
  /-- A whole number is shown by all its digits, with a zero behind the point. -/
  | whole {x : Binary64} {n : Nat} :
    x.isFinite = true → x.negative = false → x.magnitude = n →
      Shown x (Nat.toDigits 10 n ++ ['.', '0'])
  | fraction {x : Binary64} {decimal : Decimal} :
    x.isFinite = true → x.negative = false → (∀ n : Nat, x.magnitude ≠ n) → decimal.Shows x →
      Shown x decimal.pointed
  | negative {x : Binary64} {text : List Char} :
    x.isNaN = false → x.negative = true → Shown ⟨false, x.code, x.code_lt⟩ text →
      Shown x ('-' :: text)

variable {x : Binary64} {text : List Char}

/-- The shortest decimal shows its number. -/
theorem shows_shortest (hx : x.isFinite = true) (hsign : x.negative = false) :
    x.shortest.Shows x := by
  refine ⟨Decimal.nearest_eq_iff.1 (nearest_shortest hx hsign).1, ?_, ?_⟩
  · intro other hrounds
    obtain rfl := Decimal.nearest_eq_iff.2 hrounds
    exact digitCount_shortest_le other
  · intro other hrounds hcount
    exact shortest_nearer (Decimal.nearest_eq_iff.2 hrounds) hcount.le

/-- A magnitude is a whole number if its units are those of the number. -/
theorem magnitude_eq_natCast_iff (x : Binary64) (n : Nat) :
    x.magnitude = n ↔ x.units = n * unitsPerOne := by
  rw [magnitude, div_eq_iff (ne_of_gt unitsPerOne_pos)]
  exact_mod_cast Iff.rfl

/-- The units of a whole number, as that number. -/
theorem units_div_eq {n : Nat} (h : x.magnitude = n) : x.units / unitsPerOne = n := by
  rw [(magnitude_eq_natCast_iff x n).1 h]
  exact Nat.mul_div_cancel n (Nat.cast_pos.1 unitsPerOne_pos)

/-- Numbers without a fraction are the whole ones. -/
theorem isIntegral_iff (x : Binary64) : x.isIntegral = true ↔ ∃ n : Nat, x.magnitude = n := by
  simp only [magnitude_eq_natCast_iff, isIntegral, beq_iff_eq, ← Nat.dvd_iff_mod_eq_zero]
  exact dvd_iff_exists_eq_mul_left

/-- A finite number without a sign is printed by plain digits. -/
theorem plain_of_nonneg (hx : x.isFinite = true) (hsign : x.negative = false) :
    x.plain.toList = if x.isIntegral then (Decimal.mk (x.units / unitsPerOne) 0).positional
      else x.shortest.positional := by
  rw [plain, written, isNaN_of_isFinite hx]
  simp [hx, hsign]

/-- A number with a sign is printed as the one without it, behind the sign. -/
theorem plain_of_negative (hx : x.isNaN = false) (hsign : x.negative = true) :
    x.plain.toList = '-' :: (⟨false, x.code, x.code_lt⟩ : Binary64).plain.toList := by
  have hx' : (⟨false, x.code, x.code_lt⟩ : Binary64).isNaN = false := hx
  rw [plain, written, plain, written, hx, hx']
  simp only [hsign, Bool.false_eq_true, if_false, if_true, String.toList_ofList]
  rfl

/-- Whatever shows a number is what the number is printed as. -/
theorem Shown.eq_plain (h : x.Shown text) : text = x.plain.toList := by
  induction h with
  | nan hx =>
    rw [plain, written, if_pos hx]
    rfl
  | infinite hx hfinite hsign =>
    rw [plain, written, hx]
    simp [hfinite, hsign]
  | @whole x n hx hsign hn =>
    rw [plain_of_nonneg hx hsign, if_pos ((isIntegral_iff x).2 ⟨n, hn⟩), units_div_eq hn,
      Decimal.positional]
    simp
  | @fraction x decimal hx hsign hn hshows =>
    have hintegral : ¬ x.isIntegral = true := fun hwhole => by
      obtain ⟨n, hmagnitude⟩ := (isIntegral_iff x).1 hwhole
      exact hn n hmagnitude
    have hcode : 0 < x.code := by
      refine Nat.pos_of_ne_zero fun hzero => hn 0 ?_
      rw [magnitude_eq_zero hzero, Nat.cast_zero]
    rw [plain_of_nonneg hx hsign, if_neg hintegral,
      ← hshows.unique hcode (shows_shortest hx hsign), Decimal.positional_eq_pointed]
    exact Or.inl (Decimal.coefficient_pos_of_rounds hcode hshows.rounds)
  | negative hx hsign _ ih => rw [plain_of_negative hx hsign, ih]

/-- A text shows a number that has no sign. -/
theorem exists_shown_of_nonneg (hx : x.isNaN = false) (hsign : x.negative = false) :
    ∃ text, x.Shown text := by
  by_cases hfinite : x.isFinite = true
  · by_cases hwhole : ∃ n : Nat, x.magnitude = n
    · obtain ⟨n, hn⟩ := hwhole
      exact ⟨_, .whole hfinite hsign hn⟩
    · exact ⟨_, .fraction hfinite hsign (not_exists.1 hwhole) (shows_shortest hfinite hsign)⟩
  · exact ⟨_, .infinite hx (Bool.eq_false_iff.2 hfinite) hsign⟩

/-- A text shows whatever 64 bits stand for. -/
theorem exists_shown (x : Binary64) : ∃ text, x.Shown text := by
  by_cases hx : x.isNaN = true
  · exact ⟨_, .nan hx⟩
  · have hx := Bool.eq_false_iff.2 hx
    by_cases hsign : x.negative = true
    · obtain ⟨text, htext⟩ :=
        @exists_shown_of_nonneg ⟨false, x.code, x.code_lt⟩ hx rfl
      exact ⟨_, .negative hx hsign htext⟩
    · exact exists_shown_of_nonneg hx (Bool.eq_false_iff.2 hsign)

/-- The text that shows a number. There is one for every number, and no other. -/
noncomputable def shown (x : Binary64) : List Char := x.exists_shown.choose

/-- The text that shows a number is the one that is printed. -/
theorem shown_eq_plain (x : Binary64) : x.shown = x.plain.toList :=
  x.exists_shown.choose_spec.eq_plain

/-- No other text shows a number. -/
theorem shown_iff : x.Shown text ↔ text = x.shown := by
  constructor
  · intro h
    rw [shown_eq_plain]
    exact h.eq_plain
  · rintro rfl
    exact x.exists_shown.choose_spec

end Binary64

/-! ## Lines -/

/-- The text that shows a value. -/
noncomputable def Literal.shown : Literal → List Char
  | none => []
  | text content => content.toList
  | number value => value.shown

/-- Values are printed as the texts that show them. -/
theorem Literal.shown_eq_toText (literal : Literal) : literal.shown = literal.toText.toList := by
  cases literal with
  | none => rfl
  | text content => rfl
  | number value => exact value.shown_eq_plain

/-- The name of a kind: the words that say what it is, in capitals. -/
def Kind.title : Kind → List Char
  | leftParen => "LEFT_PAREN".toList
  | rightParen => "RIGHT_PAREN".toList
  | leftBrace => "LEFT_BRACE".toList
  | rightBrace => "RIGHT_BRACE".toList
  | comma => "COMMA".toList
  | dot => "DOT".toList
  | minus => "MINUS".toList
  | plus => "PLUS".toList
  | semicolon => "SEMICOLON".toList
  | slash => "SLASH".toList
  | star => "STAR".toList
  | bang => "BANG".toList
  | bangEqual => "BANG_EQUAL".toList
  | equal => "EQUAL".toList
  | equalEqual => "EQUAL_EQUAL".toList
  | greater => "GREATER".toList
  | greaterEqual => "GREATER_EQUAL".toList
  | less => "LESS".toList
  | lessEqual => "LESS_EQUAL".toList
  | identifier => "IDENTIFIER".toList
  | string => "STRING".toList
  | number => "NUMBER".toList
  | reserved word => word.spelling.toList.map Char.toUpper
  | endOfFile => "END_OF_FILE".toList

/-- Kinds are named by their titles. -/
theorem Kind.title_eq_name (kind : Kind) : kind.title = kind.name.toList := by
  cases kind with
  | reserved word => cases word <;> decide
  | _ => rfl

/-- What is said about a problem. -/
def Problem.told : Problem → String
  | unterminatedString => "Unterminated string."
  | unexpectedCharacter _ => "Unexpected character."

/-- Messages say what is to be said about a problem. -/
theorem Problem.told_eq_message (problem : Problem) : problem.told = problem.message := by
  cases problem <;> rfl

/-- The line on which a token is listed: its kind, its lexeme and its value. -/
noncomputable def Token.listed (token : Token) : List UInt8 :=
  encode (token.kind.title ++ ' ' :: token.lexeme.toList ++ ' ' :: token.literal.shown ++ ['\n'])

/-- A token is listed on the line that is printed for it. -/
theorem Token.listed_eq (token : Token) :
    token.listed = encode (token.toText.toList ++ ['\n']) := by
  rw [listed, Kind.title_eq_name, Literal.shown_eq_toText, toText]
  simp

/-- The line on which a diagnostic is reported. -/
def Diagnostic.reported (diagnostic : Diagnostic) : List UInt8 :=
  encode ("[line " ++ toString diagnostic.line ++ "] Error: " ++ diagnostic.problem.told ++
    "\n").toList

/-- A diagnostic is reported on the line that is printed for it. -/
theorem Diagnostic.reported_eq (diagnostic : Diagnostic) :
    diagnostic.reported = encode (diagnostic.toText.toList ++ ['\n']) := by
  rw [reported, Problem.told_eq_message, String.toList_append]
  rfl

end LoxScan
