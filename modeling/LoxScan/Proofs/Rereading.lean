import LoxScan.Proofs.Display
import LoxScan.Proofs.Literals

/-!
# Printed numbers are read back

The number of a token, if it is finite, is printed by digits with a point among them, without a sign
or an exponent. The printed text is a numeral that denotes a decimal which is rounded to the same
number, so lexing it gives one token, which covers the text and has the same value.
-/

namespace LoxScan

open Utf8

/-! ## Numbers in print -/

namespace Binary64

variable {x : Binary64}

/-- A number without a fraction is the whole number of its units. -/
theorem value_of_isIntegral (h : x.isIntegral = true) :
    (⟨x.units / unitsPerOne, 0⟩ : Decimal).value = x.magnitude := by
  obtain ⟨n, hn⟩ := (isIntegral_iff x).1 h
  rw [Decimal.value, zpow_zero, mul_one, units_div_eq hn, hn]

/-- Its digits are not many. -/
theorem within_of_isIntegral {bound : Nat} (hbound : 3200 ≤ bound) (hx : x.isFinite = true) :
    (⟨x.units / unitsPerOne, 0⟩ : Decimal).Within bound := by
  obtain ⟨digits, -, hdigits, hunits⟩ := exists_units_lt hx
  refine ⟨?_, by simp only; omega, by simp only; omega⟩
  calc x.units / unitsPerOne ≤ x.units := Nat.div_le_self _ _
    _ < 10 ^ digits := hunits
    _ ≤ 10 ^ bound := Nat.pow_le_pow_right (by decide) (by omega)

/-- A finite number without a sign is printed as a decimal that is rounded to it, and the text is
short. -/
theorem exists_plain_eq (hx : x.isFinite = true) (hsign : x.negative = false) :
    ∃ decimal : Decimal, x.plain = String.ofList decimal.positional ∧ decimal.nearest = x ∧
      decimal.positional.length ≤ maxWord := by
  have hNaN := isNaN_of_isFinite hx
  rw [plain, written, hNaN]
  simp only [Bool.false_eq_true, if_false, hx, if_true, hsign]
  split
  · next hintegral =>
    have hwithin := within_of_isIntegral (Nat.le_refl 3200) hx
    exact ⟨_, rfl, Decimal.nearest_eq_of_value_eq_magnitude hNaN hsign
      (value_of_isIntegral hintegral), (hwithin.length_positional (by decide)).trans (by decide)⟩
  · obtain ⟨hnearest, hwithin⟩ := nearest_shortest hx hsign
    have hlength := (hwithin 3200 (Nat.le_refl _)).length_positional (by decide)
    exact ⟨x.shortest, rfl, hnearest, hlength.trans (by decide)⟩

end Binary64

/-! ## Numerals as sources -/

/-- A numeral is one piece. -/
theorem pieces_of_numeral {text : List Char} (h : Numeral text) :
    pieces text = [⟨text, .token .number (Cut.numeralValue text)⟩] := by
  cases h with
  | whole hdigits =>
    cases text with
    | nil => exact absurd rfl hdigits.ne_nil
    | cons c digits =>
      have hfirst := @FirstPiece.whole c digits [] hdigits ⟨rfl, by simp⟩
      rw [List.append_nil] at hfirst
      rw [pieces_cons, ← hfirst.eq_of, pieces_nil]
  | @fraction whole part hwhole hpart =>
    cases whole with
    | nil => exact absurd rfl hwhole.ne_nil
    | cons c digits =>
      have hfirst := @FirstPiece.fraction c digits part [] hwhole hpart rfl
      rw [List.append_nil] at hfirst
      rw [List.cons_append, pieces_cons, ← hfirst.eq_of, pieces_nil]
      rfl

/-- Numerals have no newlines. -/
theorem newlines_of_numeral {text : List Char} (h : Numeral text) : newlines text = 0 := by
  apply newlines_eq_zero
  intro hnewline
  rcases h.mem hnewline with hdigit | hpoint
  · exact absurd hdigit (by decide)
  · exact absurd hpoint (by decide)

/-- The bytes of an ASCII text are its characters. -/
theorem size_of_ascii {text : List Char} (h : ∀ c ∈ text, c.toNat < 128) :
    size text = text.length := by
  induction text with
  | nil => rfl
  | cons c rest ih =>
    obtain ⟨hc, hrest⟩ := List.forall_mem_cons.1 h
    rw [size_cons, utf8Size_of_ascii hc, ih hrest, List.length_cons, Nat.add_comm]

/-- Numerals have as many bytes as characters. -/
theorem size_of_numeral {text : List Char} (h : Numeral text) : size text = text.length := by
  apply size_of_ascii
  intro c hc
  rcases h.mem hc with hdigit | rfl
  · exact toNat_lt_of_isDigit hdigit
  · decide

/-- The lexing of a text that is one number. -/
def Lexing.ofNumber (text : String) (value : Binary64) : Lexing :=
  ⟨.ofList [⟨.number, text, .number value, 1, ⟨0, size text.toList⟩⟩,
    ⟨.endOfFile, "", .none, 1, ⟨size text.toList, size text.toList⟩⟩], []⟩

/-- Lexing a numeral gives one number. -/
theorem lex_of_numeral {text : List Char} {value : Binary64} (h : Numeral text)
    (hlength : text.length ≤ maxWord) (hvalue : Cut.numeralValue text = .number value) :
    lex (String.ofList text) = .ok (.ofNumber (String.ofList text) value) := by
  rw [← size_of_numeral h] at hlength
  have hnewlines : newlines text < maxWord := by
    rw [newlines_of_numeral h]
    decide
  rw [lex_ofList hlength hnewlines, Lexing.of, Lexing.ofNumber, tokensFrom, diagnosticsFrom,
    placedPieces, pieces_of_numeral h, newlines_of_numeral h, hvalue, String.toList_ofList]
  simp [place, Placed.token?, Placed.diagnostic?, Placed.span, Token.endOfFile, Span.point]

/-- A text that denotes the value of a decimal has for a number what the decimal is rounded to. -/
theorem Decimal.Spelled.numeralValue {decimal : Decimal} {text : List Char}
    (h : Spelled decimal.value text) :
    Numeral text ∧ Cut.numeralValue text = .number decimal.nearest := by
  cases h with
  | mk hwhole hpart hvalue =>
    refine ⟨.fraction hwhole hpart, ?_⟩
    rw [Cut.numeralValue, ofNumeral?_point hwhole hpart, Option.getD_some,
      nearest_eq_of_value_eq hvalue]

/-! ## The numbers of tokens -/

/-- Lexing the printed number of a token, if it is finite, gives the number again. The text has
digits on both sides of a point and nothing else. -/
theorem printed_numbers_read_back {text : String} {lexing : Lexing} (h : lex text = .ok lexing) :
    ∀ token ∈ lexing.tokens.toList, token.kind = .number →
      ∃ value, token.literal = .number value ∧ (value.isFinite = true →
        (∃ whole part, Digits whole ∧ Digits part ∧
          token.literal.toText.toList = whole ++ '.' :: part) ∧
        lex token.literal.toText = .ok (.ofNumber token.literal.toText value)) := by
  obtain rfl := eq_of_lex_eq_ok h
  intro token htoken hkind
  rw [Lexing.of, Tokens.toList_ofList] at htoken
  have hcarries := carries_of_mem_tokensFrom htoken
  obtain ⟨value, hliteral⟩ := hcarries.number_iff.2 hkind
  refine ⟨value, hliteral, fun hfinite => ?_⟩
  obtain ⟨-, -, hsign⟩ := hcarries.value value hliteral
  obtain ⟨decimal, hplain, hnearest, hlength⟩ := Binary64.exists_plain_eq hfinite hsign
  have hspelled := decimal.spelled_positional
  obtain ⟨hnumeral, hvalue⟩ := hspelled.numeralValue
  rw [hnearest] at hvalue
  rw [hliteral, Literal.toText, hplain]
  refine ⟨?_, lex_of_numeral hnumeral hlength hvalue⟩
  rw [String.toList_ofList]
  generalize decimal.positional = printed at hspelled
  cases hspelled with
  | mk hwhole hpart => exact ⟨_, _, hwhole, hpart, rfl⟩

/-- The least whole number that needs 54 binary digits is printed as its even neighbour. -/
theorem printed_numbers_read_back_of_half_way :
    ∃ lexing value, lex "9007199254740993" = .ok lexing ∧ value.isFinite = true ∧
      (∃ token ∈ lexing.tokens.toList, token.kind = .number ∧ token.literal = .number value ∧
        token.literal.toText = "9007199254740992.0") ∧
      lex "9007199254740992.0" = .ok (.ofNumber "9007199254740992.0" value) := by
  have hlex : lex "9007199254740993" = .ok (.of "9007199254740993".toList) :=
    lex_eq_ok (by decide) (by decide)
  have hdigits : Digits "9007199254740993".toList := ⟨by decide, List.all_eq_true.1 (by decide)⟩
  have hpieces := pieces_of_numeral (.whole hdigits)
  have htoken : (⟨.number, "9007199254740993", Cut.numeralValue "9007199254740993".toList, 1,
      ⟨0, 16⟩⟩ : Token) ∈ (Lexing.of "9007199254740993".toList).tokens.toList := by
    rw [Lexing.of, Tokens.toList_ofList, tokensFrom, placedPieces, hpieces]
    exact List.mem_cons_self
  obtain ⟨value, hliteral, hagain⟩ := printed_numbers_read_back hlex _ htoken rfl
  have hvalue : value = (⟨9007199254740993, 0⟩ : Decimal).nearest :=
    (Literal.number.inj hliteral).symm
  have hfinite : value.isFinite = true := by
    rw [hvalue]
    decide +kernel
  have hprinted : Literal.toText (.number value) = "9007199254740992.0" := by
    rw [hvalue]
    decide +kernel
  obtain ⟨-, hread⟩ := hagain hfinite
  rw [hliteral, hprinted] at hread
  refine ⟨_, value, hlex, hfinite, ⟨_, htoken, rfl, hliteral, ?_⟩, hread⟩
  rw [hliteral, hprinted]

end LoxScan
