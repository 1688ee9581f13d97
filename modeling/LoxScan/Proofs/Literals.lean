import LoxScan.Proofs.Faultless
import LoxScan.Proofs.Listing
import LoxScan.Proofs.Positional
import LoxScan.Proofs.Tiling

/-!
# Values of tokens

Strings have texts for values, numbers have numbers, and no other token has a value. The text of a
string is the part of the source between its quotes, and the value of a number is what its numeral
is rounded to. Such a value is never negative and never fails to be a number, so comparing the
tokens of two sources number by number is the same as comparing them bit by bit.
-/

namespace LoxScan

open Utf8

namespace Binary64

/-- Different numbers have different bits. -/
theorem toBits_injective : Function.Injective toBits := by
  rintro ⟨negative, code, hcode⟩ ⟨other, second, hsecond⟩ h
  simp only [toBits, Nat.pow_eq] at h hcode hsecond
  cases negative <;> cases other <;> simp at h ⊢ <;> omega

/-- Numbers without a sign are equal as numbers exactly if they are the same. -/
theorem numericEq_iff {x y : Binary64} (hx : x.isNaN = false) (hy : y.isNaN = false)
    (hxSign : x.negative = false) (hySign : y.negative = false) :
    x.numericEq y = true ↔ x = y := by
  obtain ⟨negative, code, hcode⟩ := x
  obtain ⟨other, second, hsecond⟩ := y
  obtain rfl : negative = false := hxSign
  obtain rfl : other = false := hySign
  simp [numericEq, hx, hy]

end Binary64

namespace Literal

/-- The value is no number, or one without a sign. -/
def Unsigned (literal : Literal) : Prop :=
  ∀ value, literal = .number value → value.isNaN = false ∧ value.negative = false

/-- Values without a sign agree exactly if they are the same. -/
theorem agrees_iff {left right : Literal} (hleft : left.Unsigned) (hright : right.Unsigned) :
    left.agrees right = true ↔ left = right := by
  cases left with
  | number value =>
    cases right with
    | number other =>
      obtain ⟨hvalue, hvalueSign⟩ := hleft value rfl
      obtain ⟨hother, hotherSign⟩ := hright other rfl
      rw [agrees, Binary64.numericEq_iff hvalue hother hvalueSign hotherSign, number.injEq]
    | none | text => simp [agrees]
  | none | text => cases right <;> simp [agrees]

end Literal

/-- The value of a token is that of its kind, and is read off its lexeme. -/
structure Token.Carries (token : Token) (text : List Char) : Prop where
  text_iff : (∃ content, token.literal = .text content) ↔ token.kind = .string
  number_iff : (∃ value, token.literal = .number value) ↔ token.kind = .number
  present_iff : token.literal ≠ .none ↔ token.kind.hasLiteral = true
  /-- A string has the part of the source between its quotes. -/
  content : ∀ content, token.literal = .text content →
    Text.slice? (token.span.start + 1) (token.span.stop - 1) text = some content.toList ∧
      '"' ∉ content.toList ∧ token.lexeme.toList = '"' :: content.toList ++ ['"']
  /-- A number has what its numeral is rounded to, which is infinity for great numerals. -/
  value : ∀ value, token.literal = .number value →
    (∃ exact, Denotes token.lexeme.toList exact ∧ value.Rounds exact ∧
      (value.isFinite = true ↔ exact < 2 ^ 1024 - 2 ^ 970)) ∧
      value.isNaN = false ∧ value.negative = false

namespace Valued

variable {kind : Kind} {text : List Char} {literal : Literal}

/-- Strings carry texts, and nothing else does. -/
theorem text_iff (h : Valued kind text literal) :
    (∃ content, literal = .text content) ↔ kind = .string := by
  cases h with
  | string => simp
  | number => simp [Cut.numeralValue]
  | plain hkind => simpa using fun hstring => by simp [hstring, Kind.hasLiteral] at hkind

/-- Numbers carry numbers, and nothing else does. -/
theorem number_iff (h : Valued kind text literal) :
    (∃ value, literal = .number value) ↔ kind = .number := by
  cases h with
  | string => simp
  | number => simp [Cut.numeralValue]
  | plain hkind => simpa using fun hnumber => by simp [hnumber, Kind.hasLiteral] at hkind

/-- Values are present where the kind says so. -/
theorem present_iff (h : Valued kind text literal) :
    literal ≠ .none ↔ kind.hasLiteral = true := by
  cases h with
  | string => simp [Kind.hasLiteral]
  | number => simp [Cut.numeralValue, Kind.hasLiteral]
  | plain hkind => simp [hkind]

/-- A string has the text between its quotes. -/
theorem eq_quoted {content : String} (h : Valued kind text (.text content)) :
    '"' ∉ content.toList ∧ text = '"' :: content.toList ++ ['"'] := by
  generalize hliteral : Literal.text content = literal at h
  cases h with
  | string hcontent =>
    cases hliteral
    rw [String.toList_ofList]
    exact ⟨hcontent, rfl⟩
  | number | plain => cases hliteral

/-- A number has the value of its numeral, correctly rounded. -/
theorem exists_denotes {value : Binary64} (h : Valued kind text (.number value)) :
    ∃ exact, Denotes text exact ∧ value.Rounds exact ∧
      (value.isFinite = true ↔ exact < 2 ^ 1024 - 2 ^ 970) := by
  generalize hliteral : Literal.number value = literal at h
  cases h with
  | number hnumeral =>
    obtain ⟨decimal, hdecimal⟩ := Option.isSome_iff_exists.1 (Decimal.ofNumeral?_isSome hnumeral)
    rw [Cut.numeralValue, hdecimal] at hliteral
    cases hliteral
    have hrounds := decimal.rounds_nearest
    exact ⟨decimal.value, Decimal.denotes_of_ofNumeral? hdecimal, hrounds, hrounds.isFinite_iff⟩
  | string | plain => cases hliteral

/-- A value is no number, or one without a sign. -/
theorem unsigned (h : Valued kind text literal) : literal.Unsigned := by
  rintro value rfl
  obtain ⟨exact, -, hrounds, -⟩ := h.exists_denotes
  exact ⟨hrounds.isNaN, hrounds.negative⟩

end Valued

/-- A slice that a cursor takes is one of its text. -/
theorem Cursor.slice?_of_slice {cursor : Cursor} {start stop : Nat} {part : List Char}
    (h : cursor.slice start stop = .ok part) : Text.slice? start stop cursor.text = some part := by
  unfold slice at h
  dsimp only at h
  split_ifs at h
  split at h
  · next hslice =>
    cases h
    exact hslice
  · cases h

/-- A string covers its text and the quotes around it. -/
theorem slice?_content {line : Nat} {text : List Char} {token : Token} {content : String}
    (h : token ∈ tokensFrom 0 line text) (hliteral : token.literal = .text content) :
    Text.slice? (token.span.start + 1) (token.span.stop - 1) text = some content.toList := by
  rcases List.mem_append.1 h with h | h
  · obtain ⟨before, c, rest, kind, literal, htext, hfinding, rfl⟩ := exists_of_mem_tokens h
    obtain rfl : literal = .text content := hliteral
    -- The slice is the one that the scanner takes, which was shown to be sound.
    have hkind := ((FirstPiece.of c rest).valued hfinding).text_iff.1 ⟨content, rfl⟩
    rw [hkind] at hfinding
    have hslice := (Reading.sound_of_cut line htext).content content hfinding
    rw [Nat.zero_add]
    exact Cursor.slice?_of_slice hslice
  · obtain rfl := List.mem_singleton.1 h
    cases hliteral

/-- The tokens of a text carry the values of their lexemes. -/
theorem carries_of_mem_tokensFrom {line : Nat} {text : List Char} {token : Token}
    (h : token ∈ tokensFrom 0 line text) : token.Carries text := by
  have hvalued := valued_of_mem_tokensFrom h
  constructor
  case text_iff => exact hvalued.text_iff
  case number_iff => exact hvalued.number_iff
  case present_iff => exact hvalued.present_iff
  case content =>
    intro content hliteral
    rw [hliteral] at hvalued
    exact ⟨slice?_content h hliteral, hvalued.eq_quoted⟩
  case value =>
    intro value hliteral
    have hunsigned := hvalued.unsigned value hliteral
    rw [hliteral] at hvalued
    exact ⟨hvalued.exists_denotes, hunsigned⟩

/-- Tokens without signs agree exactly if they are the same. -/
theorem Token.agrees_iff {left right : Token} (hleft : left.literal.Unsigned)
    (hright : right.literal.Unsigned) : left.agrees right = true ↔ left = right := by
  obtain ⟨kind, lexeme, literal, line, span⟩ := left
  obtain ⟨kind', lexeme', literal', line', span'⟩ := right
  simp [agrees, Literal.agrees_iff hleft hright, and_assoc]

/-- So do sequences of them. -/
theorem Tokens.agrees_iff {left right : Tokens}
    (hleft : ∀ token ∈ left.toList, token.literal.Unsigned)
    (hright : ∀ token ∈ right.toList, token.literal.Unsigned) :
    left.agrees right = true ↔ left = right := by
  obtain ⟨left⟩ := left
  obtain ⟨right⟩ := right
  rw [agrees, Array.isEqv_iff_rel, mk.injEq]
  constructor
  · rintro ⟨hsize, hagrees⟩
    refine Array.ext hsize fun index hindex hother => ?_
    exact (Token.agrees_iff (hleft _ (Array.getElem_mem_toList hindex))
      (hright _ (Array.getElem_mem_toList hother))).1 (hagrees index hindex)
  · rintro rfl
    refine ⟨rfl, fun index hindex => ?_⟩
    have hunsigned := hleft _ (Array.getElem_mem_toList hindex)
    exact (Token.agrees_iff hunsigned hunsigned).2 rfl

/-- Lexings agree exactly if they are the same. -/
theorem Lexing.agrees_of_iff (left right : List Char) :
    (Lexing.of left).agrees (Lexing.of right) = true ↔ Lexing.of left = Lexing.of right := by
  have hunsigned (text : List Char) :
      ∀ token ∈ (Lexing.of text).tokens.toList, token.literal.Unsigned := by
    intro token hmem
    rw [Lexing.of, Tokens.toList_ofList] at hmem
    exact (valued_of_mem_tokensFrom hmem).unsigned
  rw [agrees, Bool.and_eq_true, Tokens.agrees_iff (hunsigned left) (hunsigned right), beq_iff_eq,
    ← Lexing.mk.injEq]

/-- Only sources whose offsets and lines are words have a lexing, which is that of their text. -/
theorem eq_of_lex_eq_ok {text : String} {lexing : Lexing} (h : lex text = .ok lexing) :
    lexing = .of text.toList := by
  by_cases hsize : size text.toList ≤ maxWord
  · rw [lex_eq text hsize] at h
    split_ifs at h
    cases h
    rfl
  · have hsource : Source.ofString text = .error .sourceTooLong := dif_neg hsize
    rw [lex, hsource] at h
    cases h

/-- Tokens carry the values of their kinds and lexemes, and lexings agree number by number exactly
if they are the same bit by bit. -/
theorem lex_carries (text : String) (hsize : size text.toList ≤ maxWord)
    (hlines : newlines text.toList < maxWord) :
    ∃ lexing, lex text = .ok lexing ∧
      (∀ token ∈ lexing.tokens.toList, token.Carries text.toList) ∧
      lexing.agrees lexing = true ∧
      ∀ source other, lex source = .ok other →
        (lexing.agrees other = true ↔ lexing = other) ∧
        ∀ token ∈ lexing.tokens.toList, ∀ found ∈ other.tokens.toList, ∀ x y,
          token.literal = .number x → found.literal = .number y →
            (x.numericEq y = true ↔ x.toBits = y.toBits) := by
  have hcarries {text : List Char} : ∀ token ∈ (Lexing.of text).tokens.toList,
      token.Carries text := by
    intro token hmem
    rw [Lexing.of, Tokens.toList_ofList] at hmem
    exact carries_of_mem_tokensFrom hmem
  refine ⟨.of text.toList, lex_eq_ok hsize hlines, hcarries, (Lexing.agrees_of_iff _ _).2 rfl, ?_⟩
  intro source other hother
  obtain rfl := eq_of_lex_eq_ok hother
  refine ⟨Lexing.agrees_of_iff _ _, ?_⟩
  intro token htoken found hfound x y hx hy
  obtain ⟨-, hxNumber, hxSign⟩ := (hcarries token htoken).value x hx
  obtain ⟨-, hyNumber, hySign⟩ := (hcarries found hfound).value y hy
  rw [Binary64.numericEq_iff hxNumber hyNumber hxSign hySign, Binary64.toBits_injective.eq_iff]

/-- A string over two lines, a fraction that fits, and a numeral that is rounded to infinity. -/
theorem lex_carries_of_long_numeral :
    ∃ lexing, lex (String.ofList ("\"é\n\"12.5 1".toList ++ List.replicate 309 '0')) = .ok lexing ∧
      lexing.tokens.toList.map (·.literal) =
        [.text "é\n", .number ⟨false, 0x4029000000000000, by decide⟩,
          .number ⟨false, 0x7FF0000000000000, by decide⟩, .none] ∧
      (∀ token ∈ lexing.tokens.toList,
        token.Carries ("\"é\n\"12.5 1".toList ++ List.replicate 309 '0')) ∧
      lexing.agrees lexing = true := by
  have hvalue : Cut.numeralValue ['1', '2', '.', '5'] =
      .number ⟨false, 0x4029000000000000, by decide⟩ := by
    decide +kernel
  have hgreat : Cut.numeralValue ('1' :: List.replicate 309 '0') =
      .number ⟨false, 0x7FF0000000000000, by decide⟩ := by
    decide +kernel
  have hpieces (zeros : List Char) (hzeros : ∀ c ∈ zeros, c.isDigit = true) :
      pieces ("\"é\n\"12.5 1".toList ++ zeros) =
        [⟨"\"é\n\"".toList, .token .string (.text "é\n")⟩,
          ⟨['1', '2', '.', '5'], .token .number (Cut.numeralValue ['1', '2', '.', '5'])⟩,
          ⟨[' '], .trivia⟩, ⟨'1' :: zeros, .token .number (Cut.numeralValue ('1' :: zeros))⟩] := by
    have htake := List.takeWhile_eq_self_iff.2 hzeros
    have hdrop := List.dropWhile_eq_nil_iff.2 hzeros
    simp [pieces_cons, Cut.of, Opening.ofChar, Cut.string, Cut.number, Cut.fraction, htake, hdrop]
  have hsize : size ("\"é\n\"12.5 1".toList ++ List.replicate 309 '0') ≤ maxWord := by
    decide +kernel
  have hlines : newlines ("\"é\n\"12.5 1".toList ++ List.replicate 309 '0') < maxWord := by
    decide +kernel
  have hzeros : ∀ c ∈ List.replicate 309 '0', c.isDigit = true := by
    intro c hc
    rw [List.eq_of_mem_replicate hc]
    rfl
  generalize List.replicate 309 '0' = zeros at *
  obtain ⟨lexing, hlexing, hcarries, hagrees, -⟩ :=
    lex_carries (String.ofList ("\"é\n\"12.5 1".toList ++ zeros))
      (by rwa [String.toList_ofList]) (by rwa [String.toList_ofList])
  rw [String.toList_ofList] at hcarries
  refine ⟨lexing, hlexing, ?_, hcarries, hagrees⟩
  rw [lex_ofList hsize hlines] at hlexing
  cases hlexing
  rw [Lexing.of, Tokens.toList_ofList, tokensFrom, placedPieces, hpieces zeros hzeros, hvalue,
    hgreat]
  rfl

end LoxScan
