import LoxScan.Proofs.Lead

/-!
# What characters open

The dispatch on the first character of a lexeme, read backwards: which characters have a given
opening.
-/

namespace LoxScan.Opening

variable {c : Char}

/-- What opens something is ASCII. -/
theorem toNat_lt_of_ofChar (h : ofChar c ≠ .stray) : c.toNat < 128 := by
  by_contra hc
  exact h (ofChar_of_not_ascii (by omega))

/-- No digit is a letter. -/
theorem isAlpha_eq_false_of_isDigit (h : c.isDigit = true) : c.isAlpha = false := by
  have hdigit := isDigit_iff.1 h
  by_contra hc
  have hletter := isAlpha_iff.1 (Bool.ne_false_iff.1 hc)
  omega

/-- Only newlines open a newline. -/
theorem ofChar_eq_newline_iff : ofChar c = .newline ↔ c = '\n' := by
  unfold ofChar
  split <;> grind

/-- Spaces, tabs and carriage returns are blank. -/
theorem ofChar_eq_blank_iff : ofChar c = .blank ↔ c = ' ' ∨ c = '\t' ∨ c = '\r' := by
  unfold ofChar
  split <;> grind

/-- Only quotes open strings. -/
theorem ofChar_eq_quote_iff : ofChar c = .quote ↔ c = '"' := by
  unfold ofChar
  split <;> grind

/-- Only a slash opens a slash or a comment. -/
theorem ofChar_eq_slash_iff : ofChar c = .slash ↔ c = '/' := by
  unfold ofChar
  split <;> grind

/-- Digits open numerals. -/
theorem ofChar_eq_digit_iff : ofChar c = .digit ↔ c.isDigit = true := by
  unfold ofChar
  split <;> grind

/-- Letters and underscores open words. -/
theorem ofChar_eq_letter_iff : ofChar c = .letter ↔ c.isAlpha = true ∨ c = '_' := by
  have hdigit : c.isAlpha = true ∨ c = '_' → c.isDigit = false := by
    rintro (h | rfl)
    · by_contra hc
      rw [isAlpha_eq_false_of_isDigit (by simpa using hc)] at h
      cases h
    · rfl
  unfold ofChar
  split <;> grind

/-- A letter can go on a word. -/
theorem isWordChar_of_ofChar (h : ofChar c = .letter) : isWordChar c = true := by
  rcases ofChar_eq_letter_iff.1 h with h | rfl
  · simp [isWordChar, Char.isAlphanum, h]
  · decide

/-- No character stands for the end of file. -/
theorem kind_ne_endOfFile {kind : Kind} (h : ofChar c = .single kind) : kind ≠ .endOfFile := by
  unfold ofChar at h
  split at h <;> grind

/-- Operators are not the end of file. -/
theorem kinds_ne_endOfFile {alone followed : Kind} (h : ofChar c = .withEqual alone followed) :
    alone ≠ .endOfFile ∧ followed ≠ .endOfFile := by
  unfold ofChar at h
  split at h <;> grind

end LoxScan.Opening
