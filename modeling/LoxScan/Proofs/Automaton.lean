import LoxScan.Proofs.FirstPiece
import LoxScan.Proofs.Lexing

/-!
# Diagnostics by an automaton

The diagnostics of a source are those of an automaton with four states that looks at one character
at a time and knows nothing of tokens. It simulates the pieces: at the end of each piece it is in
the state for code, or in a state that treats what follows in the same way.
-/

namespace LoxScan

open Utf8

/-- What the characters passed so far leave open. -/
inductive Mode where
  | code
  /-- A slash that a second one may follow. -/
  | slash
  | comment
  /-- A string whose opening quote stands at an offset. -/
  | string (opened : Nat)
  deriving DecidableEq, Repr

namespace Mode

/-- Whether a character may stand in code. -/
def admits (c : Char) : Bool :=
  c.isAlpha || c.isDigit || c ∈ ['_', ' ', '\t', '\r', '\n', '(', ')', '{', '}', ',', '.', '-', '+',
    ';', '*', '!', '=', '<', '>', '/', '"']

/-- The state after a character at an offset. -/
def next (pos : Nat) (c : Char) : Mode → Mode
  | code => if c = '"' then string pos else if c = '/' then slash else code
  | slash => if c = '"' then string pos else if c = '/' then comment else code
  | comment => if c = '\n' then code else comment
  | string opened => if c = '"' then code else string opened

/-- The report on a character that may not stand where it does. -/
def report (pos line : Nat) (c : Char) : Mode → List Diagnostic
  | code | slash =>
    if admits c then [] else [⟨.unexpectedCharacter c, line, ⟨pos, pos + c.utf8Size⟩⟩]
  | comment | string _ => []

/-- The report at the end of a text. -/
def finish (pos line : Nat) : Mode → List Diagnostic
  | string opened => [⟨.unterminatedString, line, ⟨opened, pos⟩⟩]
  | code | slash | comment => []

/-- The reports on a text that begins at an offset and on a line. -/
def diagnose (mode : Mode) (pos line : Nat) : List Char → List Diagnostic
  | [] => mode.finish pos line
  | c :: text =>
    mode.report pos line c ++
      (mode.next pos c).diagnose (pos + c.utf8Size) (line + newlines [c]) text

variable {pos line : Nat}

/-- What may stand in code is what opens something. -/
theorem admits_iff {c : Char} : admits c = true ↔ Opening.ofChar c ≠ .stray := by
  unfold Opening.ofChar
  split
  all_goals try simp [admits]
  split
  · simp_all
  · split <;> simp_all

/-- Characters that neither change a state nor offend in it are passed. -/
theorem diagnose_append {mode : Mode} {front : List Char}
    (h : ∀ c ∈ front, ∀ pos line, mode.next pos c = mode ∧ mode.report pos line c = [])
    (rest : List Char) :
    mode.diagnose pos line (front ++ rest) =
      mode.diagnose (pos + size front) (line + newlines front) rest := by
  induction front generalizing pos line with
  | nil => rfl
  | cons c front ih =>
    obtain ⟨hnext, hreport⟩ := h c List.mem_cons_self pos line
    rw [List.cons_append, diagnose, hnext, hreport, List.nil_append,
      ih (fun d hd => h d (List.mem_cons_of_mem _ hd)), size_cons, newlines_cons_eq_add c front,
      Nat.add_assoc, Nat.add_assoc]

/-- A comment is passed up to its newline. -/
theorem diagnose_comment_append {body : List Char} (h : '\n' ∉ body) (rest : List Char) :
    comment.diagnose pos line (body ++ rest) =
      comment.diagnose (pos + size body) (line + newlines body) rest := by
  apply diagnose_append
  intro c hc pos line
  have hne : c ≠ '\n' := ne_of_mem_of_not_mem hc h
  exact ⟨if_neg hne, rfl⟩

/-- A string is passed up to the quote that closes it. -/
theorem diagnose_string_append (opened : Nat) {content : List Char} (h : '"' ∉ content)
    (rest : List Char) :
    (string opened).diagnose pos line (content ++ rest) =
      (string opened).diagnose (pos + size content) (line + newlines content) rest := by
  apply diagnose_append
  intro c hc pos line
  have hne : c ≠ '"' := ne_of_mem_of_not_mem hc h
  exact ⟨if_neg hne, rfl⟩

/-- Behind a slash that stands alone the automaton goes on as in code. -/
theorem diagnose_slash {rest : List Char} (h : rest.head? ≠ some '/') :
    slash.diagnose pos line rest = code.diagnose pos line rest := by
  cases rest with
  | nil => rfl
  | cons c rest =>
    have hc : c ≠ '/' := by simpa using h
    simp [diagnose, next, report, hc]

/-- At the newline or the end behind a comment the automaton goes on as in code. -/
theorem diagnose_comment {rest : List Char} (h : rest = [] ∨ rest.head? = some '\n') :
    comment.diagnose pos line rest = code.diagnose pos line rest := by
  rcases h with rfl | h
  · rfl
  · obtain ⟨behind, rfl⟩ := List.head?_eq_some_iff.1 h
    rfl

/-- A character that is passed in code without effect. -/
def IsPlain (c : Char) : Prop := admits c = true ∧ c ≠ '"' ∧ c ≠ '/'

/-- Plain characters open neither a string nor a comment, and open something. -/
theorem isPlain_iff {c : Char} : IsPlain c ↔
    Opening.ofChar c ≠ .stray ∧ Opening.ofChar c ≠ .quote ∧ Opening.ofChar c ≠ .slash := by
  rw [IsPlain, admits_iff, Ne, Ne, Ne, Ne, Ne, ← Opening.ofChar_eq_quote_iff,
    ← Opening.ofChar_eq_slash_iff]

/-- Digits are plain. -/
theorem isPlain_of_isDigit {c : Char} (h : c.isDigit = true) : IsPlain c := by
  apply isPlain_iff.2
  simp [Opening.ofChar_eq_digit_iff.2 h]

/-- What goes on a word is plain. -/
theorem isPlain_of_isWordChar {c : Char} (h : isWordChar c = true) : IsPlain c := by
  simp only [isWordChar, Char.isAlphanum, Bool.or_eq_true, beq_iff_eq] at h
  rcases h with (h | h) | h
  · apply isPlain_iff.2
    simp [Opening.ofChar_eq_letter_iff.2 (Or.inl h)]
  · exact isPlain_of_isDigit h
  · apply isPlain_iff.2
    simp [Opening.ofChar_eq_letter_iff.2 (Or.inr h)]

/-- Plain characters are passed in code. -/
theorem diagnose_plain (front : List Char) (h : ∀ c ∈ front, IsPlain c) (rest : List Char) :
    code.diagnose pos line (front ++ rest) =
      code.diagnose (pos + size front) (line + newlines front) rest := by
  apply diagnose_append
  intro c hc pos line
  obtain ⟨hadmits, hquote, hslash⟩ := h c hc
  simp [next, report, hadmits, hquote, hslash]

/-- A plain character is passed in code. -/
theorem diagnose_plain_cons {c : Char} (h : IsPlain c) (rest : List Char) :
    code.diagnose pos line (c :: rest) =
      code.diagnose (pos + size [c]) (line + newlines [c]) rest :=
  diagnose_plain [c] (by simpa using h) rest

/-- A comment is passed, and what is behind it is treated as code. -/
theorem diagnose_comment_cons {body rest : List Char} (hbody : '\n' ∉ body)
    (hrest : rest = [] ∨ rest.head? = some '\n') :
    code.diagnose pos line ('/' :: '/' :: body ++ rest) =
      code.diagnose (pos + size ('/' :: '/' :: body)) (line + newlines ('/' :: '/' :: body))
        rest := by
  have hsize : size ('/' :: '/' :: body) = 1 + 1 + size body := by
    rw [size_cons, size_cons, Nat.add_assoc]
    rfl
  have hlines : newlines ('/' :: '/' :: body) = newlines body := by
    rw [newlines_cons_of_ne (by decide), newlines_cons_of_ne (by decide)]
  change comment.diagnose (pos + 1 + 1) line (body ++ rest) = _
  rw [diagnose_comment_append hbody, diagnose_comment hrest, hsize, hlines]
  simp only [Nat.add_assoc]

/-- A string that is closed is passed. -/
theorem diagnose_string_cons {content : List Char} (hcontent : '"' ∉ content)
    (rest : List Char) :
    code.diagnose pos line ('"' :: (content ++ '"' :: rest)) =
      code.diagnose (pos + size ('"' :: content ++ ['"']))
        (line + newlines ('"' :: content ++ ['"'])) rest := by
  have hsize : size ('"' :: content ++ ['"']) = 1 + size content + 1 := by
    rw [size_append, size_cons]
    rfl
  have hlines : newlines ('"' :: content ++ ['"']) = newlines content := by
    rw [newlines_append, newlines_cons_of_ne (by decide)]
    rfl
  change (Mode.string pos).diagnose (pos + 1) line (content ++ '"' :: rest) = _
  rw [diagnose_string_append pos hcontent, hsize, hlines]
  simp only [diagnose, next, report, ← Nat.add_assoc]
  rfl

/-- A string that is not closed is the one report on what is left of the text. -/
theorem diagnose_openString {content : List Char} (hcontent : '"' ∉ content) :
    code.diagnose pos line ('"' :: content) =
      [⟨.unterminatedString, line + newlines ('"' :: content),
        ⟨pos, pos + size ('"' :: content)⟩⟩] := by
  have hsize : size ('"' :: content) = 1 + size content := size_cons '"' content
  have hlines : newlines ('"' :: content) = newlines content :=
    newlines_cons_of_ne (by decide) content
  have hpassed : (Mode.string pos).diagnose (pos + 1) line (content ++ []) = _ :=
    diagnose_string_append pos hcontent []
  rw [List.append_nil] at hpassed
  change (Mode.string pos).diagnose (pos + 1) line content = _
  rw [hpassed, diagnose, finish, hsize, hlines, Nat.add_assoc]

/-- A character that opens nothing is reported and passed. -/
theorem diagnose_stray {c : Char} (h : Opening.ofChar c = .stray) (rest : List Char) :
    code.diagnose pos line (c :: rest) =
      ⟨.unexpectedCharacter c, line + newlines [c], ⟨pos, pos + size [c]⟩⟩ ::
        code.diagnose (pos + size [c]) (line + newlines [c]) rest := by
  have hadmits : admits c = false := by
    rw [Bool.eq_false_iff, Ne, admits_iff, h]
    simp
  have hquote : c ≠ '"' := by
    rintro rfl
    cases h
  have hslash : c ≠ '/' := by
    rintro rfl
    cases h
  have hnewline : c ≠ '\n' := by
    rintro rfl
    cases h
  simp [diagnose, next, report, hadmits, hquote, hslash, newlines_cons_of_ne hnewline]

/-- The automaton reports the first piece if it is a problem, and goes on behind it in code. -/
theorem diagnose_firstPiece {c : Char} {text : List Char} {cut : Cut}
    (h : FirstPiece c text cut) :
    code.diagnose pos line (c :: text) = (Placed.mk cut.toPiece pos line).diagnostic?.toList ++
      code.diagnose (pos + size cut.text) (line + newlines cut.text) cut.rest := by
  cases h with
  | single hopening =>
    apply diagnose_plain_cons
    exact isPlain_iff.2 (by simp [hopening])
  | alone hopening hrest =>
    apply diagnose_plain_cons
    exact isPlain_iff.2 (by simp [hopening])
  | @followed _ _ _ rest hopening =>
    have hc : IsPlain c := isPlain_iff.2 (by simp [hopening])
    have hequal : IsPlain '=' := isPlain_iff.2 (by decide)
    exact diagnose_plain [c, '='] (by simp [hc, hequal]) rest
  | slash hrest =>
    change slash.diagnose _ _ _ = _
    rw [diagnose_slash hrest]
    rfl
  | comment hbody hrest => exact diagnose_comment_cons hbody hrest
  | blank hblank =>
    apply diagnose_plain_cons
    apply isPlain_iff.2
    rcases isBlank_iff.1 hblank with hopening | hopening <;> simp [hopening]
  | string hcontent => exact diagnose_string_cons hcontent _
  | openString hcontent => exact diagnose_openString hcontent
  | @whole _ digits rest hdigits hrest =>
    apply diagnose_plain (c :: digits)
    intro d hd
    exact isPlain_of_isDigit (hdigits.isDigit d hd)
  | @fraction _ digits part rest hdigits hpart hrest =>
    apply diagnose_plain (c :: digits ++ '.' :: part)
    intro d hd
    rcases (Numeral.fraction hdigits hpart).mem hd with hd | rfl
    · exact isPlain_of_isDigit hd
    · exact isPlain_iff.2 (by decide)
  | @word _ tail rest hopening htail hrest =>
    apply diagnose_plain (c :: tail)
    intro d hd
    rcases List.mem_cons.1 hd with rfl | hd
    · exact isPlain_of_isWordChar (Opening.isWordChar_of_ofChar hopening)
    · exact isPlain_of_isWordChar (htail d hd)
  | stray hopening => exact diagnose_stray hopening text

/-- Only the end of a text is reported as an open string. -/
theorem problem_ne_of_mem_report {mode : Mode} {c : Char} {diagnostic : Diagnostic}
    (h : diagnostic ∈ mode.report pos line c) : diagnostic.problem ≠ .unterminatedString := by
  cases mode <;> simp only [report, List.not_mem_nil] at h
  all_goals
    split at h
    · simp at h
    · obtain rfl := List.mem_singleton.1 h
      simp

/-- All reports are on single characters, but for one at the end on an open string. -/
theorem exists_diagnose_eq (mode : Mode) (pos line : Nat) (text : List Char) :
    ∃ strays last, mode.diagnose pos line text = strays ++ last ∧
      (∀ diagnostic ∈ strays, diagnostic.problem ≠ .unterminatedString) ∧ last.length ≤ 1 := by
  induction text generalizing mode pos line with
  | nil => exact ⟨[], mode.finish pos line, rfl, by simp, by cases mode <;> simp [finish]⟩
  | cons c text ih =>
    obtain ⟨strays, last, hdiagnose, hstrays, hlast⟩ :=
      ih (mode.next pos c) (pos + c.utf8Size) (line + newlines [c])
    refine ⟨mode.report pos line c ++ strays, last, ?_, ?_, hlast⟩
    · rw [diagnose, hdiagnose, List.append_assoc]
    · intro diagnostic hmem
      rcases List.mem_append.1 hmem with hmem | hmem
      · exact problem_ne_of_mem_report hmem
      · exact hstrays diagnostic hmem

/-- Only the last report can be on an open string. -/
theorem problem_ne_of_mem_dropLast {mode : Mode} {text : List Char} {diagnostic : Diagnostic}
    (h : diagnostic ∈ (mode.diagnose pos line text).dropLast) :
    diagnostic.problem ≠ .unterminatedString := by
  obtain ⟨strays, last, hdiagnose, hstrays, hlast⟩ := exists_diagnose_eq mode pos line text
  rw [hdiagnose] at h
  cases last with
  | nil =>
    rw [List.append_nil] at h
    exact hstrays diagnostic (List.dropLast_subset strays h)
  | cons final behind =>
    obtain rfl : behind = [] := List.eq_nil_of_length_eq_zero (by simpa using hlast)
    rw [List.dropLast_concat] at h
    exact hstrays diagnostic h

end Mode

/-- The diagnostics of a text are the reports of the automaton. -/
theorem diagnosticsFrom_eq_diagnose (pos line : Nat) (text : List Char) :
    diagnosticsFrom pos line text = Mode.code.diagnose pos line text := by
  induction text using pieces.induct generalizing pos line with
  | case1 => simp [Mode.diagnose, Mode.finish]
  | case2 c text ih => rw [diagnosticsFrom_cons, ih, firstPlaced,
      Mode.diagnose_firstPiece (FirstPiece.of c text)]

/-- The diagnostics of a source are the reports of the automaton, and decide whether it has any;
only the last one can be an open string. -/
theorem lex_diagnostics_eq_diagnose (text : String) (hsize : size text.toList ≤ maxWord)
    (hlines : newlines text.toList < maxWord) :
    ∃ lexing, lex text = .ok lexing ∧
      lexing.diagnostics = Mode.code.diagnose 0 1 text.toList ∧
      (lexing.hasDiagnostics = true ↔ Mode.code.diagnose 0 1 text.toList ≠ []) ∧
      ∀ diagnostic ∈ lexing.diagnostics.dropLast, diagnostic.problem ≠ .unterminatedString := by
  have hdiagnostics := diagnosticsFrom_eq_diagnose 0 1 text.toList
  refine ⟨_, lex_eq_ok hsize hlines, hdiagnostics, ?_, ?_⟩
  · simp [Lexing.hasDiagnostics, hdiagnostics]
  · intro diagnostic hmem
    rw [hdiagnostics] at hmem
    exact Mode.problem_ne_of_mem_dropLast hmem

/-- A quote in a comment opens nothing, and a slash in a string closes nothing. -/
theorem lex_diagnostics_of_quote_in_comment :
    ∃ lexing, lex "a//\"é\n/é\"/\n" = .ok lexing ∧
      lexing.diagnostics =
        [⟨.unexpectedCharacter 'é', 2, ⟨8, 10⟩⟩, ⟨.unterminatedString, 3, ⟨10, 13⟩⟩] := by
  obtain ⟨lexing, hlexing, hdiagnostics, -⟩ :=
    lex_diagnostics_eq_diagnose "a//\"é\n/é\"/\n" (by decide) (by decide)
  exact ⟨lexing, hlexing, hdiagnostics.trans (by decide)⟩

end LoxScan
