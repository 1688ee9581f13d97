import LoxScan.Proofs.Lead
import LoxScan.Proofs.Numeral
import LoxScan.Proofs.Runs

/-!
# Pieces of a text

A text falls into pieces: one for each token, each blank or newline, each comment, and each stray
character, the last one possibly a string that is never closed. The pieces depend on the
characters alone, not on offsets, lines or bytes, and concatenate to the text.
-/

namespace LoxScan

/-- The number of newlines in a text. -/
def newlines (text : List Char) : Nat := text.count '\n'

/-- An empty text has no newlines. -/
@[simp] theorem newlines_nil : newlines [] = 0 := rfl

/-- Newlines of two parts are added. -/
@[simp] theorem newlines_append (left right : List Char) :
    newlines (left ++ right) = newlines left + newlines right :=
  List.count_append

/-- A newline at the beginning counts one more. -/
theorem newlines_cons (c : Char) (text : List Char) :
    newlines (c :: text) = newlines text + if c = '\n' then 1 else 0 := by
  simp [newlines, List.count_cons]

/-- The newlines of a text are those of its first character and of the others. -/
theorem newlines_cons_eq_add (c : Char) (text : List Char) :
    newlines (c :: text) = newlines [c] + newlines text :=
  newlines_append [c] text

/-- A newline counts. -/
@[simp] theorem newlines_cons_self (text : List Char) :
    newlines ('\n' :: text) = newlines text + 1 := by
  rw [newlines_cons, if_pos rfl]

/-- A character that is no newline does not count. -/
theorem newlines_cons_of_ne {c : Char} (h : c ≠ '\n') (text : List Char) :
    newlines (c :: text) = newlines text := by
  rw [newlines_cons, if_neg h, Nat.add_zero]

/-- A text without newlines counts none. -/
theorem newlines_eq_zero {text : List Char} (h : '\n' ∉ text) : newlines text = 0 :=
  List.count_eq_zero.2 h

/-- No digit follows. -/
def NoDigit (rest : List Char) : Prop := rest.head?.any Char.isDigit = false

/-- A digit and the digits behind it are a run. -/
theorem Digits.cons_takeWhile {c : Char} (h : c.isDigit = true) (text : List Char) :
    Digits (c :: text.takeWhile Char.isDigit) := by
  refine ⟨by simp, ?_⟩
  intro d hd
  rcases List.mem_cons.1 hd with rfl | hd
  · exact h
  · exact List.mem_takeWhile_imp hd

/-- A run of digits begins with one. -/
theorem Digits.not_noDigit_append {text : List Char} (h : Digits text) (rest : List Char) :
    ¬ NoDigit (text ++ rest) := by
  intro hno
  cases text with
  | nil => exact h.ne_nil rfl
  | cons c text =>
    have hc : c.isDigit = false := by simpa [NoDigit] using hno
    rw [h.isDigit c List.mem_cons_self] at hc
    cases hc

/-- A stretch of a text that is read in one go, and what it is. -/
structure Piece where
  text : List Char
  finding : Finding
  deriving DecidableEq, Repr

/-- The first piece of a text and the characters behind it. -/
structure Cut extends Piece where
  rest : List Char
  deriving DecidableEq, Repr

namespace Cut

/-- The point and the digits that belong to a number in front of a text, and the rest. -/
def fraction : List Char → List Char × List Char
  | '.' :: text =>
    if text.head?.any Char.isDigit then
      ('.' :: text.takeWhile Char.isDigit, text.dropWhile Char.isDigit)
    else
      ([], '.' :: text)
  | text => ([], text)

/-- The value of a numeral. -/
def numeralValue (numeral : List Char) : Literal :=
  .number ((Decimal.ofNumeral? numeral).getD ⟨0, 0⟩).nearest

/-- The number that a digit and the text behind it begin with. -/
def number (digit : Char) (text : List Char) : Cut :=
  let (point, rest) := fraction (text.dropWhile Char.isDigit)
  let numeral := digit :: text.takeWhile Char.isDigit ++ point
  ⟨⟨numeral, .token .number (numeralValue numeral)⟩, rest⟩

/-- The string that a quote and the text behind it begin with. -/
def string (quote : Char) (text : List Char) : Cut :=
  let content := text.takeWhile (· != '"')
  match text.dropWhile (· != '"') with
  | [] => ⟨⟨quote :: content, .problem .unterminatedString⟩, []⟩
  | close :: rest =>
    ⟨⟨quote :: content ++ [close], .token .string (.text (String.ofList content))⟩, rest⟩

/-- The word that a letter and the text behind it begin with. -/
def word (letter : Char) (text : List Char) : Cut :=
  let spelling := letter :: text.takeWhile isWordChar
  ⟨⟨spelling, .token (.ofWord (String.ofList spelling)) .none⟩, text.dropWhile isWordChar⟩

/-- An operator, with the equal sign that follows it. -/
def withEqual (c : Char) (alone followed : Kind) : List Char → Cut
  | '=' :: rest => ⟨⟨[c, '='], .token followed .none⟩, rest⟩
  | text => ⟨⟨[c], .token alone .none⟩, text⟩

/-- A slash, or the comment that two slashes begin. -/
def slash (c : Char) : List Char → Cut
  | '/' :: text =>
    ⟨⟨c :: '/' :: text.takeWhile (· != '\n'), .trivia⟩, text.dropWhile (· != '\n')⟩
  | text => ⟨⟨[c], .token .slash .none⟩, text⟩

/-- The first piece of a text of at least one character. -/
def of (c : Char) (text : List Char) : Cut :=
  match Opening.ofChar c with
  | .single kind => ⟨⟨[c], .token kind .none⟩, text⟩
  | .withEqual alone followed => withEqual c alone followed text
  | .slash => slash c text
  | .blank => ⟨⟨[c], .trivia⟩, text⟩
  | .newline => ⟨⟨[c], .trivia⟩, text⟩
  | .quote => string c text
  | .digit => number c text
  | .letter => word c text
  | .stray => ⟨⟨[c], .problem (.unexpectedCharacter c)⟩, text⟩

/-- Without an equal sign behind it a character is a token alone. -/
theorem withEqual_of_head?_ne (c : Char) (alone followed : Kind) {text : List Char}
    (h : text.head? ≠ some '=') :
    withEqual c alone followed text = ⟨⟨[c], .token alone .none⟩, text⟩ := by
  unfold withEqual
  split
  · simp at h
  · rfl

/-- A slash without another behind it is a token. -/
theorem slash_of_head?_ne (c : Char) {text : List Char} (h : text.head? ≠ some '/') :
    slash c text = ⟨⟨[c], .token .slash .none⟩, text⟩ := by
  unfold slash
  split
  · simp at h
  · rfl

/-- Without a point there is no fraction. -/
theorem fraction_of_head?_ne {text : List Char} (h : text.head? ≠ some '.') :
    fraction text = ([], text) := by
  unfold fraction
  split
  · simp at h
  · rfl

/-- A fraction and what is behind it are the whole text. -/
theorem fraction_append (text : List Char) : (fraction text).1 ++ (fraction text).2 = text := by
  unfold fraction
  split
  · split
    · simp
    · rfl
  · rfl

/-- A point is taken with the digits behind it, or nothing is. -/
theorem fraction_cases (text : List Char) :
    (∀ more, text = '.' :: more → NoDigit more) ∧ fraction text = ([], text) ∨
      ∃ part rest, text = '.' :: (part ++ rest) ∧ Digits part ∧ NoDigit rest ∧
        fraction text = ('.' :: part, rest) := by
  by_cases hpoint : text.head? = some '.'
  · obtain ⟨more, rfl⟩ := List.head?_eq_some_iff.1 hpoint
    by_cases hdigit : more.head?.any Char.isDigit = true
    · refine Or.inr ⟨more.takeWhile Char.isDigit, more.dropWhile Char.isDigit, ?_, ?_,
        any_head?_dropWhile Char.isDigit more, by simp [fraction, hdigit]⟩
      · rw [List.takeWhile_append_dropWhile]
      · cases more with
        | nil => simp at hdigit
        | cons d more =>
          have hd : d.isDigit = true := by simpa using hdigit
          rw [List.takeWhile_cons_of_pos hd]
          exact Digits.cons_takeWhile hd more
    · refine Or.inl ⟨?_, by simp [fraction, hdigit]⟩
      rintro _ ⟨⟩
      exact Bool.eq_false_iff.2 hdigit
  · refine Or.inl ⟨?_, fraction_of_head?_ne hpoint⟩
    rintro more rfl
    exact absurd rfl hpoint

/-- What is cut off as a number is a numeral. -/
theorem numeral_number {digit : Char} (h : digit.isDigit = true) (text : List Char) :
    Numeral (number digit text).text := by
  have hwhole := Digits.cons_takeWhile h text
  rcases fraction_cases (text.dropWhile Char.isDigit) with
    ⟨-, hfraction⟩ | ⟨part, rest, -, hpart, -, hfraction⟩
  · simpa [number, hfraction] using Numeral.whole hwhole
  · simpa [number, hfraction] using Numeral.fraction hwhole hpart

/-- A numeral and what is behind it are the whole text. -/
theorem text_number_append (digit : Char) (text : List Char) :
    (number digit text).text ++ (number digit text).rest = digit :: text := by
  simp [number, List.append_assoc, fraction_append]

/-- A numeral is found to be a number. -/
theorem finding_number (digit : Char) (text : List Char) :
    (number digit text).finding = .token .number (numeralValue (number digit text).text) := rfl

/-- A word and what is behind it are the whole text. -/
theorem text_word_append (letter : Char) (text : List Char) :
    (word letter text).text ++ (word letter text).rest = letter :: text := by
  simp [word]

/-- What is cut off as a word holds word characters only. -/
theorem isWordChar_of_mem_word {letter c : Char} (h : isWordChar letter = true)
    {text : List Char} (hc : c ∈ (word letter text).text) : isWordChar c = true := by
  rcases List.mem_cons.1 hc with rfl | hc
  · exact h
  · exact List.mem_takeWhile_imp hc

/-- A string and what is behind it are the whole text. -/
theorem text_string_append (quote : Char) (text : List Char) :
    (string quote text).text ++ (string quote text).rest = quote :: text := by
  have h := List.takeWhile_append_dropWhile (p := (· != '"')) (l := text)
  unfold string
  split
  · next hdrop => simpa [hdrop] using h
  · next hdrop => simpa [hdrop] using h

/-- The first piece begins with the first character. -/
theorem text_of_eq_cons (c : Char) (text : List Char) :
    ∃ tail, (of c text).text = c :: tail := by
  unfold of
  split
  · exact ⟨_, rfl⟩
  · unfold withEqual
    split <;> exact ⟨_, rfl⟩
  · unfold slash
    split <;> exact ⟨_, rfl⟩
  · exact ⟨_, rfl⟩
  · exact ⟨_, rfl⟩
  · unfold string
    split <;> exact ⟨_, rfl⟩
  · exact ⟨_, rfl⟩
  · exact ⟨_, rfl⟩
  · exact ⟨_, rfl⟩

/-- The first piece and what is behind it make up the text. -/
theorem text_of_append_rest (c : Char) (text : List Char) :
    (of c text).text ++ (of c text).rest = c :: text := by
  unfold of
  split
  · rfl
  · unfold withEqual
    split <;> rfl
  · unfold slash
    split
    · simp
    · rfl
  · rfl
  · rfl
  · exact text_string_append c text
  · exact text_number_append c text
  · exact text_word_append c text
  · rfl

/-- Something is cut off. -/
theorem length_rest_of_lt (c : Char) (text : List Char) :
    (of c text).rest.length < (c :: text).length := by
  obtain ⟨tail, htext⟩ := text_of_eq_cons c text
  have h := congrArg List.length (text_of_append_rest c text)
  simp only [htext, List.length_append, List.length_cons] at h
  simp only [List.length_cons]
  omega

end Cut

/-- The pieces of a text in order. -/
def pieces : List Char → List Piece
  | [] => []
  | c :: text => (Cut.of c text).toPiece :: pieces (Cut.of c text).rest
termination_by text => text.length
decreasing_by exact Cut.length_rest_of_lt c text

/-- An empty text has no pieces. -/
@[simp] theorem pieces_nil : pieces [] = [] := by
  rw [pieces]

/-- The pieces of a text are its first one and those of the rest. -/
theorem pieces_cons (c : Char) (text : List Char) :
    pieces (c :: text) = (Cut.of c text).toPiece :: pieces (Cut.of c text).rest := by
  rw [pieces]

/-- No character is lost or duplicated. -/
theorem flatMap_pieces (text : List Char) : (pieces text).flatMap (·.text) = text := by
  induction text using pieces.induct with
  | case1 => simp
  | case2 c text ih => rw [pieces_cons, List.flatMap_cons, ih, Cut.text_of_append_rest]

end LoxScan
