import LoxScan.Cursor
import LoxScan.Diagnostic
import LoxScan.Token.Basic

/-!
# Lexemes

The first byte of a lexeme decides what is read; two bytes of lookahead decide how far. Reading a
lexeme yields where it stops, the line there, and what was found: a token, trivia (blanks,
newlines and comments), or a problem. It passes at least the first byte.
-/

namespace LoxScan

/-- What the first byte of a lexeme opens. -/
inductive Opening where
  /-- A token of one character. -/
  | single (kind : Kind)
  /-- A token of one character, or another if an equal sign follows. -/
  | withEqual (alone followed : Kind)
  /-- A slash or a comment. -/
  | slash
  | blank
  | newline
  | quote
  | digit
  | letter
  /-- Nothing. -/
  | stray
  deriving DecidableEq, Repr

/-- What a character opens. Characters beyond ASCII open nothing. -/
def Opening.ofChar (c : Char) : Opening :=
  match c with
  | '(' => single .leftParen
  | ')' => single .rightParen
  | '{' => single .leftBrace
  | '}' => single .rightBrace
  | ',' => single .comma
  | '.' => single .dot
  | '-' => single .minus
  | '+' => single .plus
  | ';' => single .semicolon
  | '*' => single .star
  | '!' => withEqual .bang .bangEqual
  | '=' => withEqual .equal .equalEqual
  | '<' => withEqual .less .lessEqual
  | '>' => withEqual .greater .greaterEqual
  | '/' => slash
  | ' ' | '\t' | '\r' => blank
  | '\n' => newline
  | '"' => quote
  | c => if c.isDigit then digit else if c.isAlpha || c == '_' then letter else stray

/-- What a byte opens. Bytes beyond ASCII open nothing. -/
def Opening.ofByte (byte : UInt8) : Opening := ofChar (Char.ofUInt8 byte)

/-- Whether a byte is an ASCII digit. -/
def isDigitByte (byte : UInt8) : Bool := (Char.ofUInt8 byte).isDigit

/-- Whether a character can go on a word: an ASCII letter, a digit or an underscore. -/
def isWordChar (c : Char) : Bool := c.isAlphanum || c == '_'

/-- Whether a byte can go on a word. -/
def isWordByte (byte : UInt8) : Bool := isWordChar (Char.ofUInt8 byte)

/-- What a lexeme turned out to be. -/
inductive Finding where
  | token (kind : Kind) (literal : Literal)
  | trivia
  | problem (problem : Problem)
  deriving DecidableEq, Repr

/-- A lexeme that was read: where it stops, the line there, and what it is. -/
structure Reading where
  stop : Cursor
  line : Nat
  finding : Finding
  deriving DecidableEq, Repr

/-- The line after a newline. -/
def nextLine (line : Nat) : Except Fault Nat :=
  if line < maxWord then .ok (line + 1) else .error .addOverflow

/-- Goes on to the closing quote of a string, over newlines, which it counts. -/
def closeString (cursor : Cursor) (line : Nat) : Except Fault (Option Char × Cursor × Nat) :=
  match _ : cursor.toQuoteOrNewline with
  | (some '\n', atNewline) =>
    match _ : atNewline.advance with
    | .ok next =>
      match nextLine line with
      | .ok below => closeString next below
      | .error fault => .error fault
    | .error fault => .error fault
  | (found, stop) => .ok (found, stop, line)
termination_by cursor.remaining
decreasing_by
  next hjump hadvance =>
    have hle := Cursor.remaining_toQuoteOrNewline cursor
    have hlt := Cursor.remaining_advance hadvance
    rw [hjump] at hle
    simp only at hle
    omega

namespace Reading

/-- Reads a string whose opening quote was passed. -/
def string (after : Cursor) (line : Nat) : Except Fault Reading :=
  match closeString after line with
  | .error fault => .error fault
  | .ok (none, stop, line) => .ok ⟨stop, line, .problem .unterminatedString⟩
  | .ok (some _, atQuote, line) => do
    let stop ← atQuote.advance
    let content ← after.textTo atQuote
    return ⟨stop, line, .token .string (.text (String.ofList content))⟩

/-- The end of a number whose first digit was passed. A point belongs to it only if a digit
follows. -/
def numberEnd (after : Cursor) : Except Fault Cursor :=
  let whole := after.eatWhile isDigitByte
  if whole.current == '.'.toUInt8 && isDigitByte whole.peek then
    match whole.advance with
    | .ok point => .ok (point.eatWhile isDigitByte)
    | .error fault => .error fault
  else
    .ok whole

/-- Reads a number that begins at `start` and whose first digit was passed. -/
def number (start after : Cursor) (line : Nat) : Except Fault Reading := do
  let stop ← numberEnd after
  let text ← start.textTo stop
  match Decimal.ofNumeral? text with
  | some decimal => return ⟨stop, line, .token .number (.number decimal.nearest)⟩
  | none => throw .unreadableNumber

/-- Reads a word that begins at `start` and whose first letter was passed. -/
def word (start after : Cursor) (line : Nat) : Except Fault Reading := do
  let stop := after.eatWhile isWordByte
  let text ← start.textTo stop
  return ⟨stop, line, .token (.ofWord (String.ofList text)) .none⟩

/-- Reads a character that begins no lexeme and of which the byte `lead` was passed. -/
def stray (start : Cursor) (lead : UInt8) (after : Cursor) (line : Nat) :
    Except Fault Reading := do
  let stop ← after.advanceBy (Utf8.leadWidth lead - 1)
  let text ← start.textTo stop
  return ⟨stop, line, .problem (.unexpectedCharacter (text.head?.getD '\x00'))⟩

/-- Reads the lexeme that begins at `start` with the byte `first`; `after` stands behind it. -/
def of (start : Cursor) (first : UInt8) (after : Cursor) (line : Nat) : Except Fault Reading :=
  match Opening.ofByte first with
  | .single kind => .ok ⟨after, line, .token kind .none⟩
  | .withEqual alone followed =>
    match after.eat '='.toUInt8 with
    | (true, stop) => .ok ⟨stop, line, .token followed .none⟩
    | (false, stop) => .ok ⟨stop, line, .token alone .none⟩
  | .slash =>
    match after.eat '/'.toUInt8 with
    | (true, comment) => .ok ⟨comment.toNewline, line, .trivia⟩
    | (false, stop) => .ok ⟨stop, line, .token .slash .none⟩
  | .blank => .ok ⟨after, line, .trivia⟩
  | .newline =>
    match nextLine line with
    | .ok line => .ok ⟨after, line, .trivia⟩
    | .error fault => .error fault
  | .quote => string after line
  | .digit => number start after line
  | .letter => word start after line
  | .stray => stray start first after line

end Reading

/-- The search for the closing quote never goes back. -/
theorem remaining_closeString {cursor stop : Cursor} {line below : Nat} {found : Option Char}
    (h : closeString cursor line = .ok (found, stop, below)) :
    stop.remaining ≤ cursor.remaining := by
  fun_induction closeString cursor line with
  | case1 cursor line atNewline hjump next hadvance below' hline ih =>
    have hle := Cursor.remaining_toQuoteOrNewline cursor
    rw [hjump] at hle
    have := Cursor.remaining_advance hadvance
    have := ih h
    simp only at hle
    omega
  | case2 => cases h
  | case3 => cases h
  | case4 cursor line found stop _ hjump =>
    cases h
    have hle := Cursor.remaining_toQuoteOrNewline cursor
    rwa [hjump] at hle

namespace Reading

/-- A string is read forwards. -/
theorem remaining_string {after : Cursor} {line : Nat} {reading : Reading}
    (h : string after line = .ok reading) : reading.stop.remaining ≤ after.remaining := by
  unfold string at h
  split at h
  · cases h
  · next hclose =>
    cases h
    exact remaining_closeString hclose
  · next atQuote _ hclose =>
    obtain ⟨stop, hadvance, h⟩ := bind_eq_ok_iff.1 h
    obtain ⟨content, _, h⟩ := bind_eq_ok_iff.1 h
    cases h
    have := remaining_closeString hclose
    have := Cursor.remaining_advance hadvance
    simp only
    omega

/-- The end of a numeral is not in front of its beginning. -/
theorem remaining_numberEnd {after stop : Cursor} (h : numberEnd after = .ok stop) :
    stop.remaining ≤ after.remaining := by
  unfold numberEnd at h
  have hwhole := Cursor.remaining_eatWhile isDigitByte after
  simp only at h
  split at h
  · split at h
    · next point hadvance =>
      cases h
      have := Cursor.remaining_advance hadvance
      have := Cursor.remaining_eatWhile isDigitByte point
      omega
    · cases h
  · cases h
    exact hwhole

/-- A numeral is read forwards. -/
theorem remaining_number {start after : Cursor} {line : Nat} {reading : Reading}
    (h : number start after line = .ok reading) :
    reading.stop.remaining ≤ after.remaining := by
  obtain ⟨stop, hend, h⟩ := bind_eq_ok_iff.1 h
  obtain ⟨text, _, h⟩ := bind_eq_ok_iff.1 h
  split at h
  · cases h
    exact remaining_numberEnd hend
  · cases h

/-- A word is read forwards. -/
theorem remaining_word {start after : Cursor} {line : Nat} {reading : Reading}
    (h : word start after line = .ok reading) : reading.stop.remaining ≤ after.remaining := by
  obtain ⟨text, _, h⟩ := bind_eq_ok_iff.1 h
  cases h
  exact Cursor.remaining_eatWhile isWordByte after

/-- A stray character is read forwards. -/
theorem remaining_stray {start after : Cursor} {lead : UInt8} {line : Nat} {reading : Reading}
    (h : stray start lead after line = .ok reading) :
    reading.stop.remaining ≤ after.remaining := by
  obtain ⟨stop, hadvance, h⟩ := bind_eq_ok_iff.1 h
  obtain ⟨text, _, h⟩ := bind_eq_ok_iff.1 h
  cases h
  exact Cursor.remaining_advanceBy hadvance

/-- Reading a lexeme never goes back behind its first byte. -/
theorem remaining_of {start after : Cursor} {first : UInt8} {line : Nat} {reading : Reading}
    (h : of start first after line = .ok reading) :
    reading.stop.remaining ≤ after.remaining := by
  unfold of at h
  split at h
  · cases h
    exact Nat.le_refl _
  · have hle := Cursor.remaining_eat after '='.toUInt8
    split at h <;> next heat => cases h; rwa [heat] at hle
  · have hle := Cursor.remaining_eat after '/'.toUInt8
    split at h
    · next comment heat =>
      cases h
      rw [heat] at hle
      exact Nat.le_trans (Cursor.remaining_skipTo _ comment) hle
    · next heat =>
      cases h
      rwa [heat] at hle
  · cases h
    exact Nat.le_refl _
  · split at h
    · cases h
      exact Nat.le_refl _
    · cases h
  · exact remaining_string h
  · exact remaining_number h
  · exact remaining_word h
  · exact remaining_stray h

end Reading

end LoxScan
