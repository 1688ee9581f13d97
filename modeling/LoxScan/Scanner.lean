import LoxScan.Lexeme
import LoxScan.Token.Tokens

/-!
# Scanners

A scanner hands out the tokens ahead of a cursor one by one. Diagnostics are recorded on the way
to the next token, so those behind the last token handed out are not known yet. Nothing but the
position and the line is carried from one lexeme to the next.
-/

namespace LoxScan

/-- A cursor between two lexemes, the line there, and the diagnostics so far. -/
structure Scanner where
  cursor : Cursor
  line : Nat
  diagnostics : Array Diagnostic

namespace Scanner

/-- The scanner at a cursor. Lines count from one there. -/
def start (cursor : Cursor) : Scanner := ⟨cursor, 1, #[]⟩

/-- The token that a reading found, with the text and the span that it covers. -/
def token (scanner : Scanner) (reading : Reading) (kind : Kind) (literal : Literal) :
    Except Fault Token := do
  let span ← Span.make scanner.cursor.pos reading.stop.pos
  let text ← scanner.cursor.textTo reading.stop
  return ⟨kind, String.ofList text, literal, scanner.line, span⟩

/-- The scanner after a reading. -/
def move (scanner : Scanner) (reading : Reading) : Scanner :=
  { scanner with cursor := reading.stop, line := reading.line }

/-- Records the problem that a reading found, on the line where it stopped, and moves on. -/
def record (scanner : Scanner) (reading : Reading) (problem : Problem) :
    Except Fault Scanner := do
  let span ← Span.make scanner.cursor.pos reading.stop.pos
  return { scanner.move reading with
    diagnostics := scanner.diagnostics.push ⟨problem, reading.line, span⟩ }

/-- A scanner that records a problem goes to where the reading ends. -/
theorem cursor_record {scanner recorded : Scanner} {reading : Reading} {problem : Problem}
    (h : scanner.record reading problem = .ok recorded) : recorded.cursor = reading.stop := by
  obtain ⟨span, _, h⟩ := bind_eq_ok_iff.1 h
  cases h
  rfl

/-- The next token and the scanner behind it. At the end this is the end-of-file token, again and
again. -/
def next (scanner : Scanner) : Except Fault (Token × Scanner) :=
  match _ : scanner.cursor.step? with
  | none => .ok (.endOfFile scanner.line scanner.cursor.pos, scanner)
  | some (first, after) =>
    match _ : Reading.of scanner.cursor first after scanner.line with
    | .error fault => .error fault
    | .ok reading =>
      match reading.finding with
      | .token kind literal =>
        match scanner.token reading kind literal with
        | .ok token => .ok (token, scanner.move reading)
        | .error fault => .error fault
      | .trivia => (scanner.move reading).next
      | .problem problem =>
        match _ : scanner.record reading problem with
        | .ok recorded => recorded.next
        | .error fault => .error fault
termination_by scanner.cursor.remaining
decreasing_by
  · next hstep hreading =>
    have := Cursor.remaining_of_step? hstep
    have := Reading.remaining_of hreading
    simp only [move]
    omega
  · next hstep hreading hrecord =>
    have := Cursor.remaining_of_step? hstep
    have := Reading.remaining_of hreading
    rw [cursor_record hrecord]
    omega

/-- A token other than the end of file takes at least one byte. -/
theorem remaining_next {scanner behind : Scanner} {token : Token}
    (h : scanner.next = .ok (token, behind)) (hkind : token.kind ≠ .endOfFile) :
    behind.cursor.remaining < scanner.cursor.remaining := by
  fun_induction next scanner with
  | case1 =>
    cases h
    exact absurd rfl hkind
  | case2 => cases h
  | case3 scanner first after hstep reading hreading kind literal hfinding token' htoken =>
    cases h
    have := Cursor.remaining_of_step? hstep
    have := Reading.remaining_of hreading
    simp only [move]
    omega
  | case4 => cases h
  | case5 scanner first after hstep reading hreading hfinding ih =>
    have := ih h
    have := Cursor.remaining_of_step? hstep
    have := Reading.remaining_of hreading
    simp only [move] at *
    omega
  | case6 scanner first after hstep reading hreading problem hfinding recorded hrecord ih =>
    have := ih h
    have := Cursor.remaining_of_step? hstep
    have := Reading.remaining_of hreading
    rw [cursor_record hrecord] at *
    omega
  | case7 => cases h

end Scanner

end LoxScan
