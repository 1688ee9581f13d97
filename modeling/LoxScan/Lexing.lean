import LoxScan.Scanner

/-!
# Lexing a whole source

All tokens of a source up to its end-of-file token, and all its diagnostics, in source order.
Malformed input is reported by diagnostics only. Lexing has no result for a source whose offsets
or lines are not words.
-/

namespace LoxScan

/-- The tokens and diagnostics of a source. -/
structure Lexing where
  tokens : Tokens := {}
  diagnostics : List Diagnostic := []
  deriving DecidableEq, Repr

namespace Lexing

/-- Whether there are diagnostics. -/
def hasDiagnostics (lexing : Lexing) : Bool := !lexing.diagnostics.isEmpty

/-- Whether two results agree, number values compared as numbers. -/
def agrees (left right : Lexing) : Bool :=
  left.tokens.agrees right.tokens && left.diagnostics == right.diagnostics

end Lexing

namespace Scanner

/-- Adds the tokens ahead to some tokens, up to the end-of-file token. -/
def drainInto (scanner : Scanner) (tokens : Tokens) : Except Fault Lexing :=
  match _ : scanner.next with
  | .error fault => .error fault
  | .ok (token, behind) =>
    if token.kind = .endOfFile then
      .ok ⟨tokens.push token, behind.diagnostics.toList⟩
    else
      behind.drainInto (tokens.push token)
termination_by scanner.cursor.remaining
decreasing_by exact remaining_next ‹_› ‹_›

/-- All that is ahead of a scanner. -/
def drain (scanner : Scanner) : Except Fault Lexing := scanner.drainInto {}

end Scanner

/-- The tokens and diagnostics of a text. -/
def lex (text : String) : Except Fault Lexing := do
  let source ← Source.ofString text
  (Scanner.start source.cursor).drain

end LoxScan
