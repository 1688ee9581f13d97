import LoxScan.Span

/-!
# Diagnostics

A diagnostic is a remark on the source: what is wrong, on which line it was found, and where. It
is recorded and never stops the reading of the source.
-/

namespace LoxScan

/-- What can be wrong with a source. -/
inductive Problem where
  /-- The source ends before the closing quote of a string. -/
  | unterminatedString
  /-- A character that begins no lexeme. -/
  | unexpectedCharacter (found : Char)
  deriving DecidableEq, Repr

/-- The message for a problem. -/
def Problem.message : Problem → String
  | unterminatedString => "Unterminated string."
  | unexpectedCharacter _ => "Unexpected character."

/-- A problem with its place. -/
structure Diagnostic where
  problem : Problem
  line : Nat
  span : Span
  deriving DecidableEq, Repr

namespace Diagnostic

/-- The message without the place. -/
def message (diagnostic : Diagnostic) : String := diagnostic.problem.message

/-- The reported line: the number of the line and the message. -/
def toText (diagnostic : Diagnostic) : String :=
  s!"[line {diagnostic.line}] Error: {diagnostic.message}"

end Diagnostic

end LoxScan
