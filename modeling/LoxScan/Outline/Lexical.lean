import LoxScan.Diagnostic
import LoxScan.Outline
import LoxScan.Token.Tokens

/-!
# Outlines of tokens and diagnostics

Each type lists its parts in a fixed order; kinds and problems stand for themselves by label.
-/

namespace LoxScan

open Outline

/-- The outline of a span: its range. -/
def Span.outline (span : Span) : Outline := leaf span.toText

/-- The outline of a value. -/
def Literal.outline : Literal → Outline
  | .none => leaf "None"
  | .text content => wrapped "String" (quoted content)
  | .number value => wrapped "Number" (leaf value.mixed)

/-- The outline of a token. -/
def Token.outline (token : Token) : Outline :=
  record "Token"
    [field "kind" (leaf token.kind.label), field "lexeme" (quoted token.lexeme),
      field "literal" token.literal.outline, field "line" (leaf (toString token.line)),
      field "span" token.span.outline]

/-- The outline of a sequence of tokens. -/
def Tokens.outline (tokens : Tokens) : Outline := list (tokens.toList.map Token.outline)

/-- The outline of a problem. -/
def Problem.outline : Problem → Outline
  | .unterminatedString => leaf "UnterminatedString"
  | .unexpectedCharacter found =>
    record "UnexpectedCharacter" [field "found" (quotedChar found)]

/-- The outline of a diagnostic. -/
def Diagnostic.outline (diagnostic : Diagnostic) : Outline :=
  record "LexError"
    [field "kind" diagnostic.problem.outline, field "line" (leaf (toString diagnostic.line)),
      field "span" diagnostic.span.outline]

end LoxScan
