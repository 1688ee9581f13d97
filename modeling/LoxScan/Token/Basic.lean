import LoxScan.Span
import LoxScan.Token.Kind
import LoxScan.Token.Literal

/-!
# Tokens

A token is one classified lexeme: its kind, its text as written, its value, the line on which it
begins and the span that it covers.
-/

namespace LoxScan

/-- A classified lexeme. -/
structure Token where
  kind : Kind
  lexeme : String
  literal : Literal
  line : Nat
  span : Span
  deriving DecidableEq, Repr

namespace Token

/-- The token that marks the end of a source: an empty lexeme at an offset. -/
def endOfFile (line offset : Nat) : Token :=
  ⟨.endOfFile, "", .none, line, .point offset⟩

/-- The printed line of a token: the name of its kind, its lexeme and its value. A token without
a value ends in a space. -/
def toText (token : Token) : String :=
  token.kind.name ++ " " ++ token.lexeme ++ " " ++ token.literal.toText

/-- Whether two tokens are equal, number values compared as numbers. -/
def agrees (left right : Token) : Bool :=
  left.kind == right.kind && left.lexeme == right.lexeme && left.literal.agrees right.literal &&
    left.line == right.line && left.span == right.span

end Token

end LoxScan
