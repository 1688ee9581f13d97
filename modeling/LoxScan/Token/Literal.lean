import LoxScan.Number.Layout

/-!
# Values of literals

A string token carries the text between its quotes as written, a number token the floating-point
number nearest to its numeral. Comparison of values is numeric: the two zeros agree, and what is
not a number agrees with nothing.
-/

namespace LoxScan

/-- The value that a token carries. -/
inductive Literal where
  | none
  | text (content : String)
  | number (value : Binary64)
  deriving DecidableEq, Repr

namespace Literal

/-- The text of a string value. -/
def text? : Literal → Option String
  | text content => some content
  | _ => Option.none

/-- The number of a number value. -/
def number? : Literal → Option Binary64
  | number value => some value
  | _ => Option.none

/-- The printed form: nothing, the text as it is, or the number in plain notation. -/
def toText : Literal → String
  | none => ""
  | text content => content
  | number value => value.plain

/-- Whether two values are equal, numbers compared as numbers. -/
def agrees : Literal → Literal → Bool
  | none, none => true
  | text left, text right => left == right
  | number left, number right => left.numericEq right
  | _, _ => false

end Literal

end LoxScan
