import LoxScan.Token.Basic

/-!
# Sequences of tokens

Tokens in source order. A sequence that comes from a source is never empty and ends with its one
end-of-file token; a sequence made by hand need not.
-/

namespace LoxScan

/-- Tokens in order. -/
structure Tokens where
  toArray : Array Token := #[]
  deriving DecidableEq, Repr

namespace Tokens

/-- The sequence of the tokens of a list. -/
def ofList (tokens : List Token) : Tokens := ⟨tokens.toArray⟩

/-- The tokens as a list. -/
def toList (tokens : Tokens) : List Token := tokens.toArray.toList

/-- The number of tokens. -/
def size (tokens : Tokens) : Nat := tokens.toArray.size

/-- Whether there are no tokens. -/
def isEmpty (tokens : Tokens) : Bool := tokens.toArray.isEmpty

/-- The sequence with one more token at its end. -/
def push (tokens : Tokens) (token : Token) : Tokens := ⟨tokens.toArray.push token⟩

/-- The final token, if there is one. -/
def last? (tokens : Tokens) : Option Token := tokens.toArray.back?

/-- The token at an index, counted from zero. -/
def get (tokens : Tokens) (index : Nat) : Except Fault Token :=
  match tokens.toArray[index]? with
  | some token => .ok token
  | none => .error (.indexOutOfBounds tokens.size index)

/-- The kinds of the tokens. -/
def kinds (tokens : Tokens) : List Kind := tokens.toList.map (·.kind)

/-- Whether two sequences agree token by token and are equally long. -/
def agrees (left right : Tokens) : Bool := left.toArray.isEqv right.toArray Token.agrees

/-- A new sequence has no tokens. -/
@[simp] theorem toList_empty : ({} : Tokens).toList = [] := rfl

/-- A token that is pushed comes last. -/
@[simp] theorem toList_push (tokens : Tokens) (token : Token) :
    (tokens.push token).toList = tokens.toList ++ [token] := by
  simp [toList, push]

/-- A list is found again in its sequence. -/
@[simp] theorem toList_ofList (tokens : List Token) : (ofList tokens).toList = tokens := by
  simp [toList, ofList]

/-- A sequence is as long as its list. -/
@[simp] theorem length_toList (tokens : Tokens) : tokens.toList.length = tokens.size := by
  simp [toList, size]

/-- One more token at the end, as a list. -/
theorem push_eq_ofList (tokens : Tokens) (token : Token) :
    tokens.push token = ofList (tokens.toList ++ [token]) := by
  apply congrArg mk
  apply Array.toList_inj.1
  simp [toList]

end Tokens

end LoxScan
