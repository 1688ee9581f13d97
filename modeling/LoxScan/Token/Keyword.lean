/-!
# Reserved words

The reserved words are given three times: by the spelling of each, as a table, and as a look-up
that compares a text only with the words of its length. A text that is no reserved word, be it a
longer word or one in other case, is not found.
-/

namespace LoxScan

/-- The reserved words. -/
inductive Keyword where
  | andWord
  | classWord
  | elseWord
  | falseWord
  | forWord
  | funWord
  | ifWord
  | nilWord
  | orWord
  | printWord
  | returnWord
  | superWord
  | thisWord
  | trueWord
  | varWord
  | whileWord
  deriving DecidableEq, Repr

namespace Keyword

/-- How a reserved word is written in a source. -/
def spelling : Keyword → String
  | andWord => "and"
  | classWord => "class"
  | elseWord => "else"
  | falseWord => "false"
  | forWord => "for"
  | funWord => "fun"
  | ifWord => "if"
  | nilWord => "nil"
  | orWord => "or"
  | printWord => "print"
  | returnWord => "return"
  | superWord => "super"
  | thisWord => "this"
  | trueWord => "true"
  | varWord => "var"
  | whileWord => "while"

/-- Every reserved word with its spelling, in alphabetical order. -/
def table : List (String × Keyword) :=
  [("and", andWord), ("class", classWord), ("else", elseWord), ("false", falseWord),
    ("for", forWord), ("fun", funWord), ("if", ifWord), ("nil", nilWord), ("or", orWord),
    ("print", printWord), ("return", returnWord), ("super", superWord), ("this", thisWord),
    ("true", trueWord), ("var", varWord), ("while", whileWord)]

/-- The reserved word that a text spells, sought among those with as many bytes. -/
def ofSpelling? (text : String) : Option Keyword :=
  match text.utf8ByteSize with
  | 2 =>
    match text with
    | "if" => some ifWord
    | "or" => some orWord
    | _ => none
  | 3 =>
    match text with
    | "and" => some andWord
    | "for" => some forWord
    | "fun" => some funWord
    | "nil" => some nilWord
    | "var" => some varWord
    | _ => none
  | 4 =>
    match text with
    | "else" => some elseWord
    | "this" => some thisWord
    | "true" => some trueWord
    | _ => none
  | 5 =>
    match text with
    | "class" => some classWord
    | "false" => some falseWord
    | "print" => some printWord
    | "super" => some superWord
    | "while" => some whileWord
    | _ => none
  | 6 =>
    match text with
    | "return" => some returnWord
    | _ => none
  | _ => none

end Keyword

end LoxScan
