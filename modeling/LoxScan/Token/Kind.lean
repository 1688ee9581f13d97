import LoxScan.Token.Keyword

/-!
# Kinds of tokens

A kind says what class of lexemes a token belongs to; values of literals are kept apart from it.
Each kind has a name, which starts the printed line of a token, and a label, which stands for it
in the outline of a token.
-/

namespace LoxScan

/-- The kinds of tokens. -/
inductive Kind where
  | leftParen
  | rightParen
  | leftBrace
  | rightBrace
  | comma
  | dot
  | minus
  | plus
  | semicolon
  | slash
  | star
  | bang
  | bangEqual
  | equal
  | equalEqual
  | greater
  | greaterEqual
  | less
  | lessEqual
  | identifier
  | string
  | number
  | reserved (word : Keyword)
  | endOfFile
  deriving DecidableEq, Repr

namespace Kind

/-- The name of a kind, in capitals. -/
def name : Kind → String
  | leftParen => "LEFT_PAREN"
  | rightParen => "RIGHT_PAREN"
  | leftBrace => "LEFT_BRACE"
  | rightBrace => "RIGHT_BRACE"
  | comma => "COMMA"
  | dot => "DOT"
  | minus => "MINUS"
  | plus => "PLUS"
  | semicolon => "SEMICOLON"
  | slash => "SLASH"
  | star => "STAR"
  | bang => "BANG"
  | bangEqual => "BANG_EQUAL"
  | equal => "EQUAL"
  | equalEqual => "EQUAL_EQUAL"
  | greater => "GREATER"
  | greaterEqual => "GREATER_EQUAL"
  | less => "LESS"
  | lessEqual => "LESS_EQUAL"
  | identifier => "IDENTIFIER"
  | string => "STRING"
  | number => "NUMBER"
  | reserved .andWord => "AND"
  | reserved .classWord => "CLASS"
  | reserved .elseWord => "ELSE"
  | reserved .falseWord => "FALSE"
  | reserved .forWord => "FOR"
  | reserved .funWord => "FUN"
  | reserved .ifWord => "IF"
  | reserved .nilWord => "NIL"
  | reserved .orWord => "OR"
  | reserved .printWord => "PRINT"
  | reserved .returnWord => "RETURN"
  | reserved .superWord => "SUPER"
  | reserved .thisWord => "THIS"
  | reserved .trueWord => "TRUE"
  | reserved .varWord => "VAR"
  | reserved .whileWord => "WHILE"
  | endOfFile => "END_OF_FILE"

/-- The label of a kind, its words run together. -/
def label : Kind → String
  | leftParen => "LeftParen"
  | rightParen => "RightParen"
  | leftBrace => "LeftBrace"
  | rightBrace => "RightBrace"
  | comma => "Comma"
  | dot => "Dot"
  | minus => "Minus"
  | plus => "Plus"
  | semicolon => "Semicolon"
  | slash => "Slash"
  | star => "Star"
  | bang => "Bang"
  | bangEqual => "BangEqual"
  | equal => "Equal"
  | equalEqual => "EqualEqual"
  | greater => "Greater"
  | greaterEqual => "GreaterEqual"
  | less => "Less"
  | lessEqual => "LessEqual"
  | identifier => "Identifier"
  | string => "String"
  | number => "Number"
  | reserved .andWord => "And"
  | reserved .classWord => "Class"
  | reserved .elseWord => "Else"
  | reserved .falseWord => "False"
  | reserved .forWord => "For"
  | reserved .funWord => "Fun"
  | reserved .ifWord => "If"
  | reserved .nilWord => "Nil"
  | reserved .orWord => "Or"
  | reserved .printWord => "Print"
  | reserved .returnWord => "Return"
  | reserved .superWord => "Super"
  | reserved .thisWord => "This"
  | reserved .trueWord => "True"
  | reserved .varWord => "Var"
  | reserved .whileWord => "While"
  | endOfFile => "Eof"

/-- The spelling of a kind that is a reserved word. -/
def spelling? : Kind → Option String
  | reserved word => some word.spelling
  | _ => none

/-- Whether a kind is a reserved word. -/
def isReserved (kind : Kind) : Bool := kind.spelling?.isSome

/-- Whether tokens of a kind carry a value. -/
def hasLiteral : Kind → Bool
  | string | number => true
  | _ => false

/-- The kind of a word: the reserved word that it spells, or else an identifier. -/
def ofWord (word : String) : Kind :=
  match Keyword.ofSpelling? word with
  | some keyword => reserved keyword
  | none => identifier

end Kind

end LoxScan
