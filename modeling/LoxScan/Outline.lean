/-!
# Outlines

An outline shows a value part by part: leaves, named fields, and groups between an opening and a
closing mark. It is written on one line, or with one part a line and four spaces of indentation
for each level, where every part ends in a comma. A group without parts is its two marks.
-/

namespace LoxScan

/-- The parts of a value. -/
inductive Outline where
  | leaf (text : String)
  | field (name : String) (value : Outline)
  | group (opening closing padding : String) (parts : List Outline)

namespace Outline

/-- A record: its name and its fields in braces. -/
def record (name : String) (fields : List Outline) : Outline :=
  group (name ++ " \x7b") "\x7d" " " fields

/-- A named value in parentheses. -/
def wrapped (name : String) (value : Outline) : Outline :=
  group (name ++ "(") ")" "" [value]

/-- A list in brackets. -/
def list (items : List Outline) : Outline :=
  group "[" "]" "" items

mutual

/-- The outline on one line. -/
def compact : Outline → String
  | leaf text => text
  | field name value => name ++ ": " ++ value.compact
  | group opening closing padding parts =>
    match compactParts parts with
    | [] => opening ++ closing
    | written => opening ++ padding ++ ", ".intercalate written ++ padding ++ closing

/-- The outlines of parts, each on one line. -/
def compactParts : List Outline → List String
  | [] => []
  | part :: parts => part.compact :: compactParts parts

end

/-- The blanks in front of a part at a depth. -/
def indent (depth : Nat) : String := String.ofList (List.replicate (4 * depth) ' ')

mutual

/-- The outline with one part a line, at a depth. -/
def indented (depth : Nat) : Outline → String
  | leaf text => text
  | field name value => name ++ ": " ++ value.indented depth
  | group opening closing _ parts =>
    match indentedParts (depth + 1) parts with
    | [] => opening ++ closing
    | lines => opening ++ "\n" ++ String.join lines ++ indent depth ++ closing

/-- The lines of parts at a depth. -/
def indentedParts (depth : Nat) : List Outline → List String
  | [] => []
  | part :: parts =>
    (indent depth ++ part.indented depth ++ ",\n") :: indentedParts depth parts

end

/-- A character between quote marks of one kind: that mark and the backslash are escaped, and so
are controls, by a letter or by their number in base sixteen. The text is ASCII. -/
def escape (quote c : Char) : List Char :=
  if c == quote || c == '\\' then ['\\', c]
  else if c == '\t' then ['\\', 't']
  else if c == '\r' then ['\\', 'r']
  else if c == '\n' then ['\\', 'n']
  else if c == '\x00' then ['\\', '0']
  else if c.toNat < 32 || c.toNat == 127 then
    ['\\', 'u', '{'] ++ Nat.toDigits 16 c.toNat ++ ['}']
  else [c]

/-- A text in double quotes. -/
def quoted (text : String) : Outline :=
  leaf (String.ofList ('"' :: text.toList.flatMap (escape '"') ++ ['"']))

/-- A character in single quotes. -/
def quotedChar (c : Char) : Outline :=
  leaf (String.ofList ('\'' :: escape '\'' c ++ ['\'']))

end Outline

end LoxScan
