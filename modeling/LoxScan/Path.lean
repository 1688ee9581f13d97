import LoxScan.Text.Decode

/-!
# Paths

A path is a sequence of bytes that need not encode a text. Slashes divide it into parts.
-/

namespace LoxScan

/-- A path, as bytes. -/
structure Path where
  bytes : List UInt8
  deriving DecidableEq, Repr

namespace Path

/-- The path that a text spells. -/
def ofString (text : String) : Path := ⟨Utf8.encode text.toList⟩

/-- The path for a reader: what is ill-formed in it is replaced. -/
def toText (path : Path) : String := String.ofList (Utf8.decodeLossy path.bytes)

/-- The byte between two parts. -/
def slash : UInt8 := 0x2F

/-- Whether a path starts at the root. -/
def isAbsolute (path : Path) : Bool := path.bytes.head? == some slash

/-- Divides bytes at the slashes. -/
def divide : List UInt8 → List (List UInt8)
  | [] => [[]]
  | byte :: bytes =>
    if byte = slash then [] :: divide bytes
    else
      match divide bytes with
      | part :: parts => (byte :: part) :: parts
      | [] => [[byte]]

/-- The parts of a path, in order. Doubled, leading and final slashes make empty parts. -/
def parts (path : Path) : List (List UInt8) := divide path.bytes

/-- A path inside a directory. -/
def inside (directory path : Path) : Path := ⟨directory.bytes ++ slash :: path.bytes⟩

end Path

end LoxScan
