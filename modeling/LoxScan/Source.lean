import LoxScan.Fault
import LoxScan.Text.Utf8

/-!
# Sources

A source is a text whose every byte offset is a 32-bit word. All sums of offsets that the reading
of a source makes stay below its size, so they are words too.
-/

namespace LoxScan

/-- A text whose size an offset can count. -/
structure Source where
  text : List Char
  size_le : Utf8.size text ≤ maxWord

namespace Source

/-- The source of a text that is not too long. -/
def ofString (text : String) : Except Fault Source :=
  if h : Utf8.size text.toList ≤ maxWord then .ok ⟨text.toList, h⟩ else .error .sourceTooLong

/-- The number of bytes. -/
def size (source : Source) : Nat := Utf8.size source.text

/-- Whether there are no bytes. -/
def isEmpty (source : Source) : Bool := source.size == 0

/-- The bytes. -/
def bytes (source : Source) : List UInt8 := Utf8.encode source.text

end Source

end LoxScan
