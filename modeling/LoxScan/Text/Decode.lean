import LoxScan.Text.Utf8

/-!
# Reading UTF-8

Bytes are read one at a time by a machine that remembers an unfinished character. Each maximal
ill-formed subpart (the longest run of bytes that still could have begun a character, or one byte
that begins none) is reported once. Strict reading refuses a text with such a part, lossy reading
puts the replacement character in its place.
-/

namespace LoxScan.Utf8

/-- A character of which the first bytes were read: how many bytes are owed after the next one,
the bounds of the next one, and the value so far. -/
structure Unfinished where
  owed : Nat
  low : UInt8
  high : UInt8
  value : Nat
  deriving DecidableEq, Repr

/-- What the first byte of a multi-byte character leaves open. The bounds of the second byte
exclude longer spellings than needed, surrogates and values beyond the last character. -/
def Unfinished.ofLead? (lead : UInt8) : Option Unfinished :=
  if 0xC2 ≤ lead ∧ lead ≤ 0xDF then some ⟨0, 0x80, 0xBF, lead.toNat - 0xC0⟩
  else if lead = 0xE0 then some ⟨1, 0xA0, 0xBF, 0⟩
  else if lead = 0xED then some ⟨1, 0x80, 0x9F, 0xD⟩
  else if 0xE1 ≤ lead ∧ lead ≤ 0xEF then some ⟨1, 0x80, 0xBF, lead.toNat - 0xE0⟩
  else if lead = 0xF0 then some ⟨2, 0x90, 0xBF, 0⟩
  else if 0xF1 ≤ lead ∧ lead ≤ 0xF3 then some ⟨2, 0x80, 0xBF, lead.toNat - 0xF0⟩
  else if lead = 0xF4 then some ⟨2, 0x80, 0x8F, 4⟩
  else none

/-- What has been read: the parts so far, `none` for an ill-formed one, and the open character. -/
structure Decoder where
  parts : Array (Option Char) := #[]
  unfinished : Option Unfinished := none

namespace Decoder

/-- Reads a byte where a character begins. -/
def begin (decoder : Decoder) (byte : UInt8) : Decoder :=
  if byte < 0x80 then { decoder with parts := decoder.parts.push (some (Char.ofUInt8 byte)) }
  else
    match Unfinished.ofLead? byte with
    | some unfinished => { decoder with unfinished := some unfinished }
    | none => { decoder with parts := decoder.parts.push none }

/-- Gives up the open character, if there is one. -/
def abandon (decoder : Decoder) : Decoder :=
  match decoder.unfinished with
  | some _ => ⟨decoder.parts.push none, none⟩
  | none => decoder

/-- Reads one byte: it continues the open character if it can, and else begins another. -/
def feed (decoder : Decoder) (byte : UInt8) : Decoder :=
  match decoder.unfinished with
  | none => decoder.begin byte
  | some open_ =>
    if open_.low ≤ byte ∧ byte ≤ open_.high then
      let value := open_.value * 64 + (byte.toNat - 0x80)
      match open_.owed with
      | 0 => ⟨decoder.parts.push (some (Char.ofNat value)), none⟩
      | owed + 1 => { decoder with unfinished := some ⟨owed, 0x80, 0xBF, value⟩ }
    else
      decoder.abandon.begin byte

end Decoder

/-- The characters and ill-formed parts of a sequence of bytes, in order. -/
def parts (bytes : List UInt8) : List (Option Char) :=
  (bytes.foldl Decoder.feed {}).abandon.parts.toList

/-- The text that the bytes encode, if they encode one. -/
def decode? (bytes : List UInt8) : Option (List Char) :=
  (parts bytes).mapM id

/-- The text that the bytes encode, with U+FFFD for each maximal ill-formed subpart. -/
def decodeLossy (bytes : List UInt8) : List Char :=
  (parts bytes).map (·.getD '\uFFFD')

end LoxScan.Utf8
