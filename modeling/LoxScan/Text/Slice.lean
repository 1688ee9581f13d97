import LoxScan.Text.Utf8

/-!
# Slices by byte offsets

A slice is asked for by byte offsets and exists only if both of them lie between characters.
-/

namespace LoxScan.Text

open Utf8

/-- Counts, on top of `counted`, the leading characters that take up exactly `bytes` bytes. -/
def wholeChars? (counted : Nat) : Nat → List Char → Option Nat
  | 0, _ => some counted
  | _ + 1, [] => none
  | bytes + 1, c :: text =>
    if c.utf8Size ≤ bytes + 1 then
      wholeChars? (counted + 1) (bytes + 1 - c.utf8Size) text
    else
      none

/-- The first `bytes` bytes of a text, if they are whole characters. -/
def takeBytes? (bytes : Nat) (text : List Char) : Option (List Char) :=
  (wholeChars? 0 bytes text).map text.take

/-- A text without its first `bytes` bytes, if they are whole characters. -/
def dropBytes? (bytes : Nat) (text : List Char) : Option (List Char) :=
  (wholeChars? 0 bytes text).map text.drop

/-- The bytes from `start` up to `stop` of a text, if the range is ordered, lies in the text and
splits no character. -/
def slice? (start stop : Nat) (text : List Char) : Option (List Char) :=
  if start ≤ stop then
    (dropBytes? start text).bind (takeBytes? (stop - start))
  else
    none

/-- The characters counted are those of any text of that size in front. -/
theorem wholeChars?_append (left right : List Char) (counted : Nat) :
    wholeChars? counted (size left) (left ++ right) = some (counted + left.length) := by
  induction left generalizing counted with
  | nil => simp [wholeChars?]
  | cons c left ih =>
    have hpos := c.utf8Size_pos
    obtain ⟨bytes, hbytes⟩ : ∃ bytes, c.utf8Size + size left = bytes + 1 :=
      ⟨c.utf8Size + size left - 1, by omega⟩
    rw [size_cons, List.cons_append, hbytes, wholeChars?, if_pos (by omega), ← hbytes,
      Nat.add_sub_cancel_left, ih, List.length_cons]
    congr 1
    omega

/-- Taking as many bytes as the front of a text has gives that front. -/
@[simp] theorem takeBytes?_size (left right : List Char) :
    takeBytes? (size left) (left ++ right) = some left := by
  simp [takeBytes?, wholeChars?_append]

/-- Dropping as many bytes as the front of a text has gives the rest. -/
@[simp] theorem dropBytes?_size (left right : List Char) :
    dropBytes? (size left) (left ++ right) = some right := by
  simp [dropBytes?, wholeChars?_append]

end LoxScan.Text
