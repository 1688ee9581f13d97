/-!
# UTF-8 sizes and encodings

Texts are lists of characters; offsets into them count the bytes of their UTF-8 encoding. The
length of an encoding is the sum of the sizes of the characters, and both are additive over
concatenation.
-/

namespace LoxScan.Utf8

/-- The bytes of a text. -/
def encode (text : List Char) : List UInt8 :=
  text.flatMap String.utf8EncodeChar

/-- The number of bytes of a text. -/
def size (text : List Char) : Nat :=
  text.foldl (fun total c => total + c.utf8Size) 0

/-- The number of bytes that the first byte of a character announces; a byte that announces
nothing stands alone. -/
def leadWidth (lead : UInt8) : Nat :=
  if 0xC0 ≤ lead ∧ lead ≤ 0xDF then 2
  else if 0xE0 ≤ lead ∧ lead ≤ 0xEF then 3
  else if 0xF0 ≤ lead ∧ lead ≤ 0xF7 then 4
  else 1

/-- An empty text has no bytes. -/
@[simp] theorem encode_nil : encode [] = [] := rfl

/-- A text is encoded character by character. -/
@[simp] theorem encode_cons (c : Char) (text : List Char) :
    encode (c :: text) = String.utf8EncodeChar c ++ encode text := rfl

/-- An encoding is made character by character. -/
@[simp] theorem encode_append (left right : List Char) :
    encode (left ++ right) = encode left ++ encode right := by
  simp [encode]

/-- Sizes are added up in any order. -/
private theorem foldl_size (text : List Char) (total : Nat) :
    text.foldl (fun total c => total + c.utf8Size) total = total + size text := by
  induction text generalizing total with
  | nil => rfl
  | cons c text ih =>
    simp only [size, List.foldl_cons]
    rw [ih, ih (0 + c.utf8Size)]
    omega

/-- An empty text has no size. -/
@[simp] theorem size_nil : size [] = 0 := rfl

/-- A text is as long as its first character and the others. -/
@[simp] theorem size_cons (c : Char) (text : List Char) :
    size (c :: text) = c.utf8Size + size text := by
  simpa [size] using foldl_size text (0 + c.utf8Size)

/-- Sizes of two parts are added. -/
@[simp] theorem size_append (left right : List Char) :
    size (left ++ right) = size left + size right := by
  induction left with
  | nil => simp
  | cons c left ih => simp [ih]; omega

/-- The size of a text is the length of its encoding. -/
@[simp] theorem length_encode (text : List Char) : (encode text).length = size text := by
  induction text with
  | nil => rfl
  | cons c text ih => simp [ih]

/-- Every character takes at least one byte. -/
theorem encodeChar_ne_nil (c : Char) : String.utf8EncodeChar c ≠ [] := by
  intro h
  have hlength := String.length_utf8EncodeChar c
  have hpos := c.utf8Size_pos
  rw [h] at hlength
  simp at hlength
  omega

end LoxScan.Utf8
