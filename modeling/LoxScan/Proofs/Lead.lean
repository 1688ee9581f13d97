import LoxScan.Lexeme
import Mathlib.Data.List.Basic

/-!
# First bytes of characters

A character is recognised by the first byte of its encoding. An ASCII character is its own
encoding; the first byte of any other character is beyond ASCII and announces how many bytes
there are. Hence a condition that holds of ASCII characters only can be tested on first bytes. No
later byte looks like ASCII, so an ASCII character can be found by its byte.
-/

namespace LoxScan

namespace Utf8

/-- The first byte of a character. -/
def lead (c : Char) : UInt8 := (String.utf8EncodeChar c).headD 0

/-- The bytes of a character after the first. -/
def trail (c : Char) : List UInt8 := (String.utf8EncodeChar c).tail

/-- A character is encoded as its lead byte and its trail. -/
theorem encodeChar_eq_cons (c : Char) : String.utf8EncodeChar c = lead c :: trail c := by
  cases h : String.utf8EncodeChar c with
  | nil => exact absurd h (encodeChar_ne_nil c)
  | cons byte rest => simp [lead, trail, h]

/-- The trail is one byte shorter than the character. -/
theorem length_trail (c : Char) : (trail c).length + 1 = c.utf8Size := by
  have h := String.length_utf8EncodeChar c
  rwa [encodeChar_eq_cons, List.length_cons] at h

/-- The numbers of characters: those of surrogates are none. -/
theorem valid_toNat (c : Char) : c.toNat ≤ 0xD7FF ∨ 0xE000 ≤ c.toNat ∧ c.toNat ≤ 0x10FFFF := by
  have h := c.valid
  simp only [UInt32.isValidChar, Nat.isValidChar] at h
  change c.val.toNat ≤ _ ∨ _ ≤ c.val.toNat ∧ c.val.toNat ≤ _
  omega

/-- The first byte as a number, by the number of bytes. -/
theorem toNat_lead (c : Char) : (lead c).toNat =
    if c.toNat ≤ 0x7F then c.toNat
    else if c.toNat ≤ 0x7FF then c.toNat / 64 + 0xC0
    else if c.toNat ≤ 0xFFFF then c.toNat / 4096 + 0xE0
    else c.toNat / 262144 + 0xF0 := by
  have hvalid := valid_toNat c
  have hval : c.val.toNat = c.toNat := rfl
  simp only [lead, String.utf8EncodeChar, hval]
  split
  · simp only [List.headD_cons, UInt8.toNat_ofNat']
    omega
  · split
    · simp only [List.headD_cons, UInt8.toNat_ofNat']
      omega
    · split
      · simp only [List.headD_cons, UInt8.toNat_ofNat']
        omega
      · simp only [List.headD_cons, UInt8.toNat_ofNat']
        omega

/-- The number of bytes, by the number of the character. -/
theorem utf8Size_eq (c : Char) : c.utf8Size =
    if c.toNat ≤ 0x7F then 1 else if c.toNat ≤ 0x7FF then 2
    else if c.toNat ≤ 0xFFFF then 3 else 4 := by
  have hval : c.val.toNat = c.toNat := rfl
  simp [Char.utf8Size, UInt32.le_iff_toNat_le, hval]

/-- The first byte announces the size of its character. -/
theorem leadWidth_lead (c : Char) : leadWidth (lead c) = c.utf8Size := by
  have hvalid := valid_toNat c
  have hlead := toNat_lead c
  rw [utf8Size_eq]
  simp only [leadWidth, UInt8.le_iff_toNat_le, UInt8.reduceToNat]
  split at hlead
  · rw [if_neg (by omega), if_neg (by omega), if_neg (by omega), if_pos (by assumption)]
  · split at hlead
    · rw [if_pos (by omega), if_neg (by assumption), if_pos (by assumption)]
    · split at hlead
      · rw [if_neg (by omega), if_pos (by omega), if_neg (by assumption),
          if_neg (by assumption), if_pos (by assumption)]
      · rw [if_neg (by omega), if_neg (by omega), if_pos (by omega), if_neg (by assumption),
          if_neg (by assumption), if_neg (by assumption)]

/-- ASCII characters have one byte. -/
theorem utf8Size_of_ascii {c : Char} (h : c.toNat < 128) : c.utf8Size = 1 := by
  rw [utf8Size_eq, if_pos (by omega)]

/-- ASCII characters have no trail. -/
theorem trail_of_ascii {c : Char} (h : c.toNat < 128) : trail c = [] := by
  have hlength := length_trail c
  rw [utf8Size_of_ascii h] at hlength
  exact List.eq_nil_of_length_eq_zero (by omega)

/-- An ASCII character is read back from its first byte. -/
theorem ofUInt8_lead {c : Char} (h : c.toNat < 128) : Char.ofUInt8 (lead c) = c := by
  apply Char.toNat_inj.1
  change (lead c).toUInt32.toNat = c.toNat
  rw [UInt8.toNat_toUInt32, toNat_lead, if_pos (by omega)]

/-- The first byte of any other character does not look like ASCII. -/
theorem le_toNat_ofUInt8_lead {c : Char} (h : 128 ≤ c.toNat) :
    128 ≤ (Char.ofUInt8 (lead c)).toNat := by
  change 128 ≤ (lead c).toUInt32.toNat
  rw [UInt8.toNat_toUInt32, toNat_lead, if_neg (by omega)]
  split
  · omega
  · split <;> omega

/-- What does not tell characters beyond ASCII apart is determined by the first byte. -/
theorem apply_ofUInt8_lead {α : Type} (f : Char → α) (other : α)
    (hf : ∀ c : Char, 128 ≤ c.toNat → f c = other) (c : Char) :
    f (Char.ofUInt8 (lead c)) = f c := by
  by_cases h : c.toNat < 128
  · rw [ofUInt8_lead h]
  · rw [hf _ (le_toNat_ofUInt8_lead (by omega)), hf c (by omega)]

/-- An ASCII character is told from every other character by its first byte. -/
theorem lead_eq_lead_iff {c d : Char} (hd : d.toNat < 128) : lead c = lead d ↔ c = d := by
  constructor
  · intro h
    have hc : c.toNat < 128 := by
      by_contra hc
      have := le_toNat_ofUInt8_lead (c := c) (by omega)
      rw [h, ofUInt8_lead hd] at this
      omega
    rw [← ofUInt8_lead hc, h, ofUInt8_lead hd]
  · rintro rfl
    rfl

/-- No later byte of a character looks like ASCII. -/
theorem le_toNat_of_mem_trail {c : Char} {byte : UInt8} (h : byte ∈ trail c) :
    128 ≤ byte.toNat := by
  simp only [trail, String.utf8EncodeChar] at h
  split at h
  · simp at h
  · split at h
    · obtain rfl := List.mem_singleton.1 h
      simp only [UInt8.toNat_ofNat']
      omega
    · split at h
      all_goals
        simp only [List.tail_cons, List.mem_cons, List.not_mem_nil, or_false] at h
        rcases h with rfl | rfl | rfl
        all_goals
          simp only [UInt8.toNat_ofNat']
          omega

/-- The byte of an ASCII character occurs in no other encoding. -/
theorem lead_mem_encodeChar_iff {c d : Char} (hd : d.toNat < 128) :
    lead d ∈ String.utf8EncodeChar c ↔ c = d := by
  have htrail : lead d ∉ trail c := by
    intro h
    have hle := le_toNat_of_mem_trail h
    rw [toNat_lead, if_pos (by omega)] at hle
    omega
  rw [encodeChar_eq_cons, List.mem_cons, or_iff_left htrail, eq_comm, lead_eq_lead_iff hd]

/-- A text is determined by its bytes. -/
theorem encode_injective : Function.Injective encode := by
  intro left right h
  have hbytes : left.utf8Encode = right.utf8Encode := congrArg List.toByteArray h
  have hleft := List.utf8Decode?_utf8Encode (l := left)
  rw [hbytes, List.utf8Decode?_utf8Encode] at hleft
  simpa using hleft.symm

end Utf8

/-- Letters by their codes. -/
theorem isAlpha_iff {c : Char} : c.isAlpha = true ↔
    65 ≤ c.toNat ∧ c.toNat ≤ 90 ∨ 97 ≤ c.toNat ∧ c.toNat ≤ 122 := by
  have hcodes : c.isAlpha = (decide (c.val ≥ 'A'.val ∧ c.val ≤ 'Z'.val) ||
      decide (c.val ≥ 'a'.val) && decide (c.val ≤ 'z'.val)) := rfl
  simp only [hcodes, Bool.or_eq_true, Bool.and_eq_true, decide_eq_true_eq, ge_iff_le,
    UInt32.le_iff_toNat_le]
  exact Iff.rfl

/-- Digits by their codes. -/
theorem isDigit_iff {c : Char} : c.isDigit = true ↔ 48 ≤ c.toNat ∧ c.toNat ≤ 57 := by
  simp only [Char.isDigit, Bool.and_eq_true, decide_eq_true_eq, ge_iff_le,
    UInt32.le_iff_toNat_le]
  exact Iff.rfl

/-- Digits are ASCII. -/
theorem toNat_lt_of_isDigit {c : Char} (h : c.isDigit = true) : c.toNat < 128 := by
  have hcodes := isDigit_iff.1 h
  omega

/-- Letters are ASCII. -/
theorem toNat_lt_of_isAlpha {c : Char} (h : c.isAlpha = true) : c.toNat < 128 := by
  have hcodes := isAlpha_iff.1 h
  omega

/-- What goes on a word is ASCII. -/
theorem toNat_lt_of_isWordChar {c : Char} (h : isWordChar c = true) : c.toNat < 128 := by
  simp only [isWordChar, Char.isAlphanum, Bool.or_eq_true, beq_iff_eq] at h
  rcases h with (h | h) | rfl
  · exact toNat_lt_of_isAlpha h
  · exact toNat_lt_of_isDigit h
  · decide

/-- A lead byte is that of a digit just if the character is one. -/
theorem isDigitByte_lead (c : Char) : isDigitByte (Utf8.lead c) = c.isDigit := by
  refine Utf8.apply_ofUInt8_lead Char.isDigit false (fun c hc => ?_) c
  by_contra h
  have := toNat_lt_of_isDigit (c := c) (by simpa using h)
  omega

/-- A lead byte is that of a character of words just if the character is one. -/
theorem isWordByte_lead (c : Char) : isWordByte (Utf8.lead c) = isWordChar c := by
  refine Utf8.apply_ofUInt8_lead isWordChar false (fun c hc => ?_) c
  by_contra h
  have := toNat_lt_of_isWordChar (c := c) (by simpa using h)
  omega

/-- Characters beyond ASCII open nothing. -/
theorem Opening.ofChar_of_not_ascii {c : Char} (h : 128 ≤ c.toNat) :
    Opening.ofChar c = .stray := by
  have hdigit : c.isDigit = false := by
    by_contra hdigit
    have := toNat_lt_of_isDigit (c := c) (by simpa using hdigit)
    omega
  have halpha : c.isAlpha = false := by
    by_contra halpha
    have := toNat_lt_of_isAlpha (c := c) (by simpa using halpha)
    omega
  have hbar : (c == '_') = false := by
    rw [beq_eq_false_iff_ne]
    rintro rfl
    exact absurd h (by decide)
  unfold Opening.ofChar
  split
  -- Every literal of the dispatch is ASCII, so only the last branch is left.
  all_goals try exact absurd h (by decide)
  simp [hdigit, halpha, hbar]

/-- A character opens what its first byte opens. -/
theorem Opening.ofByte_lead (c : Char) : Opening.ofByte (Utf8.lead c) = Opening.ofChar c :=
  Utf8.apply_ofUInt8_lead Opening.ofChar .stray (fun _ h => Opening.ofChar_of_not_ascii h) c

end LoxScan
