import LoxScan.Proofs.Lead

/-!
# Cursors between characters

Between two lexemes a cursor has passed whole characters only, so what is ahead of it is a list
of characters. Each operation of the cursor is described here by what it does to that list. A
test of a byte stands for the test of a character that agrees with it on first bytes and holds of
ASCII characters only.
-/

namespace LoxScan

open Utf8

/-- The cursor in a text at an offset with whole characters ahead. -/
def Cursor.between (text : List Char) (pos : Nat) (rest : List Char) : Cursor :=
  ⟨text, pos, [], rest⟩

/-- A test of bytes that accepts the encodings of certain ASCII characters and nothing else. -/
structure TestsLead (condition : UInt8 → Bool) (test : Char → Bool) : Prop where
  lead : ∀ c, condition (lead c) = test c
  ascii : ∀ c, test c = true → c.toNat < 128

/-- The test for digits looks at lead bytes only. -/
theorem testsLead_isDigitByte : TestsLead isDigitByte Char.isDigit :=
  ⟨isDigitByte_lead, fun _ h => toNat_lt_of_isDigit h⟩

/-- The test for characters of words looks at lead bytes only. -/
theorem testsLead_isWordByte : TestsLead isWordByte isWordChar :=
  ⟨isWordByte_lead, fun _ h => toNat_lt_of_isWordChar h⟩

namespace Cursor

variable {text : List Char} {pos : Nat}

/-- A cursor between characters is where it was put. -/
@[simp] theorem between_pos (rest : List Char) : (between text pos rest).pos = pos := rfl

/-- What is ahead of a cursor between characters is the rest of its text. -/
@[simp] theorem between_rest (rest : List Char) : (between text pos rest).rest = rest := rfl

/-- The byte ahead is the first byte of the next character. -/
theorem step?_between (c : Char) (rest : List Char) :
    (between text pos (c :: rest)).step? = some (lead c, ⟨text, pos + 1, trail c, rest⟩) := by
  simp [between, step?, encodeChar_eq_cons]

/-- Passing an ASCII character takes one step. -/
theorem step?_between_ascii {c : Char} (h : c.toNat < 128) (rest : List Char) :
    (between text pos (c :: rest)).step? = some (lead c, between text (pos + 1) rest) := by
  rw [step?_between, trail_of_ascii h]
  rfl

/-- At the end there is no step. -/
theorem step?_between_nil : (between text pos []).step? = none := rfl

/-- An ASCII character ahead can be passed. -/
theorem advance_between_ascii {c : Char} (h : c.toNat < 128) (rest : List Char) :
    (between text pos (c :: rest)).advance = .ok (between text (pos + 1) rest) := by
  simp [advance, step?_between_ascii h]

/-- The expected character is eaten. -/
theorem eat_between_self {c : Char} (h : c.toNat < 128) (rest : List Char) :
    (between text pos (c :: rest)).eat (lead c) = (true, between text (pos + 1) rest) := by
  simp [eat, step?_between_ascii h]

/-- No other character is eaten. -/
theorem eat_between_of_ne {c : Char} (h : c.toNat < 128) {rest : List Char}
    (hhead : rest.head? ≠ some c) :
    (between text pos rest).eat (lead c) = (false, between text pos rest) := by
  cases rest with
  | nil => simp [eat, step?_between_nil]
  | cons d rest =>
    have hne : lead d ≠ lead c := by
      rw [Ne, lead_eq_lead_iff h]
      simpa using hhead
    simp [eat, step?_between, hne]

/-- The byte ahead is that of an ASCII character if the character is ahead. -/
theorem current_between_eq_lead_iff {c : Char} (h : c.toNat < 128) (hzero : lead c ≠ 0)
    (rest : List Char) : (between text pos rest).current = lead c ↔ rest.head? = some c := by
  cases rest with
  | nil => simpa [current, step?_between_nil] using hzero.symm
  | cons d rest => simp [current, step?_between, lead_eq_lead_iff h]

/-- A test of the byte ahead is the test of the character ahead. -/
theorem condition_current_between {condition : UInt8 → Bool} {test : Char → Bool}
    (htest : TestsLead condition test) (hzero : condition 0 = false) (rest : List Char) :
    condition (between text pos rest).current = rest.head?.any test := by
  cases rest with
  | nil => simpa [current, step?_between_nil] using hzero
  | cons d rest => simp [current, step?_between, htest.lead]

/-- Behind an ASCII character the next byte is that of the next character. -/
theorem peek_between_ascii {c : Char} (h : c.toNat < 128) (rest : List Char) :
    (between text pos (c :: rest)).peek = (between text (pos + 1) rest).current := by
  simp [peek, step?_between_ascii h]

/-- Bytes that satisfy a test are passed up to the first character that does not. -/
theorem eatWhile_between {condition : UInt8 → Bool} {test : Char → Bool}
    (htest : TestsLead condition test) (rest : List Char) :
    (between text pos rest).eatWhile condition =
      between text (pos + size (rest.takeWhile test)) (rest.dropWhile test) := by
  induction rest generalizing pos with
  | nil =>
    rw [eatWhile]
    split
    · next hstep => simp [step?_between_nil] at hstep
    · rfl
  | cons c rest ih =>
    rw [eatWhile]
    split
    · next byte next hstep =>
      by_cases hc : test c = true
      · rw [step?_between_ascii (htest.ascii c hc)] at hstep
        obtain ⟨rfl, rfl⟩ : lead c = byte ∧ between text (pos + 1) rest = next := by
          simpa using hstep
        rw [if_pos (by rw [htest.lead, hc]), ih]
        simp [hc, utf8Size_of_ascii (htest.ascii c hc), Nat.add_assoc]
      · rw [step?_between] at hstep
        obtain ⟨rfl, -⟩ : lead c = byte ∧ _ = next := by simpa using hstep
        rw [if_neg (by rwa [htest.lead]), List.takeWhile_cons_of_neg hc,
          List.dropWhile_cons_of_neg hc]
        rfl
    · next hstep => simp [step?_between] at hstep

/-- Characters are skipped up to the first that satisfies the condition. -/
theorem skipChars_eq (stop : Char → Bool) (pos : Nat) (rest : List Char) :
    skipChars stop pos rest =
      (pos + size (rest.takeWhile (!stop ·)), rest.dropWhile (!stop ·)) := by
  induction rest generalizing pos with
  | nil => rfl
  | cons c rest ih =>
    unfold skipChars
    by_cases hc : stop c = true
    · simp [hc]
    · rw [if_neg hc, ih]
      simp [hc, Nat.add_assoc]

/-- A jump passes the characters up to the first that satisfies the condition. -/
theorem skipTo_between (stop : Char → Bool) (rest : List Char) :
    (between text pos rest).skipTo stop =
      between text (pos + size (rest.takeWhile (!stop ·))) (rest.dropWhile (!stop ·)) := by
  simp [skipTo, between, skipChars_eq]

/-- The jump to a newline passes the characters in front of it. -/
theorem toNewline_between (rest : List Char) :
    (between text pos rest).toNewline =
      between text (pos + size (rest.takeWhile (· != '\n'))) (rest.dropWhile (· != '\n')) :=
  skipTo_between (· == '\n') rest

/-- The rest of a character of which the first byte was passed can be passed. -/
theorem advanceEach_pending (bytes : List UInt8) (rest : List Char) :
    advanceEach bytes.length ⟨text, pos, bytes, rest⟩ =
      .ok (between text (pos + bytes.length) rest) := by
  induction bytes generalizing pos with
  | nil => rfl
  | cons byte bytes ih =>
    rw [List.length_cons, advanceEach]
    simp only [advance, step?]
    rw [ih, Nat.add_assoc, Nat.add_comm 1]

/-- Bytes can be passed in two goes. -/
theorem advanceEach_add (count more : Nat) (cursor : Cursor) :
    advanceEach (count + more) cursor = advanceEach count cursor >>= advanceEach more := by
  induction count generalizing cursor with
  | zero => rw [Nat.zero_add]; rfl
  | succ count ih =>
    rw [Nat.add_right_comm, advanceEach, advanceEach]
    cases cursor.advance with
    | ok next => exact ih next
    | error fault => rfl

/-- Whole characters are passed by as many bytes as they have. -/
theorem advanceEach_between (front rest : List Char) :
    advanceEach (size front) (between text pos (front ++ rest)) =
      .ok (between text (pos + size front) rest) := by
  induction front generalizing pos with
  | nil => rfl
  | cons c front ih =>
    have hfirst : advanceEach c.utf8Size (between text pos (c :: (front ++ rest))) =
        .ok (between text (pos + c.utf8Size) (front ++ rest)) := by
      rw [← length_trail, advanceEach]
      simp only [advance, step?_between]
      rw [advanceEach_pending, Nat.add_assoc, Nat.add_comm 1]
    rw [size_cons, advanceEach_add, List.cons_append, hfirst, ← Nat.add_assoc]
    exact ih

/-- Advancing by the bytes of some characters passes these characters. -/
theorem advanceBy_between {front : List Char} (h : pos + size front ≤ maxWord)
    (rest : List Char) :
    (between text pos (front ++ rest)).advanceBy (size front) =
      .ok (between text (pos + size front) rest) := by
  rw [advanceBy, if_neg (by rw [between_pos]; omega), advanceEach_between]

/-- A character of which the first byte was passed is passed by its announced width. -/
theorem advanceBy_trail {c : Char} {rest : List Char} (h : pos + c.utf8Size ≤ maxWord) :
    (⟨text, pos + 1, trail c, rest⟩ : Cursor).advanceBy (leadWidth (lead c) - 1) =
      .ok (between text (pos + c.utf8Size) rest) := by
  have hlength : leadWidth (lead c) - 1 = (trail c).length := by
    rw [leadWidth_lead, ← length_trail, Nat.add_sub_cancel]
  have hpos := length_trail c
  rw [advanceBy, hlength, if_neg (by simp only; omega), advanceEach_pending]
  congr 2
  omega

/-- The text up to a later cursor is what was passed. -/
theorem textTo_between (front rest : List Char) :
    (between text pos (front ++ rest)).textTo (between text (pos + size front) rest) =
      .ok front := by
  simp only [textTo, between, List.isEmpty_nil, Nat.add_sub_cancel_left, Text.takeBytes?_size]
  rw [if_neg (by omega), if_neg (by simp)]

end Cursor

end LoxScan
