import LoxScan.Source
import LoxScan.Text.Slice

/-!
# Cursors

A cursor is a byte position in a text. It may stand inside a character: then the bytes that are
left of that character come before the characters that follow. The bytes ahead are the view by
which the operations are described; past the end a cursor sees zero bytes, but a zero byte ahead
does not mean the end.
-/

namespace LoxScan

/-- A byte position in a text, with what lies ahead of it. -/
structure Cursor where
  /-- The whole text. -/
  text : List Char
  /-- The number of bytes passed. -/
  pos : Nat
  /-- What is left of a character that was passed in part. -/
  pending : List UInt8
  /-- The characters ahead of which nothing was passed. -/
  rest : List Char
  deriving DecidableEq, Repr

/-- The cursor at the beginning of a source. -/
def Source.cursor (source : Source) : Cursor := ⟨source.text, 0, [], source.text⟩

namespace Cursor

/-- The bytes ahead. -/
def upcoming (cursor : Cursor) : List UInt8 := cursor.pending ++ Utf8.encode cursor.rest

/-- The number of bytes ahead. -/
def remaining (cursor : Cursor) : Nat := cursor.upcoming.length

/-- The byte ahead and the cursor after it. -/
def step? (cursor : Cursor) : Option (UInt8 × Cursor) :=
  match cursor.pending with
  | byte :: pending => some (byte, { cursor with pos := cursor.pos + 1, pending })
  | [] =>
    match cursor.rest with
    | [] => none
    | c :: rest =>
      match String.utf8EncodeChar c with
      | byte :: pending => some (byte, { cursor with pos := cursor.pos + 1, pending, rest })
      | [] => none

/-- The byte ahead, zero at the end. -/
def current (cursor : Cursor) : UInt8 :=
  match cursor.step? with
  | some (byte, _) => byte
  | none => 0

/-- The byte after the byte ahead, zero past the end. -/
def peek (cursor : Cursor) : UInt8 :=
  match cursor.step? with
  | some (_, next) => next.current
  | none => 0

/-- Whether nothing is ahead. -/
def atEnd (cursor : Cursor) : Bool := cursor.pending.isEmpty && cursor.rest.isEmpty

/-- Passes one byte. -/
def advance (cursor : Cursor) : Except Fault Cursor :=
  match cursor.step? with
  | some (_, next) => .ok next
  | none => .error .advancePastEnd

/-- Passes bytes one by one. -/
def advanceEach : Nat → Cursor → Except Fault Cursor
  | 0, cursor => .ok cursor
  | count + 1, cursor =>
    match cursor.advance with
    | .ok next => advanceEach count next
    | .error fault => .error fault

/-- Passes a number of bytes, if the new position is a word and lies in the text. -/
def advanceBy (cursor : Cursor) (count : Nat) : Except Fault Cursor :=
  if maxWord < cursor.pos + count then .error .addOverflow else advanceEach count cursor

/-- Passes the byte ahead if it is the expected one, and tells whether it was. -/
def eat (cursor : Cursor) (expected : UInt8) : Bool × Cursor :=
  match cursor.step? with
  | some (byte, next) => if byte == expected then (true, next) else (false, cursor)
  | none => (false, cursor)

/-- A step takes the first of the bytes ahead. -/
theorem upcoming_of_step? {cursor next : Cursor} {byte : UInt8}
    (h : cursor.step? = some (byte, next)) : cursor.upcoming = byte :: next.upcoming := by
  obtain ⟨text, pos, pending, rest⟩ := cursor
  cases pending with
  | cons b pending =>
    simp only [step?, Option.some.injEq, Prod.mk.injEq] at h
    obtain ⟨rfl, rfl⟩ := h
    rfl
  | nil =>
    cases rest with
    | nil => simp [step?] at h
    | cons c rest =>
      cases hc : String.utf8EncodeChar c with
      | nil => exact absurd hc (Utf8.encodeChar_ne_nil c)
      | cons b pending =>
        simp only [step?, hc, Option.some.injEq, Prod.mk.injEq] at h
        obtain ⟨rfl, rfl⟩ := h
        simp [upcoming, hc]

/-- Every step passes one byte. -/
theorem remaining_of_step? {cursor next : Cursor} {byte : UInt8}
    (h : cursor.step? = some (byte, next)) : cursor.remaining = next.remaining + 1 := by
  simp [remaining, upcoming_of_step? h]

/-- Passes bytes as long as they satisfy a condition. -/
def eatWhile (condition : UInt8 → Bool) (cursor : Cursor) : Cursor :=
  match _ : cursor.step? with
  | some (byte, next) => if condition byte then next.eatWhile condition else cursor
  | none => cursor
termination_by cursor.remaining
decreasing_by simp [remaining_of_step? ‹_›]

/-- Passes whole characters, on top of a position, up to the first that satisfies a condition. -/
def skipChars (stop : Char → Bool) (pos : Nat) : List Char → Nat × List Char
  | [] => (pos, [])
  | c :: rest => if stop c then (pos, c :: rest) else skipChars stop (pos + c.utf8Size) rest

/-- Jumps to the first character ahead that satisfies a condition, or to the end. -/
def skipTo (stop : Char → Bool) (cursor : Cursor) : Cursor :=
  let (pos, rest) := skipChars stop (cursor.pos + cursor.pending.length) cursor.rest
  { cursor with pos, pending := [], rest }

/-- Jumps to the next newline or to the end. -/
def toNewline (cursor : Cursor) : Cursor := cursor.skipTo (· == '\n')

/-- Jumps to the next quote or newline or to the end, and tells which it was. -/
def toQuoteOrNewline (cursor : Cursor) : Option Char × Cursor :=
  let found := cursor.skipTo fun c => c == '"' || c == '\n'
  (found.rest.head?, found)

/-- The bytes from `start` up to `stop` of the whole text. -/
def slice (cursor : Cursor) (start stop : Nat) : Except Fault (List Char) :=
  let size := Utf8.size cursor.text
  if size < stop then .error (.sliceEnd stop size)
  else if stop < start then .error (.sliceOrder start stop)
  else
    match Text.slice? start stop cursor.text with
    | some part => .ok part
    | none => .error .splitCharacter

/-- The bytes from `start` up to the cursor. -/
def sliceFrom (cursor : Cursor) (start : Nat) : Except Fault (List Char) :=
  cursor.slice start cursor.pos

/-- The text between a cursor and a later one, read off the characters ahead of the first. -/
def textTo (start stop : Cursor) : Except Fault (List Char) :=
  if stop.pos < start.pos then .error (.sliceOrder start.pos stop.pos)
  else if !start.pending.isEmpty then .error .splitCharacter
  else
    match Text.takeBytes? (stop.pos - start.pos) start.rest with
    | some part => .ok part
    | none => .error .splitCharacter

/-- A cursor that advances leaves one byte behind. -/
theorem remaining_advance {cursor next : Cursor} (h : cursor.advance = .ok next) :
    cursor.remaining = next.remaining + 1 := by
  unfold advance at h
  split at h
  · next hstep =>
    cases h
    exact remaining_of_step? hstep
  · cases h

/-- Steps never bring bytes back. -/
theorem remaining_advanceEach {count : Nat} {cursor next : Cursor}
    (h : advanceEach count cursor = .ok next) : next.remaining ≤ cursor.remaining := by
  induction count generalizing cursor with
  | zero =>
    cases h
    exact Nat.le_refl _
  | succ count ih =>
    unfold advanceEach at h
    split at h
    · next hadvance =>
      have := ih h
      have := remaining_advance hadvance
      omega
    · cases h

/-- Advancing by a count never brings bytes back. -/
theorem remaining_advanceBy {count : Nat} {cursor next : Cursor}
    (h : cursor.advanceBy count = .ok next) : next.remaining ≤ cursor.remaining := by
  unfold advanceBy at h
  split at h
  · cases h
  · exact remaining_advanceEach h

/-- Eating a byte that is expected never brings bytes back. -/
theorem remaining_eat (cursor : Cursor) (expected : UInt8) :
    (cursor.eat expected).2.remaining ≤ cursor.remaining := by
  unfold eat
  split
  · next hstep =>
    split
    · simp [remaining_of_step? hstep]
    · exact Nat.le_refl _
  · exact Nat.le_refl _

/-- Passing the bytes that meet a condition never brings bytes back. -/
theorem remaining_eatWhile (condition : UInt8 → Bool) (cursor : Cursor) :
    (cursor.eatWhile condition).remaining ≤ cursor.remaining := by
  fun_induction eatWhile condition cursor with
  | case1 cursor byte next hstep _ ih =>
    have := remaining_of_step? hstep
    omega
  | case2 => exact Nat.le_refl _
  | case3 => exact Nat.le_refl _

/-- Passing characters up to a stop leaves no more than there were. -/
theorem size_skipChars (stop : Char → Bool) (pos : Nat) (rest : List Char) :
    Utf8.size (skipChars stop pos rest).2 ≤ Utf8.size rest := by
  induction rest generalizing pos with
  | nil => exact Nat.le_refl _
  | cons c rest ih =>
    unfold skipChars
    split
    · exact Nat.le_refl _
    · have := ih (pos + c.utf8Size)
      simp only [Utf8.size_cons]
      omega

/-- Jumping to a stop never brings bytes back. -/
theorem remaining_skipTo (stop : Char → Bool) (cursor : Cursor) :
    (cursor.skipTo stop).remaining ≤ cursor.remaining := by
  have := size_skipChars stop (cursor.pos + cursor.pending.length) cursor.rest
  simp only [remaining, upcoming, skipTo, List.length_append, Utf8.length_encode,
    List.length_nil, Nat.zero_add]
  omega

/-- Jumping to a quote or a newline never brings bytes back. -/
theorem remaining_toQuoteOrNewline (cursor : Cursor) :
    (cursor.toQuoteOrNewline).2.remaining ≤ cursor.remaining :=
  remaining_skipTo _ cursor

end Cursor

end LoxScan
