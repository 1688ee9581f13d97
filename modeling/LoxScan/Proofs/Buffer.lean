import LoxScan.Proofs.Between

/-!
# Cursors in the buffer of a source

A source is kept in a buffer with two zero bytes behind it. Whatever is done with a cursor that
starts at the beginning of a source, it stays in the source, and the byte ahead of it and the one
after that are read from the buffer.

An operation moves a cursor by single bytes or by jumps to a character. What holds at the beginning
of a source and is kept by both holds wherever operations lead.
-/

namespace LoxScan

open Utf8

/-- The bytes of a text with two zero bytes behind them. -/
def buffer (text : List Char) : List UInt8 := encode text ++ [0, 0]

namespace Cursor

/-- A cursor whose position counts the bytes of a text in front of what is ahead. -/
structure InText (text : List Char) (cursor : Cursor) : Prop where
  text_eq : cursor.text = text
  passed : ∃ bytes, encode text = bytes ++ cursor.upcoming ∧ bytes.length = cursor.pos

/-- A cursor that reads the bytes of the buffer. -/
structure InBuffer (text : List Char) (cursor : Cursor) : Prop where
  pos_le : cursor.pos ≤ size text
  current : (buffer text)[cursor.pos]? = some cursor.current
  peek : (buffer text)[cursor.pos + 1]? = some cursor.peek

/-- The cursors that operations lead to from the beginning of a source. Bytes are passed on a
condition only if it does not hold of the zero bytes behind the source. -/
inductive Visited (source : Source) : Cursor → Prop
  | start : Visited source source.cursor
  | advance {cursor next : Cursor} : Visited source cursor → cursor.advance = .ok next →
    Visited source next
  | advanceBy {cursor next : Cursor} {count : Nat} : Visited source cursor →
    cursor.advanceBy count = .ok next → Visited source next
  | eat {cursor : Cursor} (expected : UInt8) : Visited source cursor →
    Visited source (cursor.eat expected).2
  | eatWhile {cursor : Cursor} {condition : UInt8 → Bool} : Visited source cursor →
    condition 0 = false → Visited source (cursor.eatWhile condition)
  | toNewline {cursor : Cursor} : Visited source cursor → Visited source cursor.toNewline
  | toQuoteOrNewline {cursor : Cursor} : Visited source cursor →
    Visited source cursor.toQuoteOrNewline.2

/-- A property that single steps and jumps keep. -/
structure Kept (property : Cursor → Prop) : Prop where
  step? : ∀ {cursor next : Cursor} {byte : UInt8}, property cursor →
    cursor.step? = some (byte, next) → property next
  skipTo : ∀ {cursor : Cursor} (stop : Char → Bool), property cursor → property (cursor.skipTo stop)

namespace Kept

variable {property : Cursor → Prop} {cursor next : Cursor}

/-- Advancing keeps what steps keep. -/
theorem advance (h : Kept property) (hcursor : property cursor)
    (hadvance : cursor.advance = .ok next) : property next := by
  unfold Cursor.advance at hadvance
  split at hadvance
  · next hstep =>
    cases hadvance
    exact h.step? hcursor hstep
  · cases hadvance

/-- Several steps keep what one step keeps. -/
theorem advanceEach {count : Nat} (h : Kept property) (hcursor : property cursor)
    (hadvance : advanceEach count cursor = .ok next) : property next := by
  induction count generalizing cursor with
  | zero =>
    cases hadvance
    exact hcursor
  | succ count ih =>
    rw [Cursor.advanceEach] at hadvance
    split at hadvance
    · next hfirst => exact ih (h.advance hcursor hfirst) hadvance
    · cases hadvance

/-- Advancing by a count keeps what steps keep. -/
theorem advanceBy {count : Nat} (h : Kept property) (hcursor : property cursor)
    (hadvance : cursor.advanceBy count = .ok next) : property next := by
  unfold Cursor.advanceBy at hadvance
  split at hadvance
  · cases hadvance
  · exact h.advanceEach hcursor hadvance

/-- Eating a byte that is expected keeps what steps keep. -/
theorem eat (h : Kept property) (hcursor : property cursor) (expected : UInt8) :
    property (cursor.eat expected).2 := by
  unfold Cursor.eat
  split
  · next hstep =>
    split
    · exact h.step? hcursor hstep
    · exact hcursor
  · exact hcursor

/-- Passing the bytes that meet a condition keeps what steps keep. -/
theorem eatWhile (h : Kept property) (hcursor : property cursor) (condition : UInt8 → Bool) :
    property (cursor.eatWhile condition) := by
  fun_induction Cursor.eatWhile condition cursor with
  | case1 cursor byte next hstep _ ih => exact ih (h.step? hcursor hstep)
  | case2 => exact hcursor
  | case3 => exact hcursor

/-- What is kept holds wherever operations lead from a source. -/
theorem visited {source : Source} (h : Kept property) (hsource : property source.cursor)
    (hvisited : Visited source cursor) : property cursor := by
  induction hvisited with
  | start => exact hsource
  | advance _ hadvance ih => exact h.advance ih hadvance
  | advanceBy _ hadvance ih => exact h.advanceBy ih hadvance
  | eat expected _ ih => exact h.eat ih expected
  | @eatWhile cursor condition _ _ ih => exact h.eatWhile ih condition
  | toNewline _ ih => exact h.skipTo _ ih
  | toQuoteOrNewline _ ih => exact h.skipTo _ ih

end Kept

variable {text : List Char} {cursor next : Cursor}

/-- A step counts one byte and stays in the text. -/
theorem pos_of_step? {byte : UInt8} (h : cursor.step? = some (byte, next)) :
    next.pos = cursor.pos + 1 ∧ next.text = cursor.text := by
  obtain ⟨whole, pos, pending, rest⟩ := cursor
  cases pending with
  | cons b pending =>
    cases h
    exact ⟨rfl, rfl⟩
  | nil =>
    cases rest with
    | nil => cases h
    | cons c rest =>
      simp only [step?, encodeChar_eq_cons] at h
      cases h
      exact ⟨rfl, rfl⟩

/-- Only at the end is there no step. -/
theorem upcoming_of_step?_eq_none (h : cursor.step? = none) : cursor.upcoming = [] := by
  obtain ⟨whole, pos, pending, rest⟩ := cursor
  cases pending with
  | cons b pending => cases h
  | nil =>
    cases rest with
    | nil => rfl
    | cons c rest =>
      simp only [step?, encodeChar_eq_cons] at h
      cases h

/-- The byte ahead is the first of the bytes ahead and the zero bytes. -/
theorem current_eq (cursor : Cursor) : cursor.current = cursor.upcoming.headD 0 := by
  unfold current
  cases hstep : cursor.step? with
  | none => rw [upcoming_of_step?_eq_none hstep]; rfl
  | some found => rw [upcoming_of_step? hstep]; rfl

/-- The byte after it is the second of them. -/
theorem peek_eq (cursor : Cursor) : cursor.peek = cursor.upcoming.tail.headD 0 := by
  unfold peek
  cases hstep : cursor.step? with
  | none => rw [upcoming_of_step?_eq_none hstep]; rfl
  | some found => rw [upcoming_of_step? hstep, List.tail_cons, ← current_eq]

/-- At the end there is nothing to pass. -/
theorem atEnd_iff (cursor : Cursor) : cursor.atEnd = true ↔ cursor.step? = none := by
  obtain ⟨whole, pos, pending, rest⟩ := cursor
  cases pending with
  | cons byte pending => simp [atEnd, step?]
  | nil =>
    cases rest with
    | nil => simp [atEnd, step?]
    | cons c rest => simp [atEnd, step?, encodeChar_eq_cons]

/-- A cursor that can step is not at the end. -/
theorem atEnd_of_step? {byte : UInt8} (h : cursor.step? = some (byte, next)) :
    cursor.atEnd = false := by
  rw [Bool.eq_false_iff, Ne, atEnd_iff, h]
  simp

/-- The current byte is the one that a step takes. -/
theorem current_of_step? {byte : UInt8} (h : cursor.step? = some (byte, next)) :
    cursor.current = byte := by
  rw [current, h]

/-- As long as bytes are ahead, one can be passed. -/
theorem exists_step? (h : 0 < cursor.remaining) :
    ∃ byte next, cursor.step? = some (byte, next) := by
  cases hstep : cursor.step? with
  | some found => exact ⟨found.1, found.2, rfl⟩
  | none =>
    rw [remaining, upcoming_of_step?_eq_none hstep] at h
    exact absurd h (Nat.lt_irrefl 0)

/-- As many bytes can be passed as are ahead. -/
theorem advanceEach_of_le {count : Nat} (h : count ≤ cursor.remaining) :
    ∃ next, advanceEach count cursor = .ok next ∧ next.pos = cursor.pos + count := by
  induction count generalizing cursor with
  | zero => exact ⟨cursor, rfl, rfl⟩
  | succ count ih =>
    obtain ⟨byte, after, hstep⟩ := exists_step? (Nat.zero_lt_of_lt h)
    have hremaining := remaining_of_step? hstep
    have hrest : count ≤ after.remaining := by omega
    obtain ⟨next, hnext, hpos⟩ := ih hrest
    refine ⟨next, ?_, ?_⟩
    · rw [advanceEach, advance, hstep]
      exact hnext
    · rw [hpos, (pos_of_step? hstep).1]
      omega

/-- No more can. -/
theorem advanceEach_of_lt {count : Nat} (h : cursor.remaining < count) :
    advanceEach count cursor = .error .advancePastEnd := by
  induction count generalizing cursor with
  | zero => exact absurd h (Nat.not_lt_zero _)
  | succ count ih =>
    rw [advanceEach, advance]
    cases hstep : cursor.step? with
    | none => rfl
    | some found =>
      have hremaining := remaining_of_step? hstep
      have hrest : found.2.remaining < count := by omega
      exact ih hrest

namespace InText

/-- The first cursor of a source is at the beginning of its text. -/
theorem cursor_source (source : Source) : InText source.text source.cursor :=
  ⟨rfl, [], rfl, rfl⟩

/-- What a cursor in a text reads is in the buffer. -/
theorem inBuffer (h : InText text cursor) : InBuffer text cursor := by
  obtain ⟨-, bytes, hbytes, hpos⟩ := h
  have hbuffer : buffer text = bytes ++ (cursor.upcoming ++ [0, 0]) := by
    rw [buffer, hbytes, List.append_assoc]
  refine ⟨?_, ?_, ?_⟩
  · rw [← length_encode, hbytes, List.length_append]
    omega
  · rw [hbuffer, ← hpos, current_eq, List.getElem?_append_right (Nat.le_refl _), Nat.sub_self]
    cases cursor.upcoming <;> rfl
  · rw [hbuffer, ← hpos, peek_eq, List.getElem?_append_right (Nat.le_add_right _ 1),
      Nat.add_sub_cancel_left]
    cases cursor.upcoming with
    | nil => rfl
    | cons byte upcoming => cases upcoming <;> rfl

/-- A step stays inside the text. -/
theorem step? {byte : UInt8} (h : InText text cursor)
    (hstep : cursor.step? = some (byte, next)) : InText text next := by
  obtain ⟨htext, bytes, hbytes, hpos⟩ := h
  obtain ⟨hnext, hwhole⟩ := pos_of_step? hstep
  refine ⟨hwhole.trans htext, bytes ++ [byte], ?_, ?_⟩
  · rw [hbytes, upcoming_of_step? hstep, List.append_assoc]
    rfl
  · rw [hnext, ← hpos, List.length_append]
    rfl

/-- A jump passes what is left of a character and then whole characters. -/
theorem skipTo (h : InText text cursor) (stop : Char → Bool) :
    InText text (cursor.skipTo stop) := by
  obtain ⟨htext, bytes, hbytes, hpos⟩ := h
  have hrest := congrArg encode
    (List.takeWhile_append_dropWhile (p := (!stop ·)) (l := cursor.rest))
  rw [encode_append] at hrest
  refine ⟨htext, bytes ++ cursor.pending ++ encode (cursor.rest.takeWhile (!stop ·)), ?_, ?_⟩
  · simp only [Cursor.skipTo, skipChars_eq, upcoming, List.nil_append]
    rw [hbytes, upcoming, List.append_assoc, List.append_assoc, hrest]
  · simp only [Cursor.skipTo, skipChars_eq, List.length_append, length_encode, hpos]

/-- Passed and remaining bytes are those of the text. -/
theorem pos_add_remaining (h : InText text cursor) :
    cursor.pos + cursor.remaining = size text := by
  obtain ⟨-, bytes, hbytes, hpos⟩ := h
  rw [← length_encode, hbytes, List.length_append, hpos, remaining]

/-- Being inside a text is kept by steps and jumps. -/
theorem kept : Kept (InText text) := ⟨step?, fun stop h => h.skipTo stop⟩

end InText

/-- Every operation stays in the text. -/
theorem Visited.inText {source : Source} (h : Visited source cursor) :
    InText source.text cursor :=
  InText.kept.visited (.cursor_source source) h

/-- From the beginning of a source all offsets up to its size are reached, and no others. -/
theorem exists_visited_iff (source : Source) (offset : Nat) :
    (∃ cursor, Visited source cursor ∧ cursor.pos = offset) ↔ offset ≤ source.size := by
  constructor
  · rintro ⟨cursor, hcursor, rfl⟩
    exact hcursor.inText.inBuffer.pos_le
  · intro h
    have hsize := (InText.cursor_source source).pos_add_remaining
    have hword := source.size_le
    have hstart : source.cursor.pos = 0 := rfl
    change offset ≤ size source.text at h
    have hahead : offset ≤ source.cursor.remaining := by omega
    obtain ⟨next, hnext, hpos⟩ := advanceEach_of_le hahead
    have hadvance : source.cursor.advanceBy offset = .ok next := by
      rw [advanceBy, if_neg (by omega), hnext]
    exact ⟨next, .advanceBy .start hadvance, by omega⟩

end Cursor

end LoxScan
