import LoxScan.Proofs.Jumps

/-!
# Operations in any order

A source is read through an index into its buffer. Some operations move the index without asking
where the source ends and rely on the two zero bytes behind it. The cursor does the same as such an
index, fault for fault, and no index is ever out of bounds.

Operations may follow each other in any order, copies of the cursor may be saved and taken back, and
an operation that faults changes nothing. What holds of all cursors to which operations lead then
holds after every step.
-/

namespace LoxScan

open Utf8
open Cursor (InText Visited Stands)

/-- The sum of two words, if it is a word. -/
def addWord (left right : Nat) : Except Fault Nat :=
  if maxWord < left + right then .error .addOverflow else .ok (left + right)

/-- Words are added as numbers if the sum is a word. -/
theorem addWord_eq_ok {left right : Nat} (h : left + right ≤ maxWord) :
    addWord left right = .ok (left + right) := if_neg (Nat.not_lt.2 h)

/-- What a cursor can be asked to do. The condition on bytes to be passed is one that ends at the
zero bytes behind a source. -/
inductive Operation where
  | advance
  | advanceBy (count : Nat)
  | eat (expected : UInt8)
  | eatWhile (condition : UInt8 → Bool) (ends : condition 0 = false)
  | toNewline
  | toQuoteOrNewline

/-- What an operation tells: nothing, whether the byte was passed, or the byte that was found. -/
inductive Answer where
  | nothing
  | passed (whether : Bool)
  | found (byte : UInt8)
  deriving DecidableEq, Repr

/-- Performs an operation. -/
def Cursor.perform (cursor : Cursor) : Operation → Except Fault (Answer × Cursor)
  | .advance => do return (.nothing, ← cursor.advance)
  | .advanceBy count => do return (.nothing, ← cursor.advanceBy count)
  | .eat expected => .ok (.passed (cursor.eat expected).1, (cursor.eat expected).2)
  | .eatWhile condition _ => .ok (.nothing, cursor.eatWhile condition)
  | .toNewline => .ok (.nothing, cursor.toNewline)
  | .toQuoteOrNewline =>
    .ok (.found (cursor.toQuoteOrNewline.1.elim 0 lead), cursor.toQuoteOrNewline.2)

/-- What an operation tells, and the position it leads to. -/
def Cursor.located (result : Except Fault (Answer × Cursor)) : Except Fault (Answer × Nat) :=
  (fun done => (done.1, done.2.pos)) <$> result

/-! ## The same on an index -/

namespace Buffered

/-- The byte of the buffer at an index. -/
def byteAt (text : List Char) (index : Nat) : Except Fault UInt8 :=
  match (buffer text)[index]? with
  | some byte => .ok byte
  | none => .error (.indexOutOfBounds (buffer text).length index)

/-- The bytes of the buffer from an index to the end of the text. -/
def ahead (text : List Char) (index : Nat) : Except Fault (List UInt8) :=
  if size text < index then .error (.sliceOrder index (size text))
  else .ok (((buffer text).take (size text)).drop index)

/-- Passes bytes of the buffer as long as they satisfy a condition, wherever the text ends. -/
def passWhile (condition : UInt8 → Bool) (text : List Char) (index : Nat) : Except Fault Nat :=
  match _ : (buffer text)[index]? with
  | some byte =>
    if condition byte then
      if maxWord < index + 1 then .error .addOverflow else passWhile condition text (index + 1)
    else .ok index
  | none => .error (.indexOutOfBounds (buffer text).length index)
termination_by (buffer text).length - index
decreasing_by
  obtain ⟨hindex, -⟩ := List.getElem?_eq_some_iff.1 ‹_›
  omega

/-- The index of the first byte ahead that is sought, if there is one. -/
def seek? (sought : UInt8 → Bool) (text : List Char) (index : Nat) :
    Except Fault (Option Nat) := do
  match (← ahead text index).findIdx? sought with
  | some offset => return some (← addWord index offset)
  | none => return none

/-- Performs an operation on an index. -/
def perform (text : List Char) (index : Nat) : Operation → Except Fault (Answer × Nat)
  | .advance =>
    if index < size text then do return (.nothing, ← addWord index 1)
    else .error .advancePastEnd
  | .advanceBy count => do
    let stop ← addWord index count
    if stop ≤ size text then return (.nothing, stop) else .error .advancePastEnd
  | .eat expected => do
    let byte ← byteAt text index
    if byte == expected && index < size text then return (.passed true, ← addWord index 1)
    else return (.passed false, index)
  | .eatWhile condition _ => do return (.nothing, ← passWhile condition text index)
  | .toNewline => do
    let stop? ← seek? (· == '\n'.toUInt8) text index
    return (.nothing, stop?.getD (size text))
  | .toQuoteOrNewline => do
    match ← seek? (fun byte => byte == '"'.toUInt8 || byte == '\n'.toUInt8) text index with
    | some stop => return (.found (← byteAt text stop), stop)
    | none => return (.found 0, size text)

end Buffered

/-! ## Single operations -/

namespace Cursor

variable {source : Source} {cursor next : Cursor} {operation : Operation} {answer : Answer}

/-- Operations lead on from where operations lead. -/
theorem Visited.perform (h : Visited source cursor)
    (hperform : cursor.perform operation = .ok (answer, next)) : Visited source next := by
  cases operation with
  | advance =>
    obtain ⟨after, hadvance, hafter⟩ := bind_eq_ok_iff.1 hperform
    cases hafter
    exact h.advance hadvance
  | advanceBy count =>
    obtain ⟨after, hadvance, hafter⟩ := bind_eq_ok_iff.1 hperform
    cases hafter
    exact h.advanceBy hadvance
  | eat expected =>
    cases hperform
    exact h.eat expected
  | eatWhile condition ends =>
    cases hperform
    exact h.eatWhile ends
  | toNewline =>
    cases hperform
    exact h.toNewline
  | toQuoteOrNewline =>
    cases hperform
    exact h.toQuoteOrNewline

/-- No operation gives back bytes that were passed. -/
theorem remaining_perform (hperform : cursor.perform operation = .ok (answer, next)) :
    next.remaining ≤ cursor.remaining := by
  cases operation with
  | advance =>
    obtain ⟨after, hadvance, hafter⟩ := bind_eq_ok_iff.1 hperform
    cases hafter
    have := remaining_advance hadvance
    omega
  | advanceBy count =>
    obtain ⟨after, hadvance, hafter⟩ := bind_eq_ok_iff.1 hperform
    cases hafter
    exact remaining_advanceBy hadvance
  | eat expected =>
    cases hperform
    exact remaining_eat cursor expected
  | eatWhile condition ends =>
    cases hperform
    exact remaining_eatWhile condition cursor
  | toNewline =>
    cases hperform
    exact remaining_skipTo _ cursor
  | toQuoteOrNewline =>
    cases hperform
    exact remaining_toQuoteOrNewline cursor

/-- A cursor is at the end if it has passed all bytes. -/
theorem Visited.atEnd_iff (h : Visited source cursor) :
    cursor.atEnd = true ↔ cursor.pos = size source.text := by
  have hsum := h.inText.pos_add_remaining
  rw [Cursor.atEnd_iff]
  constructor
  · intro hstep
    rw [remaining, upcoming_of_step?_eq_none hstep] at hsum
    exact hsum
  · intro hpos
    cases hstep : cursor.step? with
    | none => rfl
    | some found =>
      have hremaining := remaining_of_step? hstep
      omega

/-- Where there is a byte ahead, its index is in the text. -/
theorem Visited.pos_lt_of_step? {byte : UInt8} (h : Visited source cursor)
    (hstep : cursor.step? = some (byte, next)) : cursor.pos < size source.text := by
  have hsum := h.inText.pos_add_remaining
  have hremaining := remaining_of_step? hstep
  omega

/-- What is ahead of a cursor is ahead of its index. -/
theorem InText.ahead {text : List Char} (h : InText text cursor) :
    Buffered.ahead text cursor.pos = .ok cursor.upcoming := by
  have hle := h.inBuffer.pos_le
  obtain ⟨-, bytes, hbytes, hpos⟩ := h
  rw [Buffered.ahead, if_neg (Nat.not_lt.2 hle), buffer, List.take_left' (length_encode text),
    hbytes, ← hpos, List.drop_left]

/-- The byte ahead of a cursor is the one at its index. -/
theorem InBuffer.byteAt {text : List Char} (h : InBuffer text cursor) :
    Buffered.byteAt text cursor.pos = .ok cursor.current := by
  rw [Buffered.byteAt, h.current]

/-- At the end the cursor sees the zero bytes. -/
theorem zero_of_atEnd (h : cursor.atEnd = true) : cursor.current = 0 ∧ cursor.peek = 0 := by
  rw [Cursor.atEnd_iff] at h
  simp only [current, peek, h, and_self]

end Cursor

namespace Buffered

variable {text : List Char} {index : Nat} {condition sought : UInt8 → Bool} {stop : Char → Bool}
  {source : Source} {cursor : Cursor}

/-- One byte of the loop unfolded. -/
theorem passWhile_of_getElem? {byte : UInt8} (h : (buffer text)[index]? = some byte) :
    passWhile condition text index =
      if condition byte then
        if maxWord < index + 1 then .error .addOverflow else passWhile condition text (index + 1)
      else .ok index := by
  rw [passWhile]
  split
  · next hother =>
    cases h.symm.trans hother
    rfl
  · next hother => cases h.symm.trans hother

/-- The loop over the buffer passes what the cursor passes, and ends at the zero bytes. -/
theorem passWhile_eq (h : InText source.text cursor) (hends : condition 0 = false) :
    passWhile condition source.text cursor.pos = .ok (cursor.eatWhile condition).pos := by
  fun_induction Cursor.eatWhile condition cursor with
  | case1 cursor byte next hstep hcondition ih =>
    have hword := (h.step? hstep).inBuffer.pos_le.trans source.size_le
    rw [(Cursor.pos_of_step? hstep).1] at hword
    rw [passWhile_of_getElem? h.inBuffer.current, Cursor.current_of_step? hstep, if_pos hcondition,
      if_neg (Nat.not_lt.2 hword), ← ih (h.step? hstep), (Cursor.pos_of_step? hstep).1]
  | case2 cursor byte next hstep hcondition =>
    rw [passWhile_of_getElem? h.inBuffer.current, Cursor.current_of_step? hstep, if_neg hcondition]
  | case3 cursor hstep =>
    rw [passWhile_of_getElem? h.inBuffer.current, Cursor.current, hstep]
    simp only [hends, Bool.false_eq_true, if_false]

/-- What is sought is found where the jump of the cursor ends, unless that is at the end. -/
theorem seek?_eq (h : Visited source cursor) (hseeks : Cursor.Seeks sought stop)
    (hstop : Visited source (cursor.skipTo stop)) :
    seek? sought source.text cursor.pos =
      .ok (if (cursor.skipTo stop).atEnd then none else some (cursor.skipTo stop).pos) := by
  have hsum := h.inText.pos_add_remaining
  have hpos := Cursor.pos_skipTo hseeks (.of_visited h)
  have hword := source.size_le
  rw [seek?, h.inText.ahead]
  simp only [bind, Except.bind]
  by_cases hatEnd : (cursor.skipTo stop).atEnd = true
  · have hall : cursor.upcoming.findIdx sought = cursor.upcoming.length := by
      have hsize := hstop.atEnd_iff.1 hatEnd
      rw [hpos, ← hsum, Cursor.remaining] at hsize
      exact Nat.add_left_cancel hsize
    rw [List.findIdx?_eq_none_iff_findIdx_eq.2 hall, if_pos hatEnd]
    rfl
  · have hle := hstop.inText.inBuffer.pos_le
    have hne : (cursor.skipTo stop).pos ≠ size source.text := mt hstop.atEnd_iff.2 hatEnd
    rw [hpos, ← hsum, Cursor.remaining] at hne hle
    have hlt : cursor.upcoming.findIdx sought < cursor.upcoming.length := by omega
    rw [List.findIdx?_eq_some_iff_findIdx_eq.2 ⟨hlt, rfl⟩, if_neg hatEnd, hpos]
    rw [Cursor.remaining] at hsum
    simp only [addWord_eq_ok (show cursor.pos + cursor.upcoming.findIdx sought ≤ maxWord by omega)]
    rfl

end Buffered

namespace Cursor

variable {source : Source} {cursor : Cursor} {operation : Operation}

/-- Bytes can be passed up to the size of the source. -/
theorem Visited.advanceBy_cases (h : Visited source cursor) (count : Nat) :
    (cursor.pos + count ≤ source.size ∧
        ∃ next, cursor.advanceBy count = .ok next ∧ next.pos = cursor.pos + count) ∨
      source.size < cursor.pos + count ∧ cursor.advanceBy count =
        .error (if maxWord < cursor.pos + count then .addOverflow else .advancePastEnd) := by
  have hsum := h.inText.pos_add_remaining
  have hword := source.size_le
  rw [Source.size, Cursor.advanceBy]
  by_cases hle : cursor.pos + count ≤ size source.text
  · rw [if_neg (by omega)]
    exact Or.inl ⟨hle, advanceEach_of_le (by omega)⟩
  · rw [advanceEach_of_lt (by omega)]
    split
    · exact Or.inr ⟨by omega, rfl⟩
    · exact Or.inr ⟨by omega, rfl⟩

/-- Advancing an index of the buffer is advancing the cursor there. -/
theorem Visited.buffered_advance (h : Visited source cursor) :
    Buffered.perform source.text cursor.pos .advance = located (cursor.perform .advance) := by
  rw [Buffered.perform, Cursor.perform, Cursor.advance]
  cases hstep : cursor.step? with
  | none =>
    have hpos := h.atEnd_iff.1 ((Cursor.atEnd_iff cursor).2 hstep)
    rw [if_neg (Nat.not_lt.2 (Nat.le_of_eq hpos.symm))]
    rfl
  | some found =>
    have hlt := h.pos_lt_of_step? hstep
    rw [if_pos hlt, addWord_eq_ok (Nat.le_trans hlt source.size_le), ← (pos_of_step? hstep).1]
    rfl

/-- Advancing an index by a count is advancing the cursor there by it. -/
theorem Visited.buffered_advanceBy (h : Visited source cursor) (count : Nat) :
    Buffered.perform source.text cursor.pos (.advanceBy count) =
      located (cursor.perform (.advanceBy count)) := by
  rw [Buffered.perform, Cursor.perform]
  rcases h.advanceBy_cases count with ⟨hle, next, hnext, hpos⟩ | ⟨hlt, hfault⟩
  · rw [hnext, addWord_eq_ok (Nat.le_trans hle source.size_le), ← hpos]
    rw [← hpos] at hle
    exact if_pos hle
  · rw [hfault, addWord]
    split
    · rfl
    · exact if_neg (Nat.not_le.2 hlt)

/-- Eating an expected byte at an index is eating it at the cursor. -/
theorem Visited.buffered_eat (h : Visited source cursor) (expected : UInt8) :
    Buffered.perform source.text cursor.pos (.eat expected) =
      located (cursor.perform (.eat expected)) := by
  rw [Buffered.perform, Cursor.perform, h.inText.inBuffer.byteAt, Cursor.eat]
  cases hstep : cursor.step? with
  | none =>
    have hpos := h.atEnd_iff.1 ((Cursor.atEnd_iff cursor).2 hstep)
    have hend : decide (cursor.pos < size source.text) = false :=
      decide_eq_false (Nat.not_lt.2 (Nat.le_of_eq hpos.symm))
    simp only [bind, Except.bind, hend, Bool.and_false, Bool.false_eq_true, if_false]
    rfl
  | some found =>
    have hlt := h.pos_lt_of_step? hstep
    rw [addWord_eq_ok (Nat.le_trans hlt source.size_le), Cursor.current_of_step? hstep,
      ← (pos_of_step? hstep).1]
    simp only [bind, Except.bind, hlt, decide_true, Bool.and_true]
    split
    · rfl
    · rfl

/-- The jump of an index to a newline is that of the cursor. -/
theorem Visited.buffered_toNewline (h : Visited source cursor) :
    Buffered.perform source.text cursor.pos .toNewline = located (cursor.perform .toNewline) := by
  rw [Buffered.perform, Cursor.perform, Buffered.seek?_eq h seeks_newline h.toNewline]
  change Except.ok _ = Except.ok _
  split
  · next hend => rw [Option.getD_none, ← h.toNewline.atEnd_iff.1 hend]
  · rfl

/-- The character that a jump finds is told by the byte ahead. -/
theorem found_toQuoteOrNewline (cursor : Cursor) :
    cursor.toQuoteOrNewline.1.elim 0 lead = cursor.toQuoteOrNewline.2.current := by
  simp only [toQuoteOrNewline, skipTo, current]
  generalize skipChars _ _ cursor.rest = stop
  obtain ⟨pos, rest⟩ := stop
  cases rest with
  | nil => rfl
  | cons c rest => simp [step?, encodeChar_eq_cons]

/-- The jump of an index to a quote or a newline is that of the cursor. -/
theorem Visited.buffered_toQuoteOrNewline (h : Visited source cursor) :
    Buffered.perform source.text cursor.pos .toQuoteOrNewline =
      located (cursor.perform .toQuoteOrNewline) := by
  have hstop := h.toQuoteOrNewline
  have hbyte := hstop.inText.inBuffer.byteAt
  rw [Buffered.perform, Cursor.perform, found_toQuoteOrNewline,
    Buffered.seek?_eq h seeks_quoteOrNewline hstop]
  change (match if cursor.toQuoteOrNewline.2.atEnd then none else
    some cursor.toQuoteOrNewline.2.pos with | some stop => _ | none => _) = Except.ok _
  generalize cursor.toQuoteOrNewline.2 = stop at *
  by_cases hend : stop.atEnd = true
  · rw [if_pos hend, ← hstop.atEnd_iff.1 hend, (zero_of_atEnd hend).1]
    rfl
  · rw [if_neg hend]
    simp only [hbyte]
    rfl

/-- An index into the buffer answers as the cursor does, and faults as it does. -/
theorem Visited.buffered (h : Visited source cursor) (operation : Operation) :
    Buffered.perform source.text cursor.pos operation = located (cursor.perform operation) := by
  cases operation with
  | advance => exact h.buffered_advance
  | advanceBy count => exact h.buffered_advanceBy count
  | eat expected => exact h.buffered_eat expected
  | eatWhile condition ends =>
    rw [Buffered.perform, Cursor.perform, Buffered.passWhile_eq h.inText ends]
    rfl
  | toNewline => exact h.buffered_toNewline
  | toQuoteOrNewline => exact h.buffered_toQuoteOrNewline

/-- Only passing a number of bytes can fault. -/
theorem eq_of_perform_eq_error {fault : Fault} (h : cursor.perform operation = .error fault) :
    operation = .advance ∨ ∃ count, operation = .advanceBy count := by
  cases operation with
  | advance => exact Or.inl rfl
  | advanceBy count => exact Or.inr ⟨count, rfl⟩
  | eat | eatWhile | toNewline | toQuoteOrNewline => cases h

/-- What holds of a cursor of a source, and of what it can be asked to do. -/
structure Orderly (source : Source) (cursor : Cursor) : Prop where
  /-- The position is in the source, and the two bytes ahead are in its buffer. -/
  inBuffer : cursor.InBuffer source.text
  atEnd_iff : cursor.atEnd = true ↔ cursor.pos = source.size
  zero_of_atEnd : cursor.atEnd = true → cursor.current = 0 ∧ cursor.peek = 0
  advance_iff : (∃ fault, cursor.perform .advance = .error fault) ↔ cursor.pos = source.size
  advanceBy_iff : ∀ count, (∃ fault, cursor.perform (.advanceBy count) = .error fault) ↔
    source.size < cursor.pos + count
  /-- Nothing else faults. -/
  eq_of_error : ∀ operation fault, cursor.perform operation = .error fault →
    operation = .advance ∨ ∃ count, operation = .advanceBy count
  pos_le : ∀ operation answer next, cursor.perform operation = .ok (answer, next) →
    cursor.pos ≤ next.pos
  buffered : ∀ operation,
    Buffered.perform source.text cursor.pos operation = located (cursor.perform operation)

/-- Wherever operations lead, a cursor is orderly. -/
theorem Visited.orderly (h : Visited source cursor) : Orderly source cursor := by
  constructor
  case inBuffer => exact h.inText.inBuffer
  case atEnd_iff => exact h.atEnd_iff
  case zero_of_atEnd => exact Cursor.zero_of_atEnd
  case advance_iff =>
    rw [Source.size, ← h.atEnd_iff, Cursor.atEnd_iff, Cursor.perform, Cursor.advance]
    cases cursor.step? with
    | none => exact ⟨fun _ => rfl, fun _ => ⟨_, rfl⟩⟩
    | some found =>
      constructor
      · rintro ⟨fault, hfault⟩
        cases hfault
      · rintro hstep
        cases hstep
  case advanceBy_iff =>
    intro count
    rw [Cursor.perform]
    rcases h.advanceBy_cases count with ⟨hle, next, hnext, -⟩ | ⟨hlt, hfault⟩
    · rw [hnext]
      constructor
      · rintro ⟨fault, hfault⟩
        cases hfault
      · exact fun hlt => absurd hle (Nat.not_le.2 hlt)
    · rw [hfault]
      exact ⟨fun _ => hlt, fun _ => ⟨_, rfl⟩⟩
  case eq_of_error => exact fun operation fault => eq_of_perform_eq_error
  case pos_le =>
    intro operation answer next hperform
    have hle := remaining_perform hperform
    have hsum := h.inText.pos_add_remaining
    have hnext := (h.perform hperform).inText.pos_add_remaining
    omega
  case buffered => exact h.buffered

end Cursor

/-! ## Sequences of operations -/

/-- A cursor, and the copies of it that were saved, in their order. -/
structure Marked where
  cursor : Cursor
  copies : List Cursor

/-- An operation, or the use of copies. -/
inductive Action where
  | perform (operation : Operation)
  | save
  | restore (number : Nat)

namespace Marked

/-- Takes an action. A copy that was never saved cannot be taken back. -/
def act (marked : Marked) : Action → Except Fault Marked
  | .perform operation => do return { marked with cursor := (← marked.cursor.perform operation).2 }
  | .save => .ok { marked with copies := marked.copies ++ [marked.cursor] }
  | .restore number => .ok { marked with cursor := (marked.copies[number]?).getD marked.cursor }

/-- An action that faults changes nothing. -/
def after (marked : Marked) (action : Action) : Marked :=
  match marked.act action with
  | .ok next => next
  | .error _ => marked

/-- Takes one action after the other. -/
def run (marked : Marked) (actions : List Action) : Marked := actions.foldl after marked

/-- Cursor and copies are where operations lead. -/
structure InSource (source : Source) (marked : Marked) : Prop where
  cursor : Visited source marked.cursor
  copies : ∀ copy ∈ marked.copies, Visited source copy

variable {source : Source} {marked : Marked} {operation : Operation}

/-- An operation that succeeds moves the cursor. -/
theorem after_of_ok {done : Answer × Cursor} (h : marked.cursor.perform operation = .ok done) :
    marked.after (.perform operation) = { marked with cursor := done.2 } := by
  rw [Marked.after, act, h]
  rfl

/-- An operation that fails leaves everything alone. -/
theorem after_of_error {fault : Fault} (h : marked.cursor.perform operation = .error fault) :
    marked.after (.perform operation) = marked := by
  rw [Marked.after, act, h]
  rfl

/-- Actions keep a cursor and its copies in the source. -/
theorem InSource.after (h : InSource source marked) (action : Action) :
    InSource source (marked.after action) := by
  cases action with
  | perform operation =>
    cases hperform : marked.cursor.perform operation with
    | error fault => rwa [after_of_error hperform]
    | ok done =>
      rw [after_of_ok hperform]
      exact ⟨h.cursor.perform hperform, h.copies⟩
  | save =>
    refine ⟨h.cursor, fun copy hcopy => ?_⟩
    rcases List.mem_append.1 hcopy with hcopy | hcopy
    · exact h.copies copy hcopy
    · exact List.mem_singleton.1 hcopy ▸ h.cursor
  | restore number =>
    refine ⟨?_, h.copies⟩
    simp only [Marked.after, act]
    cases hcopy : marked.copies[number]? with
    | none => exact h.cursor
    | some copy => exact h.copies copy (List.mem_of_getElem? hcopy)

/-- A run of actions keeps a cursor and its copies in the source. -/
theorem InSource.run (h : InSource source marked) (actions : List Action) :
    InSource source (marked.run actions) := by
  induction actions generalizing marked with
  | nil => exact h
  | cons action actions ih => exact ih (h.after action)

/-- Only taking back a copy leads back. -/
theorem InSource.pos_le_after (h : InSource source marked) {action : Action}
    (haction : ∀ number, action ≠ .restore number) :
    marked.cursor.pos ≤ (marked.after action).cursor.pos := by
  cases action with
  | perform operation =>
    cases hperform : marked.cursor.perform operation with
    | error fault => rw [after_of_error hperform]
    | ok done =>
      rw [after_of_ok hperform]
      exact h.cursor.orderly.pos_le operation done.1 done.2 hperform
  | save => exact Nat.le_refl _
  | restore number => exact absurd rfl (haction number)

/-- Without a restored copy a run of actions never goes back. -/
theorem InSource.pos_le_run (h : InSource source marked) {actions : List Action}
    (hactions : ∀ number, .restore number ∉ actions) :
    marked.cursor.pos ≤ (marked.run actions).cursor.pos := by
  induction actions generalizing marked with
  | nil => exact Nat.le_refl _
  | cons action actions ih =>
    have hfirst : ∀ number, action ≠ .restore number := by
      rintro number rfl
      exact hactions number List.mem_cons_self
    exact (h.pos_le_after hfirst).trans
      (ih (h.after action) fun number hnumber => hactions number (List.mem_cons_of_mem _ hnumber))

end Marked

/-- Whatever is done with a cursor from the beginning of a source, it and its copies are orderly
after every step, and only taking back a copy leads back. -/
theorem operations_orderly (source : Source) (actions : List Action) :
    ((Marked.mk source.cursor []).run actions).cursor.Orderly source ∧
      (∀ copy ∈ ((Marked.mk source.cursor []).run actions).copies, copy.Orderly source) ∧
      ∀ later : List Action, (∀ number, .restore number ∉ later) →
        ((Marked.mk source.cursor []).run actions).cursor.pos ≤
          ((Marked.mk source.cursor []).run (actions ++ later)).cursor.pos := by
  have hstart : Marked.InSource source ⟨source.cursor, []⟩ := ⟨.start, by simp⟩
  have hrun := hstart.run actions
  refine ⟨hrun.cursor.orderly, fun copy hcopy => (hrun.copies copy hcopy).orderly, ?_⟩
  intro later hlater
  have hle := hrun.pos_le_run hlater
  rwa [Marked.run, Marked.run, ← List.foldl_append] at hle

/-- A zero byte is passed where it stands in a source, and refused where it stands behind it. -/
theorem operations_orderly_of_zero_byte :
    let marked := (Marked.mk ⟨['\x00'], 0, [], ['\x00']⟩ []).run
      [.save, .perform (.eat 0), .perform (.eat 0), .perform .advance]
    marked.cursor.pos = 1 ∧ marked.cursor.atEnd = true ∧ marked.cursor.peek = 0 ∧
      marked.cursor.pos ≤ (marked.run [.perform .toNewline]).cursor.pos ∧
      (marked.run [.restore 0]).cursor.pos = 0 := by
  obtain ⟨horderly, -, hlater⟩ := operations_orderly ⟨['\x00'], by decide⟩
    [.save, .perform (.eat 0), .perform (.eat 0), .perform .advance]
  have hend := horderly.atEnd_iff.2 rfl
  refine ⟨rfl, hend, (horderly.zero_of_atEnd hend).2, ?_, rfl⟩
  exact hlater [.perform .toNewline] (by simp)

end LoxScan
