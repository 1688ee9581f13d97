/-!
# Faults

A fault is the use of an operation outside the conditions under which it is defined. It is not a
remark on the source that is being read (those are diagnostics): the work stops at the first one.
Every operation that can be misused returns its fault as a value, so that the absence of faults
is a statement about that value.
-/

namespace LoxScan

/-- Byte offsets, lengths and line numbers are at most the largest 32-bit word. -/
def maxWord : Nat := 4294967295

/-- Why an operation has no result. -/
inductive Fault where
  /-- The source has more bytes than an offset can count. -/
  | sourceTooLong
  /-- A cursor was moved beyond the end of its source. -/
  | advancePastEnd
  /-- A slice of a source of `size` bytes was to end at `stop`. -/
  | sliceEnd (stop size : Nat)
  /-- A slice was to begin after its own end. -/
  | sliceOrder (start stop : Nat)
  /-- A slice was to begin or end inside a character. -/
  | splitCharacter
  /-- A span was to begin after its own end. -/
  | spanOrder
  /-- A sum has no 32-bit word. -/
  | addOverflow
  /-- A difference has no 32-bit word. -/
  | subOverflow
  /-- A sequence of `size` entries was asked for the entry `index`. -/
  | indexOutOfBounds (size index : Nat)
  /-- A lexeme that was scanned as a number is not a numeral. -/
  | unreadableNumber
  deriving DecidableEq, Repr

namespace Fault

/-- The text of a fault; a split character is reported without one. -/
def message? : Fault → Option String
  | sourceTooLong => some s!"source exceeds {maxWord} bytes"
  | advancePastEnd => some "advance past end of source"
  | sliceEnd stop size => some s!"slice end {stop} exceeds source length {size}"
  | sliceOrder start stop => some s!"slice start {start} exceeds end {stop}"
  | splitCharacter => none
  | spanOrder => some "assertion failed: start <= end"
  | addOverflow => some "attempt to add with overflow"
  | subOverflow => some "attempt to subtract with overflow"
  | indexOutOfBounds size index =>
    some s!"index out of bounds: the len is {size} but the index is {index}"
  | unreadableNumber => some "digit run failed to parse"

end Fault

/-- A step and what follows it have a result if both have one. -/
theorem bind_eq_ok_iff {α β : Type} {step : Except Fault α} {follow : α → Except Fault β}
    {result : β} :
    (step >>= follow) = .ok result ↔ ∃ found, step = .ok found ∧ follow found = .ok result := by
  cases step <;> simp [Bind.bind, Except.bind]

end LoxScan
