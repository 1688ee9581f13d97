import LoxScan.Fault
import LoxScan.Text.Slice

/-!
# Spans

A span is a range of byte offsets of a source. Spans made by `make` are ordered; the fields can
also be given directly, and then every operation says what a reversed range means.
-/

namespace LoxScan

/-- The bytes from `start` up to, and without, `stop`. -/
structure Span where
  start : Nat
  stop : Nat
  deriving DecidableEq, Repr

namespace Span

/-- The span of an ordered range. -/
def make (start stop : Nat) : Except Fault Span :=
  if start ≤ stop then .ok ⟨start, stop⟩ else .error .spanOrder

/-- The empty span at an offset. -/
def point (offset : Nat) : Span := ⟨offset, offset⟩

/-- The span of what comes from no source. -/
def origin : Span := point 0

/-- The number of bytes covered. -/
def length (span : Span) : Except Fault Nat :=
  if span.start ≤ span.stop then .ok (span.stop - span.start) else .error .subOverflow

/-- Whether both ends are one offset. -/
def isEmpty (span : Span) : Bool := span.start == span.stop

/-- Whether an offset lies in the span. -/
def contains (span : Span) (offset : Nat) : Bool :=
  span.start ≤ offset && offset < span.stop

/-- The part of a text that the span covers, if there is such a part. -/
def slice? (span : Span) (text : List Char) : Option (List Char) :=
  Text.slice? span.start span.stop text

/-- The written form `start..stop`. -/
def toText (span : Span) : String := s!"{span.start}..{span.stop}"

/-- Making a span succeeds exactly on an ordered range. -/
theorem make_eq_ok_iff (start stop : Nat) (span : Span) :
    make start stop = .ok span ↔ start ≤ stop ∧ span = ⟨start, stop⟩ := by
  by_cases h : start ≤ stop <;> simp [make, h, eq_comm]

end Span

end LoxScan
