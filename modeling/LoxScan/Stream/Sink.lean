import LoxScan.SystemError
import LoxScan.Text.Utf8

/-!
# Sinks

A sink keeps the bytes that it receives. It may have room for a number of bytes only; a write
that does not fit leaves its front behind and fails, and a write of nothing always succeeds.
-/

namespace LoxScan

/-- The bytes received, how many more fit, and how many more flushes succeed; `none` is no
limit. -/
structure Sink where
  received : Array UInt8 := #[]
  room : Option Nat := none
  flushes : Option Nat := none
  deriving DecidableEq, Repr

namespace Sink

/-- The bytes received. -/
def bytes (sink : Sink) : List UInt8 := sink.received.toList

/-- Writes bytes, as far as there is room for them. -/
def write (bytes : List UInt8) : EStateM SystemError Sink Unit := fun sink =>
  match sink.room with
  | none => .ok () { sink with received := sink.received ++ bytes }
  | some room =>
    let kept : Sink :=
      { sink with
        received := sink.received ++ bytes.take room
        room := some (room - bytes.length) }
    if bytes.length ≤ room then .ok () kept else .error .sinkFull kept

/-- Writes a line and the newline that ends it. -/
def writeLine (line : String) : EStateM SystemError Sink Unit :=
  write (Utf8.encode (line.toList ++ ['\n']))

/-- Flushes, if that may still succeed. -/
def flush : EStateM SystemError Sink Unit := fun sink =>
  match sink.flushes with
  | none => .ok () sink
  | some 0 => .error .flushFailed sink
  | some (flushes + 1) => .ok () { sink with flushes := some flushes }

end Sink

end LoxScan
