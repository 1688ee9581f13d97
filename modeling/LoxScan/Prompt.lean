import LoxScan.Session
import LoxScan.Stream.Input
import LoxScan.Text.Decode

/-!
# The prompt

The prompt asks for a line, reads it as a source of its own, and asks again until the input ends.
Bytes of a line that encode no text are replaced, so that a line never ends the session.
-/

namespace LoxScan.Prompt

/-- What asks for a line. -/
def mark : List UInt8 := Utf8.encode ['>', ' ']

/-- The byte that may stand before the newline that ends a line. -/
def carriageReturn : UInt8 := 0x0D

/-- A sequence without its last entry, if that is a given one. -/
def dropFinal? (final : UInt8) (bytes : List UInt8) : Option (List UInt8) :=
  if bytes.getLast? = some final then some bytes.dropLast else none

/-- A line without its ending: a newline, and one carriage return before it. A line that no
newline ends is left alone. -/
def content (line : List UInt8) : List UInt8 :=
  match dropFinal? newlineByte line with
  | some body => (dropFinal? carriageReturn body).getD body
  | none => line

/-- The source that a line is. -/
def source (line : List UInt8) : String := String.ofList (Utf8.decodeLossy (content line))

/-- Asks for a line. -/
def ask : Session Unit := do
  Session.onOut (Sink.write mark)
  Session.onOut Sink.flush

/-- Reads a line as a source. -/
def answer (line : List UInt8) : Session Unit := do
  let _ ← Session.scan (source line)

/-- Ends the line on which the last mark stands. -/
def finish : Session Unit := Session.onOut (Sink.write [newlineByte])

/-- Asks for and answers the lines of an input; behind the last one stands a newline. -/
def run (input : Input) : Session Unit := do
  ask
  match _ : input.readLine? with
  | .error error => throw (.failed (.stream error))
  | .ok none => finish
  | .ok (some (line, rest)) =>
    answer line
    run rest
termination_by input.bytes.length
decreasing_by exact Input.length_of_readLine? ‹_›

end LoxScan.Prompt
