import LoxScan.Failure
import LoxScan.Lexing
import LoxScan.Stream.Sink

/-!
# Sessions

A session writes tokens to one sink and diagnostics to another. It may stop early: a sink fails,
or a source is too long to be read. What the sinks received until then stays received.
-/

namespace LoxScan

/-- The sink for tokens and the sink for diagnostics. -/
structure Streams where
  out : Sink := {}
  err : Sink := {}
  deriving DecidableEq, Repr

/-- Why a session stopped early. -/
inductive Stop where
  | failed (failure : Failure)
  | faulted (fault : Fault)
  deriving DecidableEq, Repr

/-- Work on the two sinks that may stop early. -/
abbrev Session := EStateM Stop Streams

namespace Session

/-- Work on the sink for tokens. -/
def onOut {α : Type} (work : EStateM SystemError Sink α) : Session α := fun ⟨out, err⟩ =>
  match work out with
  | .ok result out => .ok result ⟨out, err⟩
  | .error error out => .error (.failed (.stream error)) ⟨out, err⟩

/-- Work on the sink for diagnostics. -/
def onErr {α : Type} (work : EStateM SystemError Sink α) : Session α := fun ⟨out, err⟩ =>
  match work err with
  | .ok result err => .ok result ⟨out, err⟩
  | .error error err => .error (.failed (.stream error)) ⟨out, err⟩

/-- Goes on with a result, or stops with a failure. -/
def ofFailure {α : Type} : Except Failure α → Session α
  | .ok result => pure result
  | .error failure => throw (.failed failure)

/-- Goes on with a result, or stops with a fault. -/
def ofFault {α : Type} : Except Fault α → Session α
  | .ok result => pure result
  | .error fault => throw (.faulted fault)

end Session

/-- Whether a source has diagnostics. -/
inductive Outcome where
  | clean
  | flawed
  deriving DecidableEq, Repr

/-- The exit status for an outcome. -/
def Outcome.status : Outcome → Nat
  | clean => 0
  | flawed => Trouble.data.status

/-- The outcome that a lexing stands for. -/
def Lexing.outcome (lexing : Lexing) : Outcome :=
  if lexing.hasDiagnostics then .flawed else .clean

/-- Writes diagnostics, one on a line. -/
def Diagnostic.report (diagnostics : List Diagnostic) : EStateM SystemError Sink Unit :=
  diagnostics.forM fun diagnostic => Sink.writeLine diagnostic.toText

/-- Writes tokens, one on a line. -/
def Tokens.print (tokens : Tokens) : EStateM SystemError Sink Unit :=
  tokens.toList.forM fun token => Sink.writeLine token.toText

namespace Session

/-- Reads a source: writes all its diagnostics, and then all its tokens. -/
def scan (text : String) : Session Outcome := do
  let lexing ← ofFault (lex text)
  onErr (Diagnostic.report lexing.diagnostics)
  onOut lexing.tokens.print
  return lexing.outcome

end Session

end LoxScan
