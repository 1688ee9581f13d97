import LoxScan.Prompt
import LoxScan.Script

/-!
# The command line

Without an argument the command is a prompt, with one it reads a script, and with more it says how
it is used. Its exit status is zero if there is nothing to remark.
-/

namespace LoxScan

/-- What a command line asks for. -/
inductive Command where
  | prompt
  | script (path : Path)
  | misuse
  deriving DecidableEq, Repr

namespace Command

/-- What the arguments ask for. -/
def ofArguments : List String → Command
  | [] => prompt
  | [argument] => script (.ofString argument)
  | _ => misuse

/-- The line that says how the command is used. -/
def usage : String := "Usage: lox [script]"

/-- The line that says why a command failed. -/
def complaint (failure : Failure) : String := s!"error: {failure.message}"

/-- Says how the command is used. -/
def explain : Session Nat := do
  Session.onErr (Sink.writeLine usage)
  return Trouble.usage.status

/-- Does what a command asks for; the result is the exit status of a run that did not fail. -/
def perform (tree : FileTree) (input : Input) : Command → Session Nat
  | prompt => do
    Prompt.run input
    return 0
  | script path => return (← Script.run tree path).status
  | misuse => explain

/-- Ends a command: a failure is written as the last diagnostic, whether or not there is room for
it. The result is the exit status. -/
def conclude (work : Session Nat) (streams : Streams) : Except Fault Nat × Streams :=
  match work streams with
  | .ok status streams => (.ok status, streams)
  | .error (.faulted fault) streams => (.error fault, streams)
  | .error (.failed failure) streams =>
    match Session.onErr (Sink.writeLine (complaint failure)) streams with
    | .ok _ streams | .error _ streams => (.ok failure.status, streams)

/-- The exit status of a command line, and what the sinks received. -/
def run (tree : FileTree) (input : Input) (arguments : List String) :
    Except Fault Nat × Streams :=
  conclude ((ofArguments arguments).perform tree input) {}

end Command

end LoxScan
