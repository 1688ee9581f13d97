import LoxScan.Path
import LoxScan.SystemError

/-!
# Failures

A failure is what keeps a run from doing its work, apart from what is wrong with the source: the
script cannot be read, or a stream does not serve.
-/

namespace LoxScan

/-- The exit statuses of runs that do not end well. -/
inductive Trouble where
  /-- The command line is not understood. -/
  | usage
  /-- The script has diagnostics. -/
  | data
  /-- There was a failure. -/
  | system
  deriving DecidableEq, Repr

/-- The exit status for a trouble. -/
def Trouble.status : Trouble → Nat
  | usage => 64
  | data => 65
  | system => 74

/-- Why a run failed. -/
inductive Failure where
  /-- There is no such script. -/
  | notFound (path : Path)
  /-- The script may not be read. -/
  | permissionDenied (path : Path)
  /-- The script is not a text. -/
  | invalidText (path : Path)
  /-- The script could not be read for another reason. -/
  | unreadable (path : Path) (error : SystemError)
  /-- A stream did not serve. -/
  | stream (error : SystemError)
  deriving DecidableEq, Repr

namespace Failure

/-- The failure to read a script. -/
def ofRead (path : Path) (error : SystemError) : Failure :=
  match error.cause with
  | .notFound => notFound path
  | .permissionDenied => permissionDenied path
  | .invalidData => invalidText path
  | .other => unreadable path error

/-- The message for a failure. -/
def message : Failure → String
  | notFound path => s!"cannot find file '{path.toText}'"
  | permissionDenied path => s!"permission denied reading '{path.toText}'"
  | invalidText path => s!"'{path.toText}' contains invalid UTF-8 data"
  | unreadable path error => s!"error reading '{path.toText}': {error.text}"
  | stream error => s!"i/o error: {error.text}"

/-- The error behind a failure, where the message names one. -/
def error? : Failure → Option SystemError
  | unreadable _ error | stream error => some error
  | _ => none

/-- The exit status for a failure. -/
def status (_failure : Failure) : Nat := Trouble.system.status

end Failure

end LoxScan
