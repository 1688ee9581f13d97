import LoxScan.Command

/-!
# The program

The command line on the standard streams and the files of the system. What to write and which
status to end with is decided by `Command`, `Script` and `Prompt`.
-/

namespace LoxScan.Standard

/-- The number of an error, which some calls report negated. -/
def errorNumber (word : UInt32) : Nat :=
  if word < 0x80000000 then word.toNat else (0 - word).toNat

/-- The error that the system reports. -/
def systemError : IO.Error → SystemError
  | .noFileOrDirectory .. => .missing
  | .permissionDenied _ word _ | .inappropriateType _ word _ | .invalidArgument _ word _
  | .resourceExhausted _ word _ | .interrupted _ word _ | .hardwareFault word _
  | .resourceVanished word _ | .otherError word _ => .ofNumber (errorNumber word)
  | error => ⟨.other, toString error⟩

/-- Hands on what sinks received, diagnostics first. -/
def deliver (streams : Streams) : IO Unit := do
  let err ← IO.getStderr
  err.write ⟨streams.err.received⟩
  err.flush
  let out ← IO.getStdout
  out.write ⟨streams.out.received⟩
  out.flush

/-- Does work that ends with an exit status. -/
def conclude (work : Session Nat) : IO Nat := do
  let (result, streams) := Command.conclude work {}
  deliver streams
  match result with
  | .ok status => return status
  | .error fault => throw (IO.userError (fault.message?.getD "a character is split"))

/-- The contents of a file, or the error that reading it met. -/
def contents (path : String) : IO (Except SystemError (List UInt8)) := do
  try
    return .ok (← IO.FS.readBinFile path).toList
  catch error =>
    return .error (systemError error)

/-- Reads bytes up to and including a newline. -/
partial def readLine (input : IO.FS.Stream) (line : Array UInt8) : IO (Array UInt8) := do
  let chunk ← input.read 1
  match chunk.data[0]? with
  | none => return line
  | some byte =>
    if byte == newlineByte then return line.push byte else readLine input (line.push byte)

/-- Asks for and answers lines until the input ends. -/
partial def prompt : IO Nat := do
  let _ ← conclude (do Prompt.ask; return 0)
  let line ← readLine (← IO.getStdin) #[]
  if line.isEmpty then
    conclude (do Prompt.finish; return 0)
  else
    let _ ← conclude (do Prompt.answer line.toList; return 0)
    prompt

/-- Does what a command line asks for. -/
def run (arguments : List String) : IO Nat := do
  match Command.ofArguments arguments with
  | .prompt => prompt
  | .script path =>
    let found ← contents path.toText
    conclude (do return (← Script.scan path found).status)
  | .misuse => conclude Command.explain

end LoxScan.Standard

/-- The exit status of the program for its arguments. -/
def main (arguments : List String) : IO UInt32 := do
  try
    return UInt32.ofNat (← LoxScan.Standard.run arguments)
  catch error =>
    let failure := LoxScan.Failure.stream (LoxScan.Standard.systemError error)
    (← IO.getStderr).putStrLn (LoxScan.Command.complaint failure)
    return UInt32.ofNat failure.status
