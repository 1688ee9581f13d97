/-!
# System errors

What a stream or a file system reports when it cannot do what it was asked for. Only the cause of
an error is ever acted on; its text is passed on to the reader.
-/

namespace LoxScan

/-- The causes that are told apart. -/
inductive SystemError.Cause where
  | notFound
  | permissionDenied
  | invalidData
  | other
  deriving DecidableEq, Repr

/-- A cause with its text. -/
structure SystemError where
  cause : SystemError.Cause
  text : String
  deriving DecidableEq, Repr

namespace SystemError

/-- The descriptions of the error numbers of the operating system. -/
def descriptions : List (Nat × String) :=
  [(1, "Operation not permitted"), (2, "No such file or directory"),
    (4, "Interrupted system call"), (5, "Input/output error"),
    (11, "Resource temporarily unavailable"), (13, "Permission denied"),
    (20, "Not a directory"), (21, "Is a directory"), (22, "Invalid argument"),
    (24, "Too many open files"), (28, "No space left on device"), (32, "Broken pipe"),
    (36, "File name too long"), (40, "Too many levels of symbolic links")]

/-- The description of an error number. -/
def describe (number : Nat) : String :=
  (descriptions.lookup number).getD s!"Unknown error {number}"

/-- The cause that an error number stands for. -/
def Cause.ofNumber : Nat → Cause
  | 2 => notFound
  | 1 | 13 => permissionDenied
  | _ => other

/-- The error of an error number. -/
def ofNumber (number : Nat) : SystemError :=
  ⟨.ofNumber number, s!"{describe number} (os error {number})"⟩

/-- A part of a path does not exist. -/
def missing : SystemError := ofNumber 2

/-- A part of a path that is not the last one is a file. -/
def notDirectory : SystemError := ofNumber 20

/-- A directory was to be read. -/
def isDirectory : SystemError := ofNumber 21

/-- A path or a part of one is too long. -/
def nameTooLong : SystemError := ofNumber 36

/-- A path holds a zero byte. -/
def zeroInPath : SystemError := ⟨.other, "file name contained an unexpected NUL byte"⟩

/-- A text was asked for and the bytes encode none. -/
def notText : SystemError := ⟨.invalidData, "stream did not contain valid UTF-8"⟩

/-- A sink has no room for the bytes that were left to write. -/
def sinkFull : SystemError := ⟨.other, "sink full"⟩

/-- A sink cannot be flushed any more. -/
def flushFailed : SystemError := ⟨.other, "flush failed"⟩

/-- An input broke off. -/
def readFailed : SystemError := ⟨.other, "read failed"⟩

end SystemError

end LoxScan
