import LoxScan.FileTree
import LoxScan.Session

/-!
# Scripts

A script is a source in a file. A file that is not a text is not a script: nothing of it is read
as a source.
-/

namespace LoxScan.Script

/-- The text of the contents of a file. -/
def text (contents : List UInt8) : Except SystemError String :=
  match Utf8.decode? contents with
  | some text => .ok (String.ofList text)
  | none => .error .notText

/-- The text of a script. -/
def read (tree : FileTree) (path : Path) : Except Failure String :=
  (tree.readBytes path >>= text).mapError (Failure.ofRead path)

/-- Reads what a file was found to hold as a source. -/
def scan (path : Path) (contents : Except SystemError (List UInt8)) : Session Outcome := do
  let text ← Session.ofFailure ((contents >>= text).mapError (Failure.ofRead path))
  Session.scan text

/-- Reads a script as a source. -/
def run (tree : FileTree) (path : Path) : Session Outcome := scan path (tree.readBytes path)

end LoxScan.Script
