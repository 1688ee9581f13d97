import LoxScan.Path
import LoxScan.SystemError

/-!
# File trees

A file tree holds the files and directories that paths lead to. A path is followed part by part,
and the first part that leads nowhere decides the error.
-/

namespace LoxScan

/-- What a path leads to. -/
inductive FileTree.Entry where
  | file (contents : List UInt8)
  | directory
  deriving DecidableEq, Repr

/-- The entries below the root, each with the parts of its place, and the place from which paths
are followed that do not start at the root. -/
structure FileTree where
  entries : List (List (List UInt8) × FileTree.Entry) := []
  home : List (List UInt8) := []
  deriving DecidableEq, Repr

namespace FileTree

/-- The longest part of a path. -/
def maxPart : Nat := 255

/-- The longest path. -/
def maxPath : Nat := 4095

/-- Puts an entry at a place. -/
def insert (tree : FileTree) (place : List (List UInt8)) (entry : Entry) : FileTree :=
  { tree with entries := (place, entry) :: tree.entries }

/-- What is at a place. The root is a directory. -/
def entry? (tree : FileTree) (place : List (List UInt8)) : Option Entry :=
  if place.isEmpty then some .directory else tree.entries.lookup place

/-- Follows parts from a place. An empty part and a single dot stay, a double dot leads up and at
the root stays; only a directory can be passed. -/
def follow (tree : FileTree) (place : List (List UInt8)) :
    List (List UInt8) → Except SystemError Entry
  | [] =>
    match tree.entry? place with
    | some entry => .ok entry
    | none => .error .missing
  | part :: parts =>
    match tree.entry? place with
    | some .directory =>
      if part = [] ∨ part = [0x2E] then tree.follow place parts
      else if part = [0x2E, 0x2E] then tree.follow place.dropLast parts
      else if maxPart < part.length then .error .nameTooLong
      else tree.follow (place ++ [part]) parts
    | some (.file _) => .error .notDirectory
    | none => .error .missing

/-- What a path leads to. -/
def resolve (tree : FileTree) (path : Path) : Except SystemError Entry :=
  if path.bytes.contains 0 then .error .zeroInPath
  else if path.bytes.isEmpty then .error .missing
  else if maxPath < path.bytes.length then .error .nameTooLong
  else tree.follow (if path.isAbsolute then [] else tree.home) path.parts

/-- The bytes of the file that a path leads to. -/
def readBytes (tree : FileTree) (path : Path) : Except SystemError (List UInt8) := do
  match ← tree.resolve path with
  | .file contents => return contents
  | .directory => throw .isDirectory

end FileTree

end LoxScan
