import DocImage.Files.Tree

/-!
The files as a program meets them. A program asks of one path after another whether a file is there,
opens a file, finds the place of a file, asks for its length and time, and reads it. Others may
change the files between any two of these accesses, so each of them meets files of its own
(`Accesses`); and each may fail for a reason that lies in no file. Files that stay as they are meet
all accesses alike (`Accesses.still`).
-/

namespace DocImage

/-- What the accesses meet on the way from a path to the address of a file: the files as they are at
that time, or a failure. -/
structure Accesses where
  /-- Asking whether a file is there, of the first path, of the second one and so on. -/
  candidates : Nat → Except FileError FileTree
  /-- Opening the file for its size. -/
  opened : Except FileError FileTree
  /-- Finding the place of the file. -/
  found : Except FileError FileTree
  /-- Asking for the length and time of what is at that place. -/
  inspected : Except FileError FileTree
  /-- Reading what is at that place. -/
  read : Except FileError FileTree

namespace Accesses

/-- Files that stay as they are, and fail no access for another reason. -/
def still (tree : FileTree) : Accesses where
  candidates _ := .ok tree
  opened := .ok tree
  found := .ok tree
  inspected := .ok tree
  read := .ok tree

instance : Coe FileTree Accesses := ⟨still⟩

variable (files : Accesses)

/-- Whether the path that is asked after `n` others leads to a file. A failure counts as if it did
not. -/
def isFile (n : Nat) (path : Path) : Bool :=
  match files.candidates n with
  | .ok tree => tree.isFile path
  | .error _ => false

/-- The first of some paths that leads to a file. -/
def firstFile? (paths : List Path) : Option Path :=
  (paths.zipIdx.find? fun (path, n) => files.isFile n path).map Prod.fst

/-- The place that a path leads to. -/
def canonicalize (path : Path) : Except FileError Location := do
  return (← (← files.found).canonicalize path).1

/-- The metadata of what is at a place. -/
def metadata (location : Location) : Except FileError Metadata := do
  return (← (← files.inspected).findAt location).metadata

/-- The contents of the file at a place. -/
def contents (location : Location) : Except FileError Bytes := do
  FileTree.contents (← (← files.read).findAt location)

end Accesses

end DocImage
