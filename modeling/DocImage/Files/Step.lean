import DocImage.Files.Tree

/-!
Changes of a file tree: writing a file, setting a time, making directories, removing a file or
link, and making a link. `FileStep.apply` carries a change out as far as it goes: a change that
fails may have made some directories before. A directory's own time moves on with every change
of its entries. No change makes a file unreadable: one that is overwritten is as readable as it was,
and a new one can be read.
-/

namespace DocImage

/-- A change of a file tree. -/
inductive FileStep where
  /-- Makes the directories above the path, writes the file, and sets its time. -/
  | write (path : Path) (contents : Bytes) (modified : Time)
  /-- Sets the time of the file at the path. -/
  | touch (path : Path) (modified : Time)
  /-- Makes a directory and those above it, as far as they are missing. -/
  | makeDirectories (path : Path)
  /-- Removes a file or a link. -/
  | remove (path : Path)
  /-- Makes a link. -/
  | link (target path : Path)

namespace Path

/-- The path without the slashes at its end. -/
def withoutLastSlash (path : Path) : Path :=
  dropEnd (· == slash) path

/-- Whether a path ends in a slash. -/
def endsInSlash (path : Path) : Bool :=
  path.getLast? == some slash

end Path

namespace FileTree

/-- The tree after a change of the entries of a directory. -/
def noteChange (tree : FileTree) (directory : Location) : FileTree :=
  match tree.node? directory with
  | some (.directory entries modified _) =>
    tree.put directory
      (.directory entries ⟨modified.nanoseconds + 1⟩ (tree.directoryLength entries))
  | _ => tree

/-- The tree with something new in a directory. -/
def add (tree : FileTree) (directory : Location) (name : Bytes) (node : Node) : FileTree :=
  (tree.put (directory ++ [name]) node).noteChange directory

/-- The place that a path names, a link at its end not followed and slashes at its end left
out. -/
def entry (tree : FileTree) (path : Path) : Except FileError Target := do
  checkLength path
  tree.walkFrom .kept path (Path.names path.withoutLastSlash)

/-- Makes one directory. -/
def makeDirectory (tree : FileTree) (path : Path) : Except FileError FileTree := do
  match ← tree.entry path with
  | .present .. => .error .alreadyExists
  | .vacant directory name =>
    .ok (tree.add directory name (.directory [] .epoch (tree.directoryLength [])))

/-- Makes the directory at a path that is also given backwards, without slashes at its end; if the
place for it is missing, makes the directory above it first. -/
def makeFrom (tree : FileTree) (path : Path) (backwards : Bytes) :
    Except FileError Unit × FileTree :=
  match tree.makeDirectory path with
  | .ok tree => (.ok (), tree)
  | .error .notFound =>
    if _h : backwards = [] then (.error .notFound, tree)
    else
      let above := Path.above backwards
      match tree.makeFrom (Path.ofBackwards above) above with
      | (.ok (), tree) =>
        match tree.makeDirectory path with
        | .ok tree => (.ok (), tree)
        | .error e => (if tree.isDirectory path then .ok () else .error e, tree)
      | failed => failed
  | .error e => (if tree.isDirectory path then .ok () else .error e, tree)
termination_by backwards.length
decreasing_by exact Path.length_above_lt _h

/-- Makes the directory at an absolute path and those above it, as far as they are missing. -/
def makeDirectories (tree : FileTree) (path : Path) : Except FileError Unit × FileTree :=
  tree.makeFrom path (Path.dropTrailing path.reverse)

/-- Writes a file in a directory that exists. -/
def writeFile (tree : FileTree) (path : Path) (contents : Bytes) (modified : Time) :
    Except FileError FileTree := do
  match ← tree.lookup .written path with
  | .present location (.file _ _ readable) =>
    .ok (tree.put location (.file contents modified readable))
  | .present .. => .error .isADirectory
  | .vacant directory name => .ok (tree.add directory name (.file contents modified))

/-- Sets the time of a file. -/
def setTime (tree : FileTree) (path : Path) (modified : Time) : Except FileError FileTree := do
  match ← tree.lookup .followed path with
  | .present location (.file contents _ readable) =>
    .ok (tree.put location (.file contents modified readable))
  | .present _ (.directory ..) => .error .isADirectory
  | .present _ (.link _) | .vacant .. => .error .notFound

/-- Removes a file or a link. -/
def unlink (tree : FileTree) (path : Path) : Except FileError FileTree := do
  match ← tree.entry path with
  | .vacant .. => .error .notFound
  | .present _ (.directory ..) => .error .isADirectory
  | .present location _ =>
    if path.endsInSlash then .error .notADirectory
    else .ok ((tree.erase location).noteChange location.dropLast)

/-- Makes a link. -/
def makeLink (tree : FileTree) (target path : Path) : Except FileError FileTree := do
  if 0 ∈ target ++ path then .error .zeroByte
  checkLength target
  match ← tree.entry path with
  | .present .. => .error .alreadyExists
  | .vacant directory name =>
    if path.endsInSlash then .error .notFound
    else .ok (tree.add directory name (.link target))

/-- The tree after a change that either happens or does not. -/
def changed (tree : FileTree) : Except FileError FileTree → Except FileError Unit × FileTree
  | .ok tree => (.ok (), tree)
  | .error e => (.error e, tree)

end FileTree

/-- The outcome of a change, and the tree after it. -/
def FileStep.apply (step : FileStep) (tree : FileTree) : Except FileError Unit × FileTree :=
  match step with
  | write path contents modified =>
    match tree.makeDirectories path.parent with
    | (.ok (), tree) => tree.changed (tree.writeFile path contents modified)
    | failed => failed
  | touch path modified => tree.changed (tree.setTime path modified)
  | makeDirectories path => tree.makeDirectories path
  | remove path => tree.changed (tree.unlink path)
  | link target path => tree.changed (tree.makeLink target path)

end DocImage
