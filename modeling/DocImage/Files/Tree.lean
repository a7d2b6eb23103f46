import DocImage.Files.Error
import DocImage.Files.Node

/-!
A tree of directories, files and links, and the finding of paths in it. A path is walked name
by name from the root or the working directory: `..` leads to the directory above the place
reached so far, a link to where its target leads, and every name but the last must lead to a
directory or a link. At most 40 links are followed on one walk.
-/

namespace DocImage

/-- A root directory with all below it, and the directory from which relative paths start. -/
structure FileTree where
  root : Node := .emptyDirectory
  workingDirectory : Location := []
  /-- The length of a directory after a change of its entries, which depends on the kind of file
  system. -/
  directoryLength : List (Bytes × Node) → Nat := fun _ => usualLength

/-- What is at a path: something, or nothing in a directory that exists. -/
inductive Target where
  | present (location : Location) (node : Node)
  | vacant (directory : Location) (name : Bytes)

/-- How a path is walked. -/
inductive Walk where
  /-- All links are followed. -/
  | followed
  /-- A link at the end is not followed. -/
  | kept
  /-- All links are followed, and a slash at the end is refused, as a file is to be made there. -/
  | written
  /-- All links are followed, and every place on the way is looked up by an absolute path of its
  own. -/
  | resolved
deriving DecidableEq

/-- The way to a place: the names and what stands there, the last one first. -/
abbrev Trail := List (Bytes × Node)

/-- The place that a way leads to. -/
def Trail.location (trail : Trail) : Location :=
  (trail.map Prod.fst).reverse

namespace FileTree

/-- What stands at a place. -/
def node? (tree : FileTree) (location : Location) : Option Node :=
  tree.root.find? location

/-- The tree with something else at a place below a directory. -/
def put (tree : FileTree) (location : Location) (node : Node) : FileTree :=
  { tree with root := (Node.alter (fun _ => some node) location tree.root).getD tree.root }

/-- The tree with nothing at a place. -/
def erase (tree : FileTree) (location : Location) : FileTree :=
  { tree with root := (Node.alter (fun _ => none) location tree.root).getD tree.root }

/-- What stands where a way leads. -/
def reached (tree : FileTree) : Trail → Node
  | [] => tree.root
  | (_, node) :: _ => node

/-! ### Walking -/

/-- The longest name that a place can have, in bytes. -/
def maxNameLength : Nat := 255

/-- The length from which on a path is too long, in bytes. -/
def maxPathLength : Nat := 4096

/-- The number of links that are followed on one walk. -/
def maxLinks : Nat := 40

/-- Whether a walk along the names asks for a directory before it asks for any other name. -/
def asksForDirectory (names : List Bytes) : Bool :=
  match names.dropWhile (!Path.isStep ·) with
  | [] => names != []
  | name :: _ => name == [Path.dot, Path.dot]

/-- Whether the first place that is looked up on a walk from the end of a way has too long an
absolute path for that manner of walking. A place that must be a directory is looked up with a
slash behind its path; a link need not be one. -/
def isTooDeep (tree : FileTree) (manner : Walk) (trail : Trail) (names : List Bytes) : Bool :=
  match manner, names.dropWhile (!Path.isStep ·) with
  | .resolved, name :: names =>
    let length := (trail.location ++ [name]).path.length
    if name = [Path.dot, Path.dot] then false
    else
      match (tree.reached trail).child? name with
      | some (.link _) => maxPathLength ≤ length
      | _ => maxPathLength ≤ if asksForDirectory names then length + 1 else length
  | _, _ => false

/-- The end of a walk from the end of a way along `names`, of which empty ones and `.` lead
nowhere. -/
def walk (tree : FileTree) (manner : Walk) (links : Nat) (trail : Trail) :
    List Bytes → Except FileError Target
  | [] => .ok (.present trail.location (tree.reached trail))
  | name :: names =>
    match tree.reached trail with
    | .file .. | .link _ =>
      .error (if tree.isTooDeep manner trail (name :: names) then .nameTooLong else .notADirectory)
    | .directory entries .. =>
      if !Path.isStep name then tree.walk manner links trail names
      else if name = [Path.dot, Path.dot] then tree.walk manner links trail.tail names
      else if tree.isTooDeep manner trail (name :: names) then .error .nameTooLong
      else if manner = .written ∧ names ≠ [] ∧ names.all (· == []) then .error .isADirectory
      else if maxNameLength < name.length then .error .nameTooLong
      else
        match entries.lookup name with
        | none =>
          if names = [] then .ok (.vacant trail.location name) else .error .notFound
        | some (.link target) =>
          let there : Trail := (name, .link target) :: trail
          if names = [] ∧ manner = .kept then .ok (.present there.location (.link target))
          else
            match links with
            | 0 => .error .linkLoop
            | links + 1 =>
              let start := if Path.isAbsolute target then [] else trail
              tree.walk manner links start (Path.names target ++ names)
        | some node => tree.walk manner links ((name, node) :: trail) names
termination_by names => (links, names.length)

/-- The end of the walk along some names of a path, from the root or the working directory. -/
def walkFrom (tree : FileTree) (manner : Walk) (path : Path) (names : List Bytes) :
    Except FileError Target :=
  tree.walk manner maxLinks []
    (if Path.isAbsolute path then names else tree.workingDirectory ++ names)

/-- Refuses a path that no file can have. -/
def checkPath (path : Path) : Except FileError Unit :=
  if 0 ∈ path then .error .zeroByte
  else if path = [] then .error .notFound
  else .ok ()

/-- Refuses a path that no file can have, or that is too long to be looked up at once. -/
def checkLength (path : Path) : Except FileError Unit := do
  checkPath path
  if maxPathLength ≤ path.length then .error .nameTooLong

/-- What a path leads to. -/
def lookup (tree : FileTree) (manner : Walk) (path : Path) : Except FileError Target := do
  checkLength path
  tree.walkFrom manner path (Path.names path)

/-! ### Reading -/

/-- The place that a path leads to, with what is there. It is found step by step, so the path may
have any length, but no place on the way may lie too deep. -/
def canonicalize (tree : FileTree) (path : Path) : Except FileError (Location × Node) := do
  checkPath path
  match ← tree.walkFrom .resolved path (Path.names path) with
  | .present location node => .ok (location, node)
  | .vacant .. => .error .notFound

/-- What a path leads to, if anything is there. -/
def find (tree : FileTree) (path : Path) : Except FileError Node := do
  match ← tree.lookup .followed path with
  | .present _ node => .ok node
  | .vacant .. => .error .notFound

/-- What stands at a place that has been found before. The way there is walked anew, and links that
stand on it by now are followed. -/
def findAt (tree : FileTree) (location : Location) : Except FileError Node := do
  match ← tree.walk .followed maxLinks [] location with
  | .present _ node => .ok node
  | .vacant .. => .error .notFound

/-- The contents of a file that can be read. -/
def contents : Node → Except FileError Bytes
  | .file contents _ readable => if readable then .ok contents else .error .permissionDenied
  | .directory .. | .link _ => .error .isADirectory

/-- The contents of the file at a path. -/
def read (tree : FileTree) (path : Path) : Except FileError Bytes :=
  (tree.find path).bind contents

/-- Whether a path leads to a file. -/
def isFile (tree : FileTree) (path : Path) : Bool :=
  match tree.find path with
  | .ok (.file ..) => true
  | _ => false

/-- Whether a path leads to a directory. -/
def isDirectory (tree : FileTree) (path : Path) : Bool :=
  match tree.find path with
  | .ok (.directory ..) => true
  | _ => false

end FileTree

end DocImage
