import DocImage.CommandLine.Run

/-!
The program. The files at which a command may look are loaded into a tree, the command is run on
the tree, and its outcome is printed. Nothing is decided here.
-/

namespace DocImage

/-- A path for the operating system; `none` if it is not text. -/
def systemPath? (path : Path) : Option String :=
  String.fromUTF8? ⟨path.toArray⟩

/-- The tree with a directory at each place above the given one. -/
def FileTree.withDirectories (tree : FileTree) (location : Location) : FileTree :=
  (List.range location.length).foldl
    (fun tree n =>
      let above := location.take n
      if (tree.node? above).isSome then tree else tree.put above .emptyDirectory)
    tree

/-- Loads what stands at a place that can be reached without links. -/
def loadAt (tree : FileTree) (location : Location) (path : String) : IO FileTree := do
  let real ← IO.FS.realPath path
  let metadata ← real.metadata
  let modified : Time := .of metadata.modified.sec metadata.modified.nsec.toNat
  let length := metadata.byteSize.toNat
  let node ←
    match metadata.type with
    | .dir =>
      match tree.node? location with
      | some (.directory entries ..) => pure (Node.directory entries modified length)
      | _ => pure (Node.directory [] modified length)
    | _ => do
      match ← (IO.FS.readBinFile real).toBaseIO with
      | .ok contents => pure (Node.file contents.data.toList modified)
      -- what cannot be read counts by its length only
      | .error _ => pure (Node.file (List.replicate length 0) modified false)
  return (tree.withDirectories location).put location node

/-- Loads what a path goes through from a place on, name by name, and stops where nothing is. -/
def loadFrom (tree : FileTree) (here : Location) : List Bytes → IO FileTree
  | [] => pure tree
  | name :: names => do
    if !Path.isStep name then loadFrom tree here names
    else if name = [Path.dot, Path.dot] then loadFrom tree here.dropLast names
    else
      let there := here ++ [name]
      match systemPath? (Location.path there) with
      | none => pure tree
      | some path =>
        let found ← (IO.FS.realPath path).toBaseIO
        match found with
        | .error _ => pure tree
        | .ok real =>
          let target := real.toString.toUTF8.data.toList
          let location := Path.components target
          let loaded ← (loadAt tree location real.toString).toBaseIO
          match loaded with
          | .error _ => pure tree
          | .ok tree =>
            let tree :=
              if location = there then tree
              else (tree.withDirectories there).put there (.link target)
            loadFrom tree location names

/-- Loads what a path goes through. -/
def loadPath (tree : FileTree) (path : Path) : IO FileTree :=
  loadFrom tree (if Path.isAbsolute path then [] else tree.workingDirectory) (Path.names path)

/-- Loads the files at which a command may look: first those that its arguments name, then those
that their contents name. -/
def loadFor (tree : FileTree) (command : CommandLine.Command) : IO FileTree := do
  let tree ← (command.paths tree).foldlM loadPath tree
  (command.paths tree).foldlM loadPath tree

/-- The tree that holds the working directory and nothing else. -/
def emptyTree : IO FileTree := do
  let location := Path.components (← IO.currentDir).toString.toUTF8.data.toList
  let tree : FileTree := { workingDirectory := location }
  return (tree.withDirectories location).put location .emptyDirectory

end DocImage

/-- Runs the program and gives its exit code. -/
def main (args : List String) : IO UInt32 := do
  let args := args.map fun arg => arg.toUTF8.data.toList
  let empty ← DocImage.emptyTree
  let tree ←
    match DocImage.CommandLine.read args with
    | .ok command => DocImage.loadFor empty command
    | .error _ => pure empty
  let outcome := DocImage.CommandLine.run tree args
  IO.print (String.ofList outcome.output)
  IO.eprint (String.ofList outcome.errors)
  return UInt32.ofNat outcome.code
