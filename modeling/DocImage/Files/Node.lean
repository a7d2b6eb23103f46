import DocImage.Files.Path

/-!
Directories, files and links. A directory holds its entries, so what stands at a place is found
by one look-up for each name on the way, and `Node.alter` changes what stands at one place. In a
directory it changes the entry under one name and keeps all others (`lookup_setEntry`).
-/

namespace DocImage

/-- A point in time: the nanoseconds since the epoch. -/
structure Time where
  nanoseconds : Int
deriving DecidableEq

/-- The time some seconds and nanoseconds after the epoch, of which there may be more than make a
second. -/
def Time.of (seconds : Int) (nanoseconds : Nat) : Time :=
  ⟨1000000000 * seconds + nanoseconds⟩

/-- The epoch. -/
def Time.epoch : Time := ⟨0⟩

/-- A place below a directory: the names that lead to it. -/
abbrev Location := List Bytes

/-- The absolute path of a place below the root. -/
def Location.path (location : Location) : Path :=
  Path.ofComponents location

/-- The length of a directory of which nothing else is said. -/
def usualLength : Nat := 4096

/-- A file, which perhaps cannot be read, a directory with its entries and its own length, or a
link. -/
inductive Node where
  | file (contents : Bytes) (modified : Time) (readable : Bool := true)
  | directory (entries : List (Bytes × Node)) (modified : Time) (length : Nat := usualLength)
  | link (target : Path)

/-- What is known of a file or directory without reading it. -/
structure Metadata where
  length : Nat
  modified : Time
deriving DecidableEq

namespace Node

/-- The metadata of a file or directory. -/
def metadata : Node → Metadata
  | file contents modified _ => ⟨contents.length, modified⟩
  | directory _ modified length => ⟨length, modified⟩
  | link target => ⟨target.length, .epoch⟩

/-- A directory without entries. -/
def emptyDirectory : Node :=
  directory [] .epoch

/-- The entry of a directory under a name. -/
def child? (node : Node) (name : Bytes) : Option Node :=
  match node with
  | directory entries .. => entries.lookup name
  | file .. | link _ => none

/-- What stands at a place below a directory. -/
def find? (node : Node) : Location → Option Node
  | [] => some node
  | name :: location =>
    match node.child? name with
    | some node => node.find? location
    | none => none

/-! ### Changing one place -/

/-- The entries of a directory with something else, or nothing, under a name. -/
def setEntry (entries : List (Bytes × Node)) (name : Bytes) : Option Node → List (Bytes × Node)
  | some node => (name, node) :: entries.filter fun e => e.1 != name
  | none => entries.filter fun e => e.1 != name

/-- What stands below a directory after a change of what stands at one place. -/
def alter (change : Option Node → Option Node) : Location → Option Node → Option Node
  | [], node => change node
  | name :: location, some (directory entries modified length) =>
    some (directory (setEntry entries name (alter change location (entries.lookup name)))
      modified length)
  | _ :: _, node => node

theorem lookup_filter_ne (entries : List (Bytes × Node)) (name other : Bytes) :
    (entries.filter fun e => e.1 != name).lookup other =
      if other = name then none else entries.lookup other := by
  induction entries with
  | nil => simp
  | cons e entries ih =>
      obtain ⟨n, node⟩ := e
      by_cases h : n = name
      · rw [List.filter_cons_of_neg (by simp [h]), ih, List.lookup_cons]
        by_cases ho : other = name
        · rw [if_pos ho, if_pos ho]
        · rw [if_neg ho, if_neg ho, beq_false_of_ne (h ▸ ho)]
      · rw [List.filter_cons_of_pos (by simp [h]), List.lookup_cons, ih, List.lookup_cons]
        by_cases ho : other = n
        · subst ho; simp [h]
        · simp [beq_false_of_ne ho]

/-- What is under a name after a change of the entries. -/
theorem lookup_setEntry (entries : List (Bytes × Node)) (name other : Bytes)
    (node : Option Node) :
    (setEntry entries name node).lookup other =
      if other = name then node else entries.lookup other := by
  cases node with
  | none => rw [setEntry, lookup_filter_ne]
  | some node =>
      rw [setEntry, List.lookup_cons, lookup_filter_ne]
      by_cases h : other = name
      · simp [h]
      · simp [beq_false_of_ne h, h]

end Node

end DocImage
