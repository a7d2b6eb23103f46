import DocImage.Text.Utf8

/-!
Paths: byte sequences whose components are separated by slashes. Joining puts one path behind
another, unless that one begins at the root; nothing is normalised.
-/

namespace DocImage

/-- A path as it is written. -/
abbrev Path := Bytes

namespace Path

/-- The byte between two components. -/
def slash : UInt8 := 0x2F

/-- The byte before an extension. -/
def dot : UInt8 := 0x2E

/-- Whether a path begins at the root. -/
def isAbsolute (path : Path) : Bool :=
  path.head? == some slash

/-- The path `right` as seen from `left`. -/
def join (left right : Path) : Path :=
  if isAbsolute right then right
  else if left = [] ∨ left.getLast? = some slash then left ++ right
  else left ++ slash :: right

/-- The names between the slashes of a path, empty ones included. -/
def names (path : Path) : List Bytes :=
  path.splitOn slash

/-- Whether a name stands for a place of its own: it is neither empty nor a single dot. -/
def isStep (name : Bytes) : Bool :=
  name != [] && name != [dot]

/-- The names of a path that stand for a place of their own. -/
def components (path : Path) : List Bytes :=
  (names path).filter isStep

/-- The absolute path with the given components. -/
def ofComponents (components : List Bytes) : Path :=
  if components = [] then [slash] else components.flatMap fun name => slash :: name

/-- A path written backwards, without the slashes and the `/.` at the end of the path. -/
def dropTrailing : Bytes → Bytes
  | [] => []
  | [b] => if b = slash then [] else [b]
  | b :: c :: l =>
    if b = slash then dropTrailing (c :: l)
    else if b = dot ∧ c = slash then dropTrailing l
    else b :: c :: l

theorem length_dropTrailing_le (backwards : Bytes) :
    (dropTrailing backwards).length ≤ backwards.length := by
  fun_induction dropTrailing backwards <;> simp_all <;> omega

/-- The path above one that is written backwards, also backwards; nothing for the root. Only the
last component is taken away, and what stands before it is kept as it is written. -/
def above (backwards : Bytes) : Bytes :=
  dropTrailing (backwards.dropWhile (· != slash))

theorem length_above_lt {backwards : Bytes} (h : backwards ≠ []) :
    (above backwards).length < backwards.length := by
  cases backwards with
  | nil => exact absurd rfl h
  | cons b l =>
      by_cases hb : b = slash
      · subst hb
        rw [above, List.dropWhile_cons_of_neg (by simp)]
        cases l with
        | nil => simp [dropTrailing]
        | cons c l =>
            have := length_dropTrailing_le (c :: l)
            rw [dropTrailing, if_pos rfl, List.length_cons]
            omega
      · have h₁ := length_dropTrailing_le (l.dropWhile (· != slash))
        have h₂ := length_dropWhile_le (· != slash) l
        rw [above, List.dropWhile_cons_of_pos (by simp [hb]), List.length_cons]
        omega

/-- An absolute path that is written backwards without slashes at its end. -/
def ofBackwards (backwards : Bytes) : Path :=
  if backwards = [] then [slash] else backwards.reverse

/-- The directory above an absolute path. -/
def parent (path : Path) : Path :=
  ofBackwards (above (dropTrailing path.reverse))

/-- The last component of a path: what follows the last slash when the slashes and `/.` at the
end are left out. -/
def lastComponent (path : Path) : Bytes :=
  ((dropTrailing path.reverse).takeWhile (· != slash)).reverse

/-- What follows the last dot of the last component, if anything precedes that dot. -/
def extension? (path : Path) : Option Bytes :=
  let backwards := (lastComponent path).reverse
  match backwards.dropWhile (· != dot) with
  | _ :: _ :: _ => some (backwards.takeWhile (· != dot)).reverse
  | _ => none

/-- A path as text, with U+FFFD for every fault of its encoding. -/
def display (path : Path) : Text :=
  Utf8.decodeLossy path

end Path

end DocImage
