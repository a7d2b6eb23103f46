import DocImage.Markup.Attribute
import DocImage.Markup.Reference
import DocImage.Drawing.Size
import DocImage.Text.Character

/-!
What an image tag asks for: the address of an image and the bounds on its drawn size, read from
the tag's attributes. A tag whose address is missing or blank asks for nothing.
-/

namespace DocImage

open Markup

/-- The image that a comment asks for. -/
structure ImageTag where
  /-- The address, trimmed and not empty. -/
  src : Text
  bounds : Bounds
deriving DecidableEq

namespace ImageTag

/-- An attribute's value with its references replaced; a value with an unknown reference stays
as written. -/
def valueOf (a : Attribute) : Text :=
  (unescape? a.value).getD a.value

/-- The value of the attribute with the given name. -/
def value? (attributes : List Attribute) (name : Text) : Option Text :=
  (attributes.find? fun a => a.name = name).map valueOf

/-- The number of pixels under the first of the names that has one. -/
def pixelsUnder? (attributes : List Attribute) (names : List Text) : Option Nat :=
  names.findSome? fun name => (value? attributes name).bind pixels?

/-- The bounds that the attributes of a tag set. -/
def boundsOf (attributes : List Attribute) : Bounds where
  minEdge := pixelsUnder? attributes [['m', 'i', 'n'], ['m', 'i', 'n', '-', 's', 'i', 'z', 'e']]
  maxEdge := pixelsUnder? attributes [['m', 'a', 'x'], ['m', 'a', 'x', '-', 's', 'i', 'z', 'e']]
  minWidth := pixelsUnder? attributes [['m', 'i', 'n', '-', 'w', 'i', 'd', 't', 'h']]
  minHeight := pixelsUnder? attributes [['m', 'i', 'n', '-', 'h', 'e', 'i', 'g', 'h', 't']]
  maxWidth := pixelsUnder? attributes [['m', 'a', 'x', '-', 'w', 'i', 'd', 't', 'h']]
  maxHeight := pixelsUnder? attributes [['m', 'a', 'x', '-', 'h', 'e', 'i', 'g', 'h', 't']]
  allowUpscale :=
    match value? attributes ['u', 'p', 's', 'c', 'a', 'l', 'e'] with
    | some v => sameUpToCase v ['t', 'r', 'u', 'e']
    | none => false

/-- What the attributes of an image tag ask for. -/
def ofAttributes? (attributes : List Attribute) : Option ImageTag :=
  match (value? attributes ['s', 'r', 'c']).map trim with
  | none | some [] => none
  | some src => some ⟨src, boundsOf attributes⟩

/-- A tag asks for an image if its trimmed address is not empty. -/
theorem ofAttributes?_eq_some_iff {attributes : List Attribute} {tag : ImageTag} :
    ofAttributes? attributes = some tag ↔
      ∃ v, value? attributes ['s', 'r', 'c'] = some v ∧ trim v ≠ [] ∧
        tag = ⟨trim v, boundsOf attributes⟩ := by
  rw [ofAttributes?]
  cases value? attributes ['s', 'r', 'c'] with
  | none => simp
  | some v =>
      cases h : trim v with
      | nil => simp [h]
      | cons c s => simp [h, eq_comm]

end ImageTag

end DocImage
