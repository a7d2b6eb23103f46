import DocImage.Markup.Basic

/-!
Start tags and their attributes. A tag's name runs to the first white space, and attributes are
read from there, left to right. A faulty attribute is passed over and reading goes on behind
it:

* a word without `=` is dropped;
* a second attribute of one name is dropped up to the next white space, also inside its quotes;
* a value without quotes is dropped, and its name counts as used;
* a value that is missing or not closed ends the reading.
-/

namespace DocImage.Markup

/-- One attribute, its value as written. -/
structure Attribute where
  name : Text
  value : Text

namespace Attribute

/-- The text from its first character that is not white space. -/
def skipSpace (s : Text) : Text :=
  s.dropWhile isSpace

/-- The text from its first white space. -/
def skipWord (s : Text) : Text :=
  s.dropWhile fun c => !isSpace c

theorem length_skipSpace_le (s : Text) : (skipSpace s).length ≤ s.length :=
  length_dropWhile_le ..

theorem length_skipWord_le (s : Text) : (skipWord s).length ≤ s.length :=
  length_dropWhile_le ..

/-- Whether a character continues an attribute's name. -/
def inName (c : Char) : Bool :=
  c != '=' && !isSpace c

/-- The attributes of a tag, given the names already used and the text still to read. -/
def readFrom (used : List Text) (s : Text) : List Attribute :=
  match _k₁ : skipSpace s with
  | [] => []
  | first :: s₁ =>
    -- the first character belongs to the name, whatever it is
    let name := first :: s₁.takeWhile inName
    match _k₂ : skipSpace (s₁.dropWhile inName) with
    | [] => []
    | c :: s₂ =>
      if c ≠ '=' then readFrom used (c :: s₂)
      else if name ∈ used then readFrom used (skipWord s₂)
      else
        match _k₃ : skipSpace s₂ with
        | [] => []
        | quote :: s₃ =>
          if isQuote quote then
            match _k₄ : s₃.dropWhile (· != quote) with
            | [] => []
            | _ :: s₄ => ⟨name, s₃.takeWhile (· != quote)⟩ :: readFrom (name :: used) s₄
          else readFrom (name :: used) (skipWord s₃)
termination_by s.length
decreasing_by
  all_goals
    have h₁ := length_skipSpace_le s
    have h₂ := length_skipSpace_le (s₁.dropWhile inName)
    have h₃ := length_dropWhile_le inName s₁
    rw [_k₁, List.length_cons] at h₁
    rw [_k₂, List.length_cons] at h₂
  · rw [List.length_cons]; omega
  · have := length_skipWord_le s₂; omega
  · have h₄ := length_skipSpace_le s₂
    have h₅ := length_dropWhile_le (· != quote) s₃
    rw [_k₃, List.length_cons] at h₄
    rw [_k₄, List.length_cons] at h₅
    omega
  · have h₄ := length_skipSpace_le s₂
    have := length_skipWord_le s₃
    rw [_k₃, List.length_cons] at h₄
    omega

/-- The attributes in a tag, from after its name. -/
def readAll (s : Text) : List Attribute :=
  readFrom [] s

end Attribute

/-- What a tag other than an end tag says. -/
structure StartTag where
  name : Text
  /-- The text after the name. -/
  attributes : Text
  /-- Whether the tag is an element by itself. -/
  isEmpty : Bool

/-- The tag that holds the given text between its `<` and `>`. It is empty if the text ends in
a slash, which then belongs neither to its name nor to its attributes. -/
def StartTag.ofContent (content : Text) : StartTag :=
  let isEmpty := content.getLast? == some '/'
  let inner := if isEmpty then content.dropLast else content
  ⟨inner.takeWhile fun c => !isSpace c, Attribute.skipWord inner, isEmpty⟩

/-- The name in an end tag, given the text between its `</` and `>`: white space at its end is
ignored, unless there is nothing else. -/
def closedName (content : Text) : Text :=
  if content.all isSpace then content else dropEnd isSpace content

end DocImage.Markup
