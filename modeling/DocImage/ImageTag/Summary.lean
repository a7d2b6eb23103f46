import DocImage.Markup.Token
import DocImage.Markup.Attribute
import DocImage.Text.Utf8

/-!
The image elements of a comment's first summary, `Summary.images?`. The comment is read token
by token up to the end tag of its first summary; what follows is not looked at. Names count by
their local part. An image element is passed over as a whole, with all that it holds. An end
tag must close the element opened last; elements that are open at the end of the comment do no
harm, an open image element excepted.
-/

namespace DocImage

open Markup

/-- A stretch of a text: the numbers of bytes before its beginning and before its end. -/
structure Span where
  start : Nat
  stop : Nat
deriving DecidableEq

/-- An image element: where it stands and what its tag says after the name. -/
structure ImageElement where
  span : Span
  attributes : Text

namespace Summary

/-- Where the reading of a comment stands. Open elements are listed by their names, the last
opened one first. -/
inductive Place where
  /-- No summary has begun. -/
  | before (opened : List Text)
  /-- In the summary, which is the last of the open elements listed. -/
  | summary (opened : List Text)
  /-- In an image element of the summary, which is the last of the elements `inner`. -/
  | image (opened inner : List Text) (start : Nat) (attributes : Text)

/-- The reading of a comment: its place, and the image elements passed so far, the last one
first. -/
structure Scan where
  place : Place
  images : List ImageElement

/-- What a token makes of the reading of a comment. -/
inductive Outcome where
  | more (scan : Scan)
  | finished (images : List ImageElement)
  | malformed

/-- The local name of a summary. -/
def summaryName : Text := ['s', 'u', 'm', 'm', 'a', 'r', 'y']

/-- The local name of an image. -/
def imageName : Text := ['i', 'm', 'g']

namespace Scan

/-- The reading of a comment at its beginning. -/
def start : Scan := ⟨.before [], []⟩

/-- The image elements passed, in the order of the comment. -/
def found (scan : Scan) : List ImageElement :=
  scan.images.reverse

/-- The reading at another place. -/
def goTo (scan : Scan) (place : Place) : Outcome :=
  .more { scan with place }

/-- The reading in the summary, after an image element. -/
def passImage (scan : Scan) (opened : List Text) (image : ImageElement) : Outcome :=
  .more ⟨.summary opened, image :: scan.images⟩

/-- After an end tag, which must name the element opened last. -/
def close (scan : Scan) (name : Text) (stop : Nat) : Outcome :=
  match scan.place with
  | .before [] | .summary [] | .image _ [] .. => .malformed
  | .before (n :: opened) => if name = n then scan.goTo (.before opened) else .malformed
  | .summary (n :: opened) =>
    if name ≠ n then .malformed
    else if opened = [] then .finished scan.found
    else scan.goTo (.summary opened)
  | .image opened (n :: inner) start attributes =>
    if name ≠ n then .malformed
    else if inner = [] then scan.passImage opened ⟨⟨start, stop⟩, attributes⟩
    else scan.goTo (.image opened inner start attributes)

/-- After a start tag or an empty tag, which begins and ends at the given positions. -/
def enter (scan : Scan) (tag : StartTag) (start stop : Nat) : Outcome :=
  match scan.place with
  | .before opened =>
    if localName tag.name = summaryName then
      if tag.isEmpty then .finished scan.found else scan.goTo (.summary [tag.name])
    else if tag.isEmpty then .more scan
    else scan.goTo (.before (tag.name :: opened))
  | .summary opened =>
    if localName tag.name = imageName then
      if tag.isEmpty then scan.passImage opened ⟨⟨start, stop⟩, tag.attributes⟩
      else scan.goTo (.image opened [tag.name] start tag.attributes)
    else if tag.isEmpty then .more scan
    else scan.goTo (.summary (tag.name :: opened))
  | .image opened inner start' attributes =>
    if tag.isEmpty then .more scan
    else scan.goTo (.image opened (tag.name :: inner) start' attributes)

/-- After a token that begins and ends at the given positions. -/
def step (scan : Scan) (token : Token) (start stop : Nat) : Outcome :=
  match token with
  | .close content => scan.close (closedName content) stop
  | .tag content => scan.enter (.ofContent content) start stop
  | _ => .more scan

/-- At the end of the comment. -/
def atEnd (scan : Scan) : Option (List ImageElement) :=
  match scan.place with
  | .image .. => none
  | _ => some scan.found

/-- Reads on from a position of the comment, given the text from there. -/
def run (scan : Scan) (pos : Nat) (s : Text) : Option (List ImageElement) :=
  if s = [] then scan.atEnd
  else
    match _h : Token.next? s with
    | none => none
    | some (token, rest) =>
      let stop := pos + Utf8.length token.lexeme
      match scan.step token pos stop with
      | .more scan => run scan stop rest
      | .finished images => some images
      | .malformed => none
termination_by s.length
decreasing_by exact Token.length_lt_of_next? _h

end Scan

/-- The image elements of the first summary, in the order of the comment; `none` if there is
malformed markup before the end of the summary. -/
def images? (comment : Text) : Option (List ImageElement) :=
  Scan.start.run 0 comment

end Summary

end DocImage
