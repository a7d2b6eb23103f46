import Mathlib.Tactic
import DocImage.ImageTag.Extract
import DocImage.Text.Utf8.RoundTrip

/-!
Cutting image elements out of a comment, with the comment given in pieces: stretches that are
kept, and image elements. The pieces say what the byte positions in an `ImageElement` only count.

* `Piece.written` is the text of some pieces, `Piece.remaining` that text without the images, and
  `Piece.imagesFrom` the image elements with the positions at which they stand.
* `remove_imagesFrom`: cutting at those positions takes out exactly the images, and never fails.
* `extract_of_pieces`: a comment whose pieces the scan has found is taken apart along them. Such a
  comment must not begin with a byte-order mark, as the positions do not count the mark.
-/

namespace DocImage

open Markup

/-! ### Byte positions in a text -/

@[simp] lemma Utf8.length_nil : Utf8.length [] = 0 := rfl

lemma cutFrom_append (passed k s : Text) :
    cutFrom passed (Utf8.length k) (k ++ s) = .ok (passed.reverse ++ k, s) := by
  induction k generalizing passed with
  | nil =>
      show cutFrom passed 0 s = _
      rw [cutFrom, List.append_nil]
  | cons c k ih =>
      have hpos := c.utf8Size_pos
      obtain ⟨n, hn⟩ : ∃ n, Utf8.length (c :: k) = n + 1 :=
        ⟨c.utf8Size - 1 + Utf8.length k, by rw [Utf8.length_cons]; omega⟩
      have hk : n + 1 - c.utf8Size = Utf8.length k := by rw [← hn, Utf8.length_cons]; omega
      rw [hn, List.cons_append, cutFrom, if_pos, hk, ih]
      · simp
      · rw [← hn, Utf8.length_cons]; omega

/-- A text is cut behind any beginning of it. -/
lemma cutAt_append (k s : Text) : cutAt (Utf8.length k) (k ++ s) = .ok (k, s) :=
  cutFrom_append [] k s

/-- The byte behind a beginning of a text is the `<` that follows there. -/
lemma getElem?_encode_append (p q : Text) :
    (Utf8.encode (p ++ '<' :: q))[Utf8.length p]? = some 0x3C := by
  rw [Utf8.encode_append, Utf8.length, List.getElem?_append_right (le_refl _), Nat.sub_self]
  rfl

/-- Markup that begins at a position is found at that position. -/
lemma markupStart_append (p q : Text) :
    markupStart (Utf8.encode (p ++ '<' :: q)).toArray (Utf8.length p) = Utf8.length p := by
  have h := getElem?_encode_append p q
  have hlt := (List.getElem?_eq_some_iff.mp h).1
  have hmin : min (Utf8.length p) (Utf8.encode (p ++ '<' :: q)).toArray.size = Utf8.length p := by
    rw [List.size_toArray]; omega
  simp only [markupStart, hmin, List.getElem?_toArray, h, if_true]

/-! ### Pieces -/

/-- A piece of a comment. -/
inductive Piece where
  /-- A stretch that stays. -/
  | kept (text : Text)
  /-- An image element: what its tag holds between `<` and `>`, and the text after the tag. -/
  | image (content more : Text)

namespace Piece

/-- The text of a piece. -/
def text : Piece → Text
  | kept text => text
  | image content more => (Token.tag content).lexeme ++ more

/-- What stays of a piece. -/
def left : Piece → Text
  | kept text => text
  | image .. => []

/-- The text of some pieces. -/
def written (pieces : List Piece) : Text :=
  pieces.flatMap text

/-- The text of some pieces without the images. -/
def remaining (pieces : List Piece) : Text :=
  pieces.flatMap left

/-- The image elements among some pieces that begin at a position. -/
def imagesFrom (pos : Nat) : List Piece → List ImageElement
  | [] => []
  | kept text :: pieces => imagesFrom (pos + Utf8.length text) pieces
  | image content more :: pieces =>
    let stop := pos + Utf8.length (image content more).text
    ⟨⟨pos, stop⟩, (StartTag.ofContent content).attributes⟩ :: imagesFrom stop pieces

@[simp] lemma written_nil : written [] = [] := rfl

@[simp] lemma written_cons (p : Piece) (ps : List Piece) :
    written (p :: ps) = p.text ++ written ps := rfl

@[simp] lemma written_append (ps qs : List Piece) : written (ps ++ qs) = written ps ++ written qs :=
  List.flatMap_append

@[simp] lemma remaining_nil : remaining [] = [] := rfl

@[simp] lemma remaining_cons (p : Piece) (ps : List Piece) :
    remaining (p :: ps) = p.left ++ remaining ps := rfl

@[simp] lemma remaining_append (ps qs : List Piece) :
    remaining (ps ++ qs) = remaining ps ++ remaining qs :=
  List.flatMap_append

lemma imagesFrom_append (pos : Nat) (ps qs : List Piece) :
    imagesFrom pos (ps ++ qs) =
      imagesFrom pos ps ++ imagesFrom (pos + Utf8.length (written ps)) qs := by
  induction ps generalizing pos with
  | nil => rfl
  | cons p ps ih =>
      cases p with
      | kept t =>
          rw [List.cons_append, imagesFrom, imagesFrom, ih, written_cons, Utf8.length_append,
            ← Nat.add_assoc]
          rfl
      | image content more =>
          rw [List.cons_append, imagesFrom, imagesFrom, ih, written_cons, Utf8.length_append,
            ← Nat.add_assoc]
          rfl

/-- The first cut takes out the text it covers and leaves what stands before it. -/
lemma removeFrom_cons (pos : Nat) (k element s : Text) (spans : List Span) :
    removeFrom pos
        (⟨pos + Utf8.length k, pos + Utf8.length k + Utf8.length element⟩ :: spans)
        (k ++ (element ++ s)) =
      (removeFrom (pos + Utf8.length k + Utf8.length element) spans s).map (k ++ ·) := by
  have hk : pos + Utf8.length k - pos = Utf8.length k := by omega
  have hs : pos + Utf8.length k + Utf8.length element - (pos + Utf8.length k) =
      Utf8.length element := by omega
  rw [removeFrom, if_neg (by simp)]
  simp only [hk, hs, cutAt_append]
  show (cutAt (Utf8.length element) (element ++ s) >>= fun r =>
    removeFrom _ spans r.2 >>= fun t => Except.ok (k ++ t)) = _
  rw [cutAt_append]
  show (removeFrom _ spans s >>= fun t => Except.ok (k ++ t)) = _
  cases removeFrom (pos + Utf8.length k + Utf8.length element) spans s <;> rfl

/-- Cutting at the positions of the images leaves the pieces without them. `k` is the kept text
since the last cut, which ended at `pos`. -/
lemma removeFrom_imagesFrom (pos : Nat) (k : Text) (ps : List Piece) (rest : Text) :
    removeFrom pos ((imagesFrom (pos + Utf8.length k) ps).map ImageElement.span)
      (k ++ (written ps ++ rest)) = .ok (k ++ (remaining ps ++ rest)) := by
  induction ps generalizing pos k with
  | nil => rfl
  | cons p ps ih =>
      cases p with
      | kept t =>
          have h := ih pos (k ++ t)
          rw [Utf8.length_append, ← Nat.add_assoc] at h
          simpa [imagesFrom, text, left] using h
      | image content more =>
          have h := ih (pos + Utf8.length k + Utf8.length (image content more).text) []
          rw [imagesFrom, List.map_cons, written_cons, List.append_assoc, removeFrom_cons]
          simp only [Utf8.length_nil, Nat.add_zero, List.nil_append] at h
          rw [h]
          rfl

/-- Cutting at the positions of the images takes out exactly the images. -/
lemma remove_imagesFrom (ps : List Piece) (rest : Text) :
    remove ((imagesFrom 0 ps).map ImageElement.span) (written ps ++ rest) =
      .ok (remaining ps ++ rest) :=
  removeFrom_imagesFrom 0 [] ps rest

/-- The stretch cut out for an image element is the one at which it stands. -/
lemma cutFor_imagesFrom (before : Text) (ps : List Piece) (rest : Text) :
    ∀ image ∈ imagesFrom (Utf8.length before) ps,
      cutFor (Utf8.encode (before ++ (written ps ++ rest))).toArray image = image.span := by
  induction ps generalizing before with
  | nil => simp [imagesFrom]
  | cons p ps ih =>
      have h := ih (before ++ p.text)
      rw [List.append_assoc, ← List.append_assoc p.text, ← written_cons, Utf8.length_append] at h
      cases p with
      | kept t => exact h
      | image content more =>
          intro image hi
          rw [imagesFrom, List.mem_cons] at hi
          rcases hi with rfl | hi
          · have hm := markupStart_append before (content ++ ['>'] ++ more ++ (written ps ++ rest))
            simpa [cutFor, text, Token.lexeme] using hm
          · exact h image hi

end Piece

/-- A text that does not begin with a byte-order mark is read as it is. -/
lemma withoutMark_eq_self {comment : Text} (hm : comment.head? ≠ some byteOrderMark) :
    withoutMark comment = comment := by
  cases comment with
  | nil => rfl
  | cons c s => rw [withoutMark, if_neg (by simpa using hm)]

open Piece in
/-- A comment whose images have been found is taken apart along its pieces. -/
lemma extract_of_pieces {comment rest : Text} {ps : List Piece}
    (hm : comment.head? ≠ some byteOrderMark) (hc : comment = written ps ++ rest)
    (hi : Summary.images? comment = some (imagesFrom 0 ps)) :
    extract comment = .ok (match requested? (imagesFrom 0 ps) with
      | none => ⟨none, comment⟩
      | some tag => ⟨some tag, remaining ps ++ rest⟩) := by
  have hcut : (imagesFrom 0 ps).map (cutFor (Utf8.encode comment).toArray) =
      (imagesFrom 0 ps).map ImageElement.span := by
    rw [hc]
    exact List.map_congr_left (cutFor_imagesFrom [] ps rest)
  rw [extract, withoutMark_eq_self hm, hi]
  cases hr : requested? (imagesFrom 0 ps) with
  | none => simp only [hr]
  | some tag =>
      simp only [hr, hcut]
      rw [hc, remove_imagesFrom]
      rfl

end DocImage
