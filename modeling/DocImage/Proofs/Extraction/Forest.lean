import DocImage.Proofs.Extraction.Cutting
import DocImage.Proofs.Extraction.Reading
import DocImage.Proofs.Markup.Written

/-!
Extraction from a comment that is written out from a forest of elements. The scan of the text agrees
with the forest: `Scan.run_inside`, `Scan.run_before` and `Scan.run_summary` pass over a written
forest at the three kinds of places where the scan can stand, the last one finding its outermost
images, and `Scan.splits_of_firstSummary?` puts them together.

* `Forest.firstSummary?` and `Forest.firstImage?` are the first elements of their kind in the order
  of the document, `Forest.withoutSummaryImages` is the forest without the images of its first
  summary.
* `extract_write`: extraction commutes with writing.
-/

namespace DocImage

open Markup
open Piece (written remaining imagesFrom)

namespace Markup

/-- A row of elements and other markup. An element holds a forest of its own; an empty tag is an
element by itself. -/
inductive Forest where
  | nil
  | leaf (l : Leaf) (rest : Forest)
  | empty (tag : ElementTag) (rest : Forest)
  | element (tag : ElementTag) (content rest : Forest)

namespace Forest

/-- The forest as it is written. -/
def write : Forest → Text
  | nil => []
  | leaf l rest => l.write ++ rest.write
  | empty tag rest => tag.emptyTag.lexeme ++ rest.write
  | element tag content rest =>
    tag.openTag.lexeme ++ (content.write ++ (tag.closeTag.lexeme ++ rest.write))

/-- All elements with what they hold, in the order of the document. -/
def elements : Forest → List (ElementTag × Forest)
  | nil => []
  | leaf _ rest => rest.elements
  | empty tag rest => (tag, nil) :: rest.elements
  | element tag content rest => (tag, content) :: (content.elements ++ rest.elements)

/-- What the first summary of the document holds. -/
def firstSummary? (F : Forest) : Option Forest :=
  (F.elements.find? fun e => e.1.localName = Summary.summaryName).map Prod.snd

/-- The tag of the first image. -/
def firstImage? (F : Forest) : Option ElementTag :=
  (F.elements.find? fun e => e.1.localName = Summary.imageName).map Prod.fst

/-- The forest without its images. -/
def withoutImages : Forest → Forest
  | nil => nil
  | leaf l rest => leaf l rest.withoutImages
  | empty tag rest =>
    if tag.localName = Summary.imageName then rest.withoutImages else empty tag rest.withoutImages
  | element tag content rest =>
    if tag.localName = Summary.imageName then rest.withoutImages
    else element tag content.withoutImages rest.withoutImages

/-- The forest without the images of its first summary. -/
def withoutSummaryImages : Forest → Forest
  | nil => nil
  | leaf l rest => leaf l rest.withoutSummaryImages
  | empty tag rest =>
    if tag.localName = Summary.summaryName then empty tag rest
    else empty tag rest.withoutSummaryImages
  | element tag content rest =>
    if tag.localName = Summary.summaryName then element tag content.withoutImages rest
    else if content.firstSummary?.isSome then element tag content.withoutSummaryImages rest
    else element tag content rest.withoutSummaryImages

/-- The forest in pieces, its outermost images apart. -/
def pieces : Forest → List Piece
  | nil => []
  | leaf l rest => .kept l.write :: rest.pieces
  | empty tag rest =>
    if tag.localName = Summary.imageName then .image (tag.content ++ ['/']) [] :: rest.pieces
    else .kept tag.emptyTag.lexeme :: rest.pieces
  | element tag content rest =>
    if tag.localName = Summary.imageName then
      .image tag.content (content.write ++ tag.closeTag.lexeme) :: rest.pieces
    else .kept tag.openTag.lexeme :: (content.pieces ++ .kept tag.closeTag.lexeme :: rest.pieces)

lemma written_pieces (F : Forest) : written F.pieces = F.write := by
  induction F with
  | nil => rfl
  | leaf l rest ih => rw [pieces, Piece.written_cons, ih]; rfl
  | empty tag rest ih =>
      rw [pieces]
      split
      · rw [Piece.written_cons, ih, Piece.text, List.append_nil]; rfl
      · rw [Piece.written_cons, ih]; rfl
  | element tag content rest ihc ih =>
      rw [pieces]
      split
      · rw [Piece.written_cons, ih, Piece.text, write, ElementTag.openTag]; simp
      · rw [Piece.written_cons, Piece.written_append, Piece.written_cons, ihc, ih]; rfl

lemma remaining_pieces (F : Forest) : remaining F.pieces = F.withoutImages.write := by
  induction F with
  | nil => rfl
  | leaf l rest ih => rw [pieces, Piece.remaining_cons, ih]; rfl
  | empty tag rest ih =>
      rw [pieces, withoutImages]
      split
      · rw [Piece.remaining_cons, ih]; rfl
      · rw [Piece.remaining_cons, ih]; rfl
  | element tag content rest ihc ih =>
      rw [pieces, withoutImages]
      split
      · rw [Piece.remaining_cons, ih]; rfl
      · rw [Piece.remaining_cons, Piece.remaining_append, Piece.remaining_cons, ihc, ih]; rfl

/-- The first image found is the first image in the order of the document. -/
lemma head?_imagesFrom_pieces (F : Forest) (pos : Nat) :
    (imagesFrom pos F.pieces).head?.map ImageElement.attributes =
      F.firstImage?.map ElementTag.attributeText := by
  induction F generalizing pos with
  | nil => rfl
  | leaf l rest ih => exact ih _
  | empty tag rest ih =>
      rw [pieces, firstImage?, elements, List.find?_cons]
      by_cases h : tag.localName = Summary.imageName
      · simp [h, imagesFrom, tag.ofContent_slash]
      · simpa [h, imagesFrom, firstImage?] using ih _
  | element tag content rest ihc ih =>
      rw [pieces, firstImage?, elements, List.find?_cons]
      by_cases h : tag.localName = Summary.imageName
      · simp [h, imagesFrom, tag.ofContent_content]
      · rw [if_neg h, imagesFrom, Piece.imagesFrom_append, List.head?_append, Option.map_or, ihc,
          imagesFrom, ih]
        simp [h, firstImage?, List.find?_append, Option.map_or]

lemma firstSummary?_element (tag : ElementTag) (content rest : Forest) :
    (element tag content rest).firstSummary? =
      if tag.localName = Summary.summaryName then some content
      else content.firstSummary?.or rest.firstSummary? := by
  rw [firstSummary?, elements, List.find?_cons]
  by_cases h : tag.localName = Summary.summaryName
  · simp [h]
  · simp [h, List.find?_append, Option.map_or, firstSummary?]

lemma firstSummary?_empty (tag : ElementTag) (rest : Forest) :
    (empty tag rest).firstSummary? =
      if tag.localName = Summary.summaryName then some nil else rest.firstSummary? := by
  rw [firstSummary?, elements, List.find?_cons]
  by_cases h : tag.localName = Summary.summaryName
  · simp [h]
  · simp [h, firstSummary?]

end Forest
end Markup

namespace Summary.Scan

variable {scan : Scan} {pos : Nat}

/-! ### Passing over written markup -/

/-- Tokens that are no tags are passed over. -/
lemma run_plain {ts : List Token} (h : ∀ t ∈ ts, t.IsReadable ∧ t.IsPlain) (s : Text) :
    scan.run pos (Token.text ts ++ s) = scan.run (pos + Utf8.length (Token.text ts)) s := by
  induction ts generalizing pos with
  | nil => rfl
  | cons t ts ih =>
      obtain ⟨hr, hp⟩ := h t List.mem_cons_self
      have hstep : scan.step t pos (pos + Utf8.length t.lexeme) = .more scan := by
        cases t with
        | tag _ => exact hp.elim
        | close _ => exact hp.elim
        | _ => rfl
      rw [Token.text_cons, List.append_assoc, run_of_step (hr _) hstep,
        ih fun u hu => h u (List.mem_cons_of_mem t hu), Utf8.length_append, Nat.add_assoc]

lemma run_leaf (l : Leaf) (s : Text) :
    scan.run pos (l.write ++ s) = scan.run (pos + Utf8.length l.write) s := by
  obtain ⟨ts, hts, hl⟩ := l.isPlainRow
  rw [hl]
  exact run_plain hts s

/-- A written start tag is entered. -/
lemma run_openTag {scan' : Scan} (tag : ElementTag) (s : Text)
    (h : scan.enter ⟨tag.name.text, tag.attributeText, false⟩ pos
      (pos + Utf8.length tag.openTag.lexeme) = .more scan') :
    scan.run pos (tag.openTag.lexeme ++ s) =
      scan'.run (pos + Utf8.length tag.openTag.lexeme) s := by
  refine run_of_step (tag.isReadable_openTag s) ?_
  rw [← tag.ofContent_content] at h
  exact h

lemma run_emptyTag {scan' : Scan} (tag : ElementTag) (s : Text)
    (h : scan.enter ⟨tag.name.text, tag.attributeText, true⟩ pos
      (pos + Utf8.length tag.emptyTag.lexeme) = .more scan') :
    scan.run pos (tag.emptyTag.lexeme ++ s) =
      scan'.run (pos + Utf8.length tag.emptyTag.lexeme) s := by
  refine run_of_step (tag.isReadable_emptyTag s) ?_
  rw [← tag.ofContent_slash] at h
  exact h

lemma run_closeTag {scan' : Scan} (tag : ElementTag) (s : Text)
    (h : scan.close tag.name.text (pos + Utf8.length tag.closeTag.lexeme) = .more scan') :
    scan.run pos (tag.closeTag.lexeme ++ s) =
      scan'.run (pos + Utf8.length tag.closeTag.lexeme) s := by
  refine run_of_step (tag.isReadable_closeTag s) ?_
  rw [← tag.closedName_text] at h
  exact h

/-- In an image any forest is passed over. -/
lemma run_inside (F : Forest) {opened inner : List Text} (hi : inner ≠ []) (start : Nat)
    (attributes : Text) (images : List ImageElement) (s : Text) :
    Scan.run ⟨.image opened inner start attributes, images⟩ pos (F.write ++ s) =
      Scan.run ⟨.image opened inner start attributes, images⟩ (pos + Utf8.length F.write) s := by
  induction F generalizing inner pos s with
  | nil => rfl
  | leaf l rest ih =>
      rw [Forest.write, List.append_assoc, run_leaf, ih hi, Utf8.length_append, Nat.add_assoc]
  | empty tag rest ih =>
      rw [Forest.write, List.append_assoc, run_emptyTag tag _ rfl, ih hi, Utf8.length_append,
        Nat.add_assoc]
  | element tag content rest ihc ih =>
      have hclose : ∀ stop, close ⟨.image opened (tag.name.text :: inner) start attributes, images⟩
          tag.name.text stop = .more ⟨.image opened inner start attributes, images⟩ := by
        intro stop
        simp [close, hi, goTo]
      simp only [Forest.write, List.append_assoc, Utf8.length_append, ← Nat.add_assoc]
      rw [run_openTag tag _ rfl]
      rw [ihc (List.cons_ne_nil _ _), run_closeTag tag _ (hclose _), ih hi]

section Before

variable {tag : ElementTag} {opened : List Text} {images : List ImageElement}

lemma run_emptyTag_before (h : tag.localName ≠ summaryName) (s : Text) :
    Scan.run ⟨.before opened, images⟩ pos (tag.emptyTag.lexeme ++ s) =
      Scan.run ⟨.before opened, images⟩ (pos + Utf8.length tag.emptyTag.lexeme) s :=
  run_emptyTag tag s (if_neg h)

lemma run_openTag_before (h : tag.localName ≠ summaryName) (s : Text) :
    Scan.run ⟨.before opened, images⟩ pos (tag.openTag.lexeme ++ s) =
      Scan.run ⟨.before (tag.name.text :: opened), images⟩
        (pos + Utf8.length tag.openTag.lexeme) s :=
  run_openTag tag s (if_neg h)

lemma run_closeTag_before (s : Text) :
    Scan.run ⟨.before (tag.name.text :: opened), images⟩ pos (tag.closeTag.lexeme ++ s) =
      Scan.run ⟨.before opened, images⟩ (pos + Utf8.length tag.closeTag.lexeme) s :=
  run_closeTag tag s (if_pos rfl)

/-- A summary begins with its start tag. -/
lemma run_openTag_enters (h : tag.localName = summaryName) (s : Text) :
    Scan.run ⟨.before opened, images⟩ pos (tag.openTag.lexeme ++ s) =
      Scan.run ⟨.summary [tag.name.text], images⟩ (pos + Utf8.length tag.openTag.lexeme) s :=
  run_openTag tag s (if_pos h)

end Before

/-- Before the summary a forest without one is passed over. -/
lemma run_before {F : Forest} (h : F.firstSummary? = none) (opened : List Text)
    (images : List ImageElement) (s : Text) :
    Scan.run ⟨.before opened, images⟩ pos (F.write ++ s) =
      Scan.run ⟨.before opened, images⟩ (pos + Utf8.length F.write) s := by
  induction F generalizing opened pos s with
  | nil => rfl
  | leaf l rest ih =>
      rw [Forest.write, List.append_assoc, run_leaf, ih h, Utf8.length_append, Nat.add_assoc]
  | empty tag rest ih =>
      rw [Forest.firstSummary?_empty] at h
      split at h
      · cases h
      · next hs =>
          rw [Forest.write, List.append_assoc, run_emptyTag_before hs, ih h, Utf8.length_append,
            Nat.add_assoc]
  | element tag content rest ihc ih =>
      rw [Forest.firstSummary?_element] at h
      split at h
      · cases h
      · next hs =>
          obtain ⟨hc, hr⟩ := Option.or_eq_none_iff.mp h
          simp only [Forest.write, List.append_assoc, Utf8.length_append, ← Nat.add_assoc]
          rw [run_openTag_before hs, ihc hc, run_closeTag_before, ih hr]

section InSummary

variable {tag : ElementTag} {opened : List Text} {images : List ImageElement}

/-- An image that is an empty tag is found. -/
lemma run_emptyTag_image (hi : tag.localName = imageName) (s : Text) :
    Scan.run ⟨.summary opened, images⟩ pos (tag.emptyTag.lexeme ++ s) =
      Scan.run ⟨.summary opened,
          ⟨⟨pos, pos + Utf8.length tag.emptyTag.lexeme⟩, tag.attributeText⟩ :: images⟩
        (pos + Utf8.length tag.emptyTag.lexeme) s :=
  run_emptyTag tag s (if_pos hi)

/-- An image with an end tag is found as a whole. -/
lemma run_image (hi : tag.localName = imageName) (content : Forest) (s : Text) :
    Scan.run ⟨.summary opened, images⟩ pos
        (tag.openTag.lexeme ++ (content.write ++ (tag.closeTag.lexeme ++ s))) =
      Scan.run ⟨.summary opened,
          ⟨⟨pos, pos + Utf8.length tag.openTag.lexeme + Utf8.length content.write +
            Utf8.length tag.closeTag.lexeme⟩, tag.attributeText⟩ :: images⟩
        (pos + Utf8.length tag.openTag.lexeme + Utf8.length content.write +
          Utf8.length tag.closeTag.lexeme) s := by
  have henter : ∀ stop, enter ⟨.summary opened, images⟩
      ⟨tag.name.text, tag.attributeText, false⟩ pos stop =
        .more ⟨.image opened [tag.name.text] pos tag.attributeText, images⟩ :=
    fun _ => if_pos hi
  have hclose : ∀ stop, close ⟨.image opened [tag.name.text] pos tag.attributeText, images⟩
      tag.name.text stop =
        .more ⟨.summary opened, ⟨⟨pos, stop⟩, tag.attributeText⟩ :: images⟩ := by
    intro stop
    simp [close, passImage]
  rw [run_openTag tag _ (henter _), run_inside content (List.cons_ne_nil _ _),
    run_closeTag tag _ (hclose _)]

lemma run_emptyTag_summary (hi : tag.localName ≠ imageName) (s : Text) :
    Scan.run ⟨.summary opened, images⟩ pos (tag.emptyTag.lexeme ++ s) =
      Scan.run ⟨.summary opened, images⟩ (pos + Utf8.length tag.emptyTag.lexeme) s :=
  run_emptyTag tag s (if_neg hi)

lemma run_openTag_summary (hi : tag.localName ≠ imageName) (s : Text) :
    Scan.run ⟨.summary opened, images⟩ pos (tag.openTag.lexeme ++ s) =
      Scan.run ⟨.summary (tag.name.text :: opened), images⟩
        (pos + Utf8.length tag.openTag.lexeme) s :=
  run_openTag tag s (if_neg hi)

lemma run_closeTag_summary (ho : opened ≠ []) (s : Text) :
    Scan.run ⟨.summary (tag.name.text :: opened), images⟩ pos (tag.closeTag.lexeme ++ s) =
      Scan.run ⟨.summary opened, images⟩ (pos + Utf8.length tag.closeTag.lexeme) s :=
  run_closeTag tag s (by simp [close, ho, goTo])

/-- The scan ends with the end tag of the summary, whatever follows. -/
lemma run_closeTag_ends (s : Text) :
    Scan.run ⟨.summary [tag.name.text], images⟩ pos (tag.closeTag.lexeme ++ s) =
      some images.reverse := by
  have hstep : ∀ start stop,
      Scan.step ⟨.summary [tag.name.text], images⟩ tag.closeTag start stop =
        .finished images.reverse := by
    intro start stop
    rw [ElementTag.closeTag, step, tag.closedName_text]
    simp [close, found]
  rw [run_of_next? (tag.isReadable_closeTag s), hstep]

end InSummary

/-- In the summary the outermost images of a forest are found. -/
lemma run_summary (F : Forest) {opened : List Text} (ho : opened ≠ []) (images : List ImageElement)
    (s : Text) :
    Scan.run ⟨.summary opened, images⟩ pos (F.write ++ s) =
      Scan.run ⟨.summary opened, (imagesFrom pos F.pieces).reverse ++ images⟩
        (pos + Utf8.length F.write) s := by
  induction F generalizing opened pos images s with
  | nil => rfl
  | leaf l rest ih =>
      rw [Forest.write, List.append_assoc, run_leaf, ih ho, Utf8.length_append, Nat.add_assoc]
      rfl
  | empty tag rest ih =>
      rw [Forest.write, List.append_assoc, Utf8.length_append, ← Nat.add_assoc, Forest.pieces]
      by_cases hi : tag.localName = imageName
      · rw [run_emptyTag_image hi, ih ho, if_pos hi, imagesFrom, List.reverse_cons,
          tag.ofContent_slash, Piece.text, List.append_nil, List.append_assoc]
        rfl
      · rw [run_emptyTag_summary hi, ih ho, if_neg hi]
        rfl
  | element tag content rest ihc ih =>
      simp only [Forest.write, List.append_assoc, Utf8.length_append, ← Nat.add_assoc]
      rw [Forest.pieces]
      by_cases hi : tag.localName = imageName
      · have hlen : pos + Utf8.length tag.openTag.lexeme + Utf8.length content.write +
            Utf8.length tag.closeTag.lexeme =
              pos + Utf8.length (Piece.image tag.content
                (content.write ++ tag.closeTag.lexeme)).text := by
          rw [Piece.text, Utf8.length_append, Utf8.length_append, ElementTag.openTag]
          omega
        rw [run_image hi, ih ho, if_pos hi, imagesFrom, List.reverse_cons, tag.ofContent_content,
          hlen, List.append_assoc]
        rfl
      · rw [run_openTag_summary hi, ihc (List.cons_ne_nil _ _), run_closeTag_summary ho, ih ho,
          if_neg hi, imagesFrom, Piece.imagesFrom_append, Forest.written_pieces,
          List.reverse_append, List.append_assoc]
        rfl

/-! ### The first summary -/

/-- `S` is what the first summary of `F` holds: `F` is read up to the end of that summary, whose
images are found, and the two forms of `F` differ in the text of `S` and in nothing else. -/
def Splits (F S : Forest) : Prop :=
  ∃ before after, F.write = before ++ (S.write ++ after) ∧
    F.withoutSummaryImages.write = before ++ (S.withoutImages.write ++ after) ∧
    ∀ opened images pos s, Scan.run ⟨.before opened, images⟩ pos (F.write ++ s) =
      some (images.reverse ++ imagesFrom (pos + Utf8.length before) S.pieces)

section Splits

variable {tag : ElementTag} {content rest S : Forest}

lemma Splits.leaf (l : Leaf) (h : Splits rest S) : Splits (.leaf l rest) S := by
  obtain ⟨before, after, hw, hr, hrun⟩ := h
  refine ⟨l.write ++ before, after, ?_, ?_, fun opened images pos s => ?_⟩
  · rw [Forest.write, hw, List.append_assoc]
  · rw [Forest.withoutSummaryImages, Forest.write, hr, List.append_assoc]
  · rw [Forest.write, List.append_assoc, run_leaf, hrun, Utf8.length_append, Nat.add_assoc]

lemma Splits.empty (hs : tag.localName ≠ summaryName) (h : Splits rest S) :
    Splits (.empty tag rest) S := by
  obtain ⟨before, after, hw, hr, hrun⟩ := h
  refine ⟨tag.emptyTag.lexeme ++ before, after, ?_, ?_, fun opened images pos s => ?_⟩
  · rw [Forest.write, hw, List.append_assoc]
  · rw [Forest.withoutSummaryImages, if_neg hs, Forest.write, hr, List.append_assoc]
  · rw [Forest.write, List.append_assoc, run_emptyTag_before hs, hrun, Utf8.length_append,
      Nat.add_assoc]

/-- The first summary stands within the element. -/
lemma Splits.within (hs : tag.localName ≠ summaryName) (hc : content.firstSummary? = some S)
    (h : Splits content S) : Splits (.element tag content rest) S := by
  obtain ⟨before, after, hw, hr, hrun⟩ := h
  refine ⟨tag.openTag.lexeme ++ before, after ++ (tag.closeTag.lexeme ++ rest.write), ?_, ?_,
    fun opened images pos s => ?_⟩
  · simp only [Forest.write, hw, List.append_assoc]
  · rw [Forest.withoutSummaryImages, if_neg hs, hc, if_pos (by rfl)]
    simp only [Forest.write, hr, List.append_assoc]
  · simp only [Forest.write, List.append_assoc]
    rw [run_openTag_before hs, hrun, Utf8.length_append, Nat.add_assoc]

/-- The first summary stands behind the element. -/
lemma Splits.behind (hs : tag.localName ≠ summaryName) (hc : content.firstSummary? = none)
    (h : Splits rest S) : Splits (.element tag content rest) S := by
  obtain ⟨before, after, hw, hr, hrun⟩ := h
  refine ⟨tag.openTag.lexeme ++ (content.write ++ (tag.closeTag.lexeme ++ before)), after, ?_, ?_,
    fun opened images pos s => ?_⟩
  · simp only [Forest.write, hw, List.append_assoc]
  · rw [Forest.withoutSummaryImages, if_neg hs, hc, if_neg (by simp)]
    simp only [Forest.write, hr, List.append_assoc]
  · simp only [Forest.write, List.append_assoc, Utf8.length_append, ← Nat.add_assoc]
    rw [run_openTag_before hs, run_before hc, run_closeTag_before, hrun]

/-- The scan ends at a summary that is an empty tag. -/
lemma splits_empty (hs : tag.localName = summaryName) : Splits (.empty tag rest) .nil := by
  refine ⟨tag.emptyTag.lexeme, rest.write, rfl, ?_, fun opened images pos s => ?_⟩
  · rw [Forest.withoutSummaryImages, if_pos hs]
    rfl
  · have hstep : ∀ start stop, Scan.step ⟨.before opened, images⟩ tag.emptyTag start stop =
        .finished images.reverse := by
      intro start stop
      rw [ElementTag.emptyTag, step, tag.ofContent_slash]
      exact if_pos hs
    rw [Forest.write, List.append_assoc, run_of_next? (tag.isReadable_emptyTag _), hstep]
    simp [Forest.pieces, imagesFrom]

/-- The scan ends with the end tag of a summary. -/
lemma splits_element (hs : tag.localName = summaryName) :
    Splits (.element tag content rest) content := by
  refine ⟨tag.openTag.lexeme, tag.closeTag.lexeme ++ rest.write, rfl, ?_,
    fun opened images pos s => ?_⟩
  · rw [Forest.withoutSummaryImages, if_pos hs]
    rfl
  · simp only [Forest.write, List.append_assoc]
    rw [run_openTag_enters hs, run_summary content (List.cons_ne_nil _ _), run_closeTag_ends]
    simp

end Splits

/-- Every forest with a summary splits at the first one. -/
lemma splits_of_firstSummary? {F S : Forest} (h : F.firstSummary? = some S) : Splits F S := by
  induction F with
  | nil => cases h
  | leaf l rest ih => exact (ih h).leaf l
  | empty tag rest ih =>
      rw [Forest.firstSummary?_empty] at h
      by_cases hs : tag.localName = summaryName
      · rw [if_pos hs] at h
        cases h
        exact splits_empty hs
      · rw [if_neg hs] at h
        exact (ih h).empty hs
  | element tag content rest ihc ih =>
      rw [Forest.firstSummary?_element] at h
      by_cases hs : tag.localName = summaryName
      · rw [if_pos hs] at h
        obtain rfl := Option.some.inj h
        exact splits_element hs
      · rw [if_neg hs] at h
        cases hc : content.firstSummary? with
        | some S' =>
            rw [hc, Option.some_or] at h
            cases h
            exact (ihc hc).within hs hc
        | none =>
            rw [hc, Option.none_or] at h
            exact (ih h).behind hs hc

end Summary.Scan

open Summary

/-- What the scan of a written forest finds, with its pieces. -/
lemma images?_write {F S : Forest} (h : F.firstSummary? = some S) :
    ∃ ps rest, F.write = written ps ++ rest ∧ F.withoutSummaryImages.write = remaining ps ++ rest ∧
      images? F.write = some (imagesFrom 0 ps) ∧
      (imagesFrom 0 ps).head?.map ImageElement.attributes =
        S.firstImage?.map ElementTag.attributeText := by
  obtain ⟨before, after, hw, hr, hrun⟩ := Scan.splits_of_firstSummary? h
  refine ⟨.kept before :: S.pieces, after, ?_, ?_, ?_, S.head?_imagesFrom_pieces _⟩
  · rw [hw, Piece.written_cons, S.written_pieces, List.append_assoc]; rfl
  · rw [hr, Piece.remaining_cons, S.remaining_pieces, List.append_assoc]; rfl
  · have := hrun [] [] 0 []
    rwa [List.append_nil] at this

/-- What the first image of the first summary asks for. -/
def Markup.Forest.requested? (F : Forest) : Option ImageTag :=
  (F.firstSummary?.bind Forest.firstImage?).bind fun tag => ImageTag.ofAttributes? tag.attributes

lemma requested?_eq_of_head? {images : List ImageElement} {tag? : Option ElementTag}
    (h : images.head?.map ImageElement.attributes = tag?.map ElementTag.attributeText) :
    DocImage.requested? images = tag?.bind fun tag => ImageTag.ofAttributes? tag.attributes := by
  have hb : DocImage.requested? images = (images.head?.map ImageElement.attributes).bind
      fun text => ImageTag.ofAttributes? (Attribute.readAll text) := by
    rw [DocImage.requested?, Option.bind_map]; rfl
  rw [hb, h, Option.bind_map]
  simp only [Function.comp_def, ElementTag.readAll_attributeText]

/-- A written forest is taken apart as its first summary says. -/
lemma extract_write_eq {F : Forest} (hm : F.write.head? ≠ some byteOrderMark) :
    extract F.write = .ok (match F.requested? with
      | none => ⟨none, F.write⟩
      | some tag => ⟨some tag, F.withoutSummaryImages.write⟩) := by
  cases hS : F.firstSummary? with
  | none =>
      have hi : images? F.write = some (imagesFrom 0 []) := by
        have h : Scan.run ⟨.before [], []⟩ 0 (F.write ++ []) = _ := Scan.run_before hS [] [] []
        rw [List.append_nil, Scan.run_nil] at h
        exact h
      have hw : F.write = written [] ++ F.write := rfl
      rw [extract_of_pieces hm hw hi, Forest.requested?, hS]
      rfl
  | some S =>
      obtain ⟨ps, rest, hw, hr, hi, hh⟩ := images?_write hS
      rw [extract_of_pieces hm hw hi, requested?_eq_of_head? hh, Forest.requested?, hS, hr]
      rfl

/-- **Extraction commutes with writing.** A written forest asks for the image that the first image
of its first summary asks for, if that one has an address that is not blank, and the forest is then
left without the images of the summary. In all other cases it stays as it is. -/
theorem extract_write (F : Forest) (hm : F.write.head? ≠ some byteOrderMark) :
    (∀ S tag v, F.firstSummary? = some S → S.firstImage? = some tag →
      ImageTag.value? tag.attributes ['s', 'r', 'c'] = some v → trim v ≠ [] →
      extract F.write =
        .ok ⟨some ⟨trim v, ImageTag.boundsOf tag.attributes⟩, F.withoutSummaryImages.write⟩) ∧
    ((∀ S tag v, F.firstSummary? = some S → S.firstImage? = some tag →
      ImageTag.value? tag.attributes ['s', 'r', 'c'] = some v → trim v = []) →
      extract F.write = .ok ⟨none, F.write⟩) := by
  refine ⟨fun S tag v hS ht hv hne => ?_, fun hall => ?_⟩
  · have hr : F.requested? = some ⟨trim v, ImageTag.boundsOf tag.attributes⟩ := by
      rw [Forest.requested?, hS, Option.bind_some, ht, Option.bind_some]
      exact ImageTag.ofAttributes?_eq_some_iff.mpr ⟨v, hv, hne, rfl⟩
    rw [extract_write_eq hm, hr]
  · have hr : F.requested? = none := by
      rw [Option.eq_none_iff_forall_not_mem]
      intro image hi
      obtain ⟨tag, htag, himage⟩ := Option.bind_eq_some_iff.mp hi
      obtain ⟨S, hS, ht⟩ := Option.bind_eq_some_iff.mp htag
      obtain ⟨v, hv, hne, -⟩ := ImageTag.ofAttributes?_eq_some_iff.mp himage
      exact hne (hall S tag v hS ht hv)
    rw [extract_write_eq hm, hr]

/-- An image within an image, with a `>` in quotes, is taken out as a whole. -/
theorem extract_write_nested :
    ∃ F : Forest,
      F.write = "<summary><x:img src=' >'>t<x:img src=' >'/></x:img>é&amp;</summary>".toList ∧
      F.write.head? ≠ some byteOrderMark ∧
      extract F.write = .ok ⟨some ⟨['>'], {}⟩, "<summary>é&amp;</summary>".toList⟩ := by
  have hrun : ∀ s : Text, '<' ∉ s → '&' ∉ s → IsRunning s := fun s h1 h2 =>
    ⟨h1, fun t ht => absurd (ht.subset List.mem_cons_self) h2⟩
  have hamp : IsRunning ['é', '&', 'a', 'm', 'p', ';'] := by
    refine ⟨by decide, fun t ht => ?_⟩
    simp only [List.suffix_cons_iff] at ht
    rcases ht with h | h | h | h | h | h | h <;> simp_all
  let summary : ElementTag :=
    ⟨⟨Summary.summaryName, by decide, List.all_eq_true.mp rfl, by decide⟩, [], by decide⟩
  let src : Name := ⟨['s', 'r', 'c'], by decide, List.all_eq_true.mp rfl, by decide⟩
  let img : ElementTag :=
    ⟨⟨['x', ':', 'i', 'm', 'g'], by decide, List.all_eq_true.mp rfl, by decide⟩,
      [⟨src, [' ', '>'], '\'', rfl, by decide⟩], by decide⟩
  let F : Forest := .element summary
    (.element img (.leaf (.text ['t'] (hrun _ (by decide) (by decide))) (.empty img .nil))
      (.leaf (.text _ hamp) .nil)) .nil
  have hm : F.write.head? ≠ some byteOrderMark := by
    show some '<' ≠ some byteOrderMark
    decide
  have hv : ImageTag.value? [⟨['s', 'r', 'c'], [' ', '>']⟩] ['s', 'r', 'c'] = some [' ', '>'] := by
    cbv
  exact ⟨F, rfl, hm, (extract_write F hm).1 _ img [' ', '>'] rfl rfl hv (by decide)⟩

end DocImage
