import DocImage.Proofs.Extraction.Forest
import DocImage.Proofs.ImageTag.Asked

/-!
Extraction of a single image, which is written in any of the ways in which markup lets a tag be
written, within elements of the summary and among other markup.

* `Gap` is a place in a forest, possibly deep within it, and `SummaryGap` a place in the first
  summary of a comment.
* `SpacedElement` is an element as an empty tag or with an end tag, with white space as its author
  likes it.
* `Scan.run_gap`: the scan passes over what stands before and behind an image in the summary, and
  finds the image.
* `SummaryGap.extract_fill`: reading an image tag undoes writing it.
-/

namespace DocImage

open Markup
open Piece (written remaining imagesFrom)

namespace Markup

/-! ### Gaps -/

/-- A place in a forest: between two rows of elements, or within an element. -/
inductive Gap where
  | here (before after : Forest)
  | within (before : Forest) (tag : ElementTag) (inner : Gap) (after : Forest)

namespace Gap

/-- The text before a place. -/
def front : Gap → Text
  | here before _ => before.write
  | within before tag inner _ => before.write ++ (tag.openTag.lexeme ++ inner.front)

/-- The text behind a place. -/
def back : Gap → Text
  | here _ after => after.write
  | within _ tag inner after => inner.back ++ (tag.closeTag.lexeme ++ after.write)

/-- No summary begins before the place. -/
def NoSummaryBefore : Gap → Prop
  | here before _ => before.firstSummary? = none
  | within before tag inner _ =>
    before.firstSummary? = none ∧ tag.localName ≠ Summary.summaryName ∧ inner.NoSummaryBefore

/-- No image stands before or behind the place or around it. -/
def NoImage : Gap → Prop
  | here before after => before.firstImage? = none ∧ after.firstImage? = none
  | within before tag inner after =>
    (before.firstImage? = none ∧ after.firstImage? = none) ∧
      tag.localName ≠ Summary.imageName ∧ inner.NoImage

end Gap

/-! ### Elements in any spacing -/

/-- An element as an empty tag, or with what it holds and an end tag, which may have white space at
its end. -/
inductive SpacedElement where
  | empty (tag : SpacedTag)
  | element (tag : SpacedTag) (content : Forest) (space : Text)
      (isSpace_of_mem : ∀ c ∈ space, isSpace c = true)

namespace SpacedElement

/-- The tag with which an element begins. -/
def tag : SpacedElement → SpacedTag
  | empty tag => tag
  | element tag .. => tag

/-- The element as it is written. -/
def write : SpacedElement → Text
  | empty tag => tag.emptyTag.lexeme
  | element tag content space _ =>
    tag.openTag.lexeme ++ (content.write ++ (Token.close (tag.name.text ++ space)).lexeme)

/-- The element as an image that is cut out. -/
def piece : SpacedElement → Piece
  | empty tag => .image (tag.content ++ ['/']) []
  | element tag content space _ =>
    .image tag.content (content.write ++ (Token.close (tag.name.text ++ space)).lexeme)

lemma text_piece (e : SpacedElement) : e.piece.text = e.write := by
  cases e with
  | empty tag => exact List.append_nil _
  | element tag content space h => rfl

lemma imagesFrom_piece (e : SpacedElement) (pos : Nat) :
    imagesFrom pos [e.piece] =
      [⟨⟨pos, pos + Utf8.length e.write⟩, e.tag.attributeText⟩] := by
  rw [← e.text_piece]
  cases e with
  | empty tag => rw [piece, imagesFrom, tag.ofContent_slash]; rfl
  | element tag content space h => rw [piece, imagesFrom, tag.ofContent_content]; rfl

end SpacedElement

end Markup

/-! ### Passing over a gap -/

namespace Summary.Scan

variable {scan : Scan} {pos : Nat}

/-- Before the summary the scan passes over what stands before a place. -/
lemma run_front {g : Gap} (h : g.NoSummaryBefore) (opened : List Text)
    (images : List ImageElement) :
    ∃ opened', ∀ pos s, Scan.run ⟨.before opened, images⟩ pos (g.front ++ s) =
      Scan.run ⟨.before opened', images⟩ (pos + Utf8.length g.front) s := by
  induction g generalizing opened with
  | here before after => exact ⟨opened, fun _ => run_before h opened images⟩
  | within before tag inner after ih =>
      obtain ⟨hb, hs, hi⟩ := h
      obtain ⟨opened', hrun⟩ := ih hi (tag.name.text :: opened)
      refine ⟨opened', fun pos s => ?_⟩
      simp only [Gap.front, List.append_assoc, Utf8.length_append, ← Nat.add_assoc]
      rw [run_before hb, run_openTag_before hs, hrun]

/-- In the summary a forest without images is passed over. -/
lemma run_noImage {F : Forest} (h : F.firstImage? = none) {opened : List Text} (ho : opened ≠ [])
    (images : List ImageElement) (s : Text) :
    Scan.run ⟨.summary opened, images⟩ pos (F.write ++ s) =
      Scan.run ⟨.summary opened, images⟩ (pos + Utf8.length F.write) s := by
  have hnone : imagesFrom pos F.pieces = [] := by
    have hh := F.head?_imagesFrom_pieces pos
    rw [h, Option.map_none, Option.map_eq_none_iff, List.head?_eq_none_iff] at hh
    exact hh
  rw [run_summary F ho, hnone]
  rfl

/-- In the summary an image is found, however it is written. -/
lemma run_spaced {e : SpacedElement} (he : localName e.tag.name.text = imageName)
    (opened : List Text) (images : List ImageElement) (s : Text) :
    Scan.run ⟨.summary opened, images⟩ pos (e.write ++ s) =
      Scan.run ⟨.summary opened, imagesFrom pos [e.piece] ++ images⟩
        (pos + Utf8.length e.write) s := by
  rw [e.imagesFrom_piece]
  cases e with
  | empty tag =>
      have hstep : Scan.step ⟨.summary opened, images⟩ tag.emptyTag pos
          (pos + Utf8.length tag.emptyTag.lexeme) =
            .more ⟨.summary opened,
              ⟨⟨pos, pos + Utf8.length tag.emptyTag.lexeme⟩, tag.attributeText⟩ :: images⟩ := by
        rw [SpacedTag.emptyTag, step, tag.ofContent_slash]
        exact if_pos he
      exact run_of_step (tag.isReadable_emptyTag s) hstep
  | element tag content space h =>
      have hopen : ∀ stop, Scan.step ⟨.summary opened, images⟩ tag.openTag pos stop =
          .more ⟨.image opened [tag.name.text] pos tag.attributeText, images⟩ := by
        intro stop
        rw [SpacedTag.openTag, step, tag.ofContent_content]
        exact if_pos he
      have hclose : ∀ start stop,
          Scan.step ⟨.image opened [tag.name.text] pos tag.attributeText, images⟩
            (.close (tag.name.text ++ space)) start stop =
              .more ⟨.summary opened, ⟨⟨pos, stop⟩, tag.attributeText⟩ :: images⟩ := by
        intro start stop
        rw [step, tag.name.closedName_append h]
        simp [close, passImage]
      simp only [SpacedElement.write, SpacedElement.tag, List.append_assoc, Utf8.length_append,
        ← Nat.add_assoc]
      rw [run_of_step (tag.isReadable_openTag _) (hopen _),
        run_inside content (List.cons_ne_nil _ _),
        run_of_step (tag.name.isReadable_close h _) (hclose _ _)]
      rfl

/-- In the summary the image in a gap is found, and no other. -/
lemma run_gap {g : Gap} (hg : g.NoImage) {e : SpacedElement}
    (he : localName e.tag.name.text = imageName) {opened : List Text} (ho : opened ≠ [])
    (images : List ImageElement) (s : Text) :
    Scan.run ⟨.summary opened, images⟩ pos (g.front ++ (e.write ++ (g.back ++ s))) =
      Scan.run ⟨.summary opened, imagesFrom (pos + Utf8.length g.front) [e.piece] ++ images⟩
        (pos + Utf8.length g.front + Utf8.length e.write + Utf8.length g.back) s := by
  induction g generalizing opened pos s with
  | here before after =>
      rw [Gap.front, Gap.back, run_noImage hg.1 ho, run_spaced he, run_noImage hg.2 ho]
  | within before tag inner after ih =>
      obtain ⟨⟨hb, ha⟩, ht, hi⟩ := hg
      simp only [Gap.front, Gap.back, List.append_assoc, Utf8.length_append, ← Nat.add_assoc]
      rw [run_noImage hb ho, run_openTag_summary ht, ih hi (List.cons_ne_nil _ _),
        run_closeTag_summary ho, run_noImage ha ho]

end Summary.Scan

/-! ### The image of a comment -/

/-- A comment with a gap in its first summary, which holds no image besides. Whatever follows that
summary belongs to the comment. -/
structure SummaryGap where
  outer : Gap
  summary : ElementTag
  inner : Gap
  rest : Text
  localName_summary : summary.localName = Summary.summaryName
  noSummaryBefore : outer.NoSummaryBefore
  noImage : inner.NoImage
  noMark : outer.front.head? ≠ some byteOrderMark

namespace SummaryGap

variable (g : SummaryGap)

/-- The text before the gap. -/
def front : Text :=
  g.outer.front ++ (g.summary.openTag.lexeme ++ g.inner.front)

/-- The text behind the gap. -/
def back : Text :=
  g.inner.back ++ (g.summary.closeTag.lexeme ++ g.rest)

/-- The comment with a text in its gap. -/
def fill (s : Text) : Text :=
  g.front ++ (s ++ g.back)

lemma head?_fill_ne (s : Text) : (g.fill s).head? ≠ some byteOrderMark := by
  have hm := g.noMark
  rw [fill, front]
  cases h : g.outer.front with
  | nil =>
      show some '<' ≠ some byteOrderMark
      decide
  | cons c r => rwa [h] at hm

/-- The scan finds the image in the gap. -/
lemma images?_fill {e : SpacedElement} (he : localName e.tag.name.text = Summary.imageName) :
    Summary.images? (g.fill e.write) = some (imagesFrom 0 [.kept g.front, e.piece]) := by
  obtain ⟨opened, hfront⟩ := Summary.Scan.run_front g.noSummaryBefore [] []
  rw [Summary.images?, fill, front, back]
  simp only [List.append_assoc]
  rw [Summary.Scan.start, hfront, Summary.Scan.run_openTag_enters g.localName_summary,
    Summary.Scan.run_gap g.noImage he (List.cons_ne_nil _ _), Summary.Scan.run_closeTag_ends,
    e.imagesFrom_piece, imagesFrom, e.imagesFrom_piece]
  simp [Utf8.length_append, Nat.add_assoc]

/-- **Reading an image tag undoes writing it.** -/
theorem extract_fill {s : Text} {bounds : Bounds} {e : SpacedElement}
    (he : localName e.tag.name.text = Summary.imageName)
    (ha : ImageTag.Asks e.tag.attributes s bounds) (hs : trim s ≠ []) :
    extract (g.fill e.write) = .ok ⟨some ⟨trim s, bounds⟩, g.fill []⟩ := by
  have hreq : requested? (imagesFrom 0 [.kept g.front, e.piece]) = some ⟨trim s, bounds⟩ := by
    rw [imagesFrom, e.imagesFrom_piece]
    show ImageTag.ofAttributes? (Attribute.readAll e.tag.attributeText) = _
    rw [e.tag.readAll_attributeText, ha.ofAttributes?_eq e.tag.nodup_map_name_attributes hs]
  have hw : g.fill e.write = written [.kept g.front, e.piece] ++ g.back := by
    rw [Piece.written_cons, Piece.written_cons, e.text_piece]
    simp [fill, Piece.text]
  rw [extract_of_pieces (g.head?_fill_ne _) hw (g.images?_fill he), hreq]
  cases e <;> simp [fill, SpacedElement.piece, Piece.left]

/-- An image over two lines, within an element, with both kinds of quotes and with markup in one of
its values. -/
theorem extract_fill_lines :
    ∃ (g : SummaryGap) (e : SpacedElement),
      g.fill e.write =
        "<m><summary><b><img upscale = 'TRUE'\n src=\" a&amp;b\" alt='<\"/>'".toList ++
          " max-width=\" 300 px\" min-size='011'></img ></b></summary>&".toList ∧
      localName e.tag.name.text = Summary.imageName ∧
      ImageTag.Asks e.tag.attributes " a&b".toList
        { minEdge := some 11, maxWidth := some 300, allowUpscale := true } ∧
      trim " a&b".toList ≠ [] ∧
      extract (g.fill e.write) =
        .ok ⟨some ⟨"a&b".toList,
          { minEdge := some 11, maxWidth := some 300, allowUpscale := true }⟩,
          "<m><summary><b></b></summary>&".toList⟩ := by
  let around (c : Char) (h : isNameChar c = true ∧ c ≠ '!' ∧ c ≠ '?') : Gap :=
    .within .nil ⟨.ofText [c] (by simpa using h), [], List.nodup_nil⟩ (.here .nil .nil) .nil
  let g : SummaryGap :=
    ⟨around 'm' (by decide), ⟨.ofText Summary.summaryName (by decide), [], List.nodup_nil⟩,
      around 'b' (by decide), ['&'], rfl, ⟨rfl, by decide, rfl⟩, ⟨⟨rfl, rfl⟩, by decide, rfl, rfl⟩,
      by decide⟩
  let upscale : SpacedAttribute :=
    ⟨⟨.ofText ['u', 'p', 's', 'c', 'a', 'l', 'e'] (by decide), ['T', 'R', 'U', 'E'], '\'', rfl,
      by decide⟩, [' '], [' '], [' '], by decide, List.all_eq_true.mp rfl⟩
  let src : SpacedAttribute :=
    ⟨⟨.ofText ['s', 'r', 'c'] (by decide), escape " a&b".toList, '"', rfl, by decide⟩,
      ['\n', ' '], [], [], by decide, List.all_eq_true.mp rfl⟩
  let alt : SpacedAttribute :=
    ⟨⟨.ofText ['a', 'l', 't'] (by decide), ['<', '"', '/', '>'], '\'', rfl, by decide⟩,
      [' '], [], [], by decide, List.all_eq_true.mp rfl⟩
  let width : SpacedAttribute :=
    ⟨⟨.ofText ['m', 'a', 'x', '-', 'w', 'i', 'd', 't', 'h'] (by decide), " 300 px".toList, '"', rfl,
      by decide⟩, [' '], [], [], by decide, List.all_eq_true.mp rfl⟩
  let size : SpacedAttribute :=
    ⟨⟨.ofText ['m', 'i', 'n', '-', 's', 'i', 'z', 'e'] (by decide), ['0', '1', '1'], '\'', rfl,
      by decide⟩, [' '], [], [], by decide, List.all_eq_true.mp rfl⟩
  let e : SpacedElement := .element
    ⟨.ofText Summary.imageName (by decide), [upscale, src, alt, width, size], by decide, [], nofun⟩
    .nil [' '] (List.all_eq_true.mp rfl)
  let eleven : PixelText :=
    ⟨[], ['0', '1', '1'], [], [], [], by decide, List.all_eq_true.mp rfl, nofun, nofun⟩
  let hundreds : PixelText :=
    ⟨[' '], ['3', '0', '0'], [' '], ['p', 'x'], [], by decide, List.all_eq_true.mp rfl,
      List.all_eq_true.mp rfl, by simp⟩
  have ha : ImageTag.Asks e.tag.attributes " a&b".toList
      { minEdge := some 11, maxWidth := some 300, allowUpscale := true } := by
    refine ⟨⟨src.toAttribute, ?_, rfl, rfl⟩, ⟨by decide, size.toAttribute, rfl, eleven, rfl, rfl⟩,
      rfl, rfl, rfl, ⟨by decide, width.toAttribute, rfl, hundreds, rfl, rfl⟩, rfl, ?_⟩
    · exact .tail _ (.head _)
    · exact ⟨upscale.toAttribute, .head _, rfl, by decide⟩
  exact ⟨g, e, rfl, rfl, ha, by decide, g.extract_fill rfl ha (by decide)⟩

end SummaryGap

end DocImage
