import DocImage.Proofs.Extraction.Cutting
import DocImage.Proofs.Extraction.Reading

/-!
What the scan of a comment finds. `Summary.Covers` is the invariant of the reading: the tokens read
so far are pieces of the comment, the images among them are those found, and every one of them
stands in the first summary (`Span.HoldsImage`). `exists_pieces_of_images?` is what remains of it at
the end of a scan, and `extract_cases` what it means for the extraction.
-/

namespace DocImage

open Markup Token
open Piece (written remaining imagesFrom imagesFrom_append)

namespace Summary

/-- Some tokens lead into the first summary: its start tag is among them. -/
def Begun (ts : List Token) : Prop :=
  ∃ before content after, ts = before ++ .tag content :: after ∧
    (Token.tag content).IsTagOf summaryName ∧ (StartTag.ofContent content).isEmpty = false ∧
    ∀ t ∈ before, ¬ t.IsTagOf summaryName

lemma Begun.append {ts : List Token} (h : Begun ts) (us : List Token) : Begun (ts ++ us) := by
  obtain ⟨before, content, after, rfl, hn, he, hb⟩ := h
  exact ⟨before, content, after ++ us, by simp, hn, he, hb⟩

end Summary

/-- A span of a comment holds an image of its first summary: it begins with the start tag or empty
tag of an image, which is met when the comment is read token by token after the start tag of its
first summary, and it ends with a `>`. -/
def Span.HoldsImage (span : Span) (comment : Text) : Prop :=
  ∃ ts content more rest,
    Reads comment ts ((Piece.image content more).text ++ rest) ∧ Summary.Begun ts ∧
    (Token.tag content).IsTagOf Summary.imageName ∧
    span = ⟨Utf8.length (text ts),
      Utf8.length (text ts) + Utf8.length (Piece.image content more).text⟩ ∧
    ['>'] <:+ (Piece.image content more).text

namespace Summary

/-- The images that a reading has found are those among some pieces of the comment. -/
structure FoundIn (comment : Text) (scan : Scan) (ps : List Piece) : Prop where
  found : scan.found = imagesFrom 0 ps
  stands : ∀ image ∈ scan.found, image.span.HoldsImage comment

/-- What is known of a reading after some tokens. -/
def Covers (comment : Text) (ts : List Token) (scan : Scan) : Prop :=
  match scan.place with
  | .before _ => scan.images = [] ∧ ∀ t ∈ ts, ¬ t.IsTagOf summaryName
  | .summary _ => Begun ts ∧ ∃ ps, written ps = text ts ∧ FoundIn comment scan ps
  | .image _ _ start attributes =>
    ∃ before content more rest ps, ts = before ++ .tag content :: more ∧ Begun before ∧
      Reads comment before rest ∧ (Token.tag content).IsTagOf imageName ∧
      start = Utf8.length (text before) ∧ attributes = (StartTag.ofContent content).attributes ∧
      written ps = text before ∧ FoundIn comment scan ps

/-- An image element that has been read to its end is the next one found. -/
lemma FoundIn.snoc {comment rest s : Text} {scan scan' : Scan} {ps : List Piece}
    {before more : List Token} {content : Text} (h : FoundIn comment scan ps)
    (hps : written ps = text before) (hr : Reads comment before rest)
    (he : comment = text (before ++ .tag content :: more) ++ s) (hb : Begun before)
    (hi : (Token.tag content).IsTagOf imageName)
    (hl : ['>'] <:+ (Piece.image content (text more)).text)
    (hf : scan'.images = ⟨⟨Utf8.length (text before),
      Utf8.length (text (before ++ .tag content :: more))⟩,
      (StartTag.ofContent content).attributes⟩ :: scan.images) :
    FoundIn comment scan' (ps ++ [.image content (text more)]) := by
  have hlen : Utf8.length (text (before ++ .tag content :: more)) =
      Utf8.length (text before) + Utf8.length (Piece.image content (text more)).text := by
    rw [text_append, Utf8.length_append, text_cons]; rfl
  have hrest : rest = (Piece.image content (text more)).text ++ s := by
    have h1 := hr.eq
    rw [he, text_append, List.append_assoc] at h1
    exact (List.append_cancel_left h1).symm
  have hfound : scan'.found = scan.found ++ [⟨⟨Utf8.length (text before),
      Utf8.length (text (before ++ .tag content :: more))⟩,
      (StartTag.ofContent content).attributes⟩] := by
    rw [Scan.found, hf, List.reverse_cons]; rfl
  constructor
  · rw [hfound, h.found, imagesFrom_append, hps, hlen, Nat.zero_add]
    rfl
  · intro image hm
    rw [hfound, List.mem_append, List.mem_singleton] at hm
    rcases hm with hm | rfl
    · exact h.stands image hm
    · exact ⟨before, content, text more, s, hrest ▸ hr, hb, hi, by rw [hlen], hl⟩

/-- Every token keeps the invariant. -/
lemma Covers.step {comment rest s : Text} {ts : List Token} {t : Token} {scan scan' : Scan}
    (hc : Covers comment ts scan) (hr : Reads comment ts s) (hn : next? s = some (t, rest))
    (hm : scan.Moves t (Utf8.length (text ts)) (Utf8.length (text (ts ++ [t]))) scan') :
    Covers comment (ts ++ [t]) scan' := by
  have he : comment = text (ts ++ [t]) ++ rest := (hr.snoc hn).eq
  cases hm with
  | before opened' hp hs =>
      rw [Covers, hp] at hc
      refine ⟨hc.1, fun u hu => ?_⟩
      rcases List.mem_append.mp hu with hu | hu
      · exact hc.2 u hu
      · rw [List.mem_singleton.mp hu]; exact hs
  | @enters opened content hp ht hs hne =>
      rw [Covers, hp] at hc
      subst ht
      refine ⟨⟨ts, content, [], rfl, hs, hne, hc.2⟩, [.kept (text (ts ++ [.tag content]))],
        by simp [Piece.text], ?_⟩
      constructor <;> simp [Scan.found, hc.1, imagesFrom]
  | within opened' hp =>
      rw [Covers, hp] at hc
      obtain ⟨hb, ps, hps, hf⟩ := hc
      refine ⟨hb.append [t], ps ++ [.kept t.lexeme], by simp [hps, Piece.text], ?_, hf.stands⟩
      rw [imagesFrom_append]
      simpa [imagesFrom, Scan.found] using hf.found
  | @passes opened content hp ht hi =>
      rw [Covers, hp] at hc
      obtain ⟨hb, ps, hps, hf⟩ := hc
      subst ht
      refine ⟨hb.append [_], ps ++ [.image content []], by simp [hps, Piece.text], ?_⟩
      exact hf.snoc hps hr he hb hi ⟨'<' :: content, by simp [Piece.text, lexeme]⟩ rfl
  | @opens opened content hp ht hi =>
      rw [Covers, hp] at hc
      obtain ⟨hb, ps, hps, hf⟩ := hc
      subst ht
      exact ⟨ts, content, [], s, ps, rfl, hb, hr, hi, rfl, rfl, hps, hf.found, hf.stands⟩
  | inside inner' hp =>
      rw [Covers, hp] at hc
      obtain ⟨before, content, more, r, ps, rfl, hb, hr', hi, hst, ha, hps, hf⟩ := hc
      exact ⟨before, content, more ++ [t], r, ps, by simp, hb, hr', hi, hst, ha, hps, hf.found,
        hf.stands⟩
  | @closes opened inner start' attributes closed hp ht =>
      rw [Covers, hp] at hc
      obtain ⟨before, content, more, r, ps, rfl, hb, hr', hi, rfl, rfl, hps, hf⟩ := hc
      subst ht
      rw [List.append_assoc, List.cons_append] at he ⊢
      refine ⟨hb.append _, ps ++ [.image content (text (more ++ [.close closed]))],
        by simp [hps, Piece.text], ?_⟩
      refine hf.snoc hps hr' he hb hi ?_ (by simp)
      exact ⟨'<' :: (content ++ '>' :: (text more ++ '<' :: '/' :: closed)),
        by simp [Piece.text, lexeme]⟩

/-- The invariant holds of every reading. -/
lemma Reaches.covers {comment s : Text} {ts : List Token} {scan : Scan}
    (h : Reaches comment ts scan s) : Covers comment ts scan := by
  induction h with
  | start => exact ⟨rfl, by simp⟩
  | snoc hr hn hs ih => exact ih.step hr.reads hn (Scan.moves_of_step hs)

/-- The images that a scan finds are those among some pieces of the comment, and they stand in its
first summary. -/
lemma exists_pieces_of_images? {comment : Text} {images : List ImageElement}
    (h : images? comment = some images) :
    ∃ ps rest, comment = written ps ++ rest ∧ images = imagesFrom 0 ps ∧
      ∀ image ∈ images, image.span.HoldsImage comment := by
  obtain ⟨ts, scan, s, hr, rfl, ho⟩ := exists_reaches_of_images? h
  have hc := hr.covers
  rw [Covers] at hc
  split at hc
  · exact ⟨[], comment, rfl, by simp [Scan.found, hc.1, imagesFrom], by simp [Scan.found, hc.1]⟩
  · obtain ⟨-, ps, hps, hf⟩ := hc
    exact ⟨ps, s, by rw [hps, hr.eq], hf.found, hf.stands⟩
  · next hp => exact absurd hp (ho.place_ne _ _ _ _)

end Summary

/-- Extraction leaves a comment as it is, or takes out the images that the scan has found. -/
lemma extract_cases {comment : Text} (hm : comment.head? ≠ some byteOrderMark) :
    extract comment = .ok ⟨none, comment⟩ ∨
      ∃ ps rest tag, comment = written ps ++ rest ∧
        Summary.images? comment = some (imagesFrom 0 ps) ∧
        requested? (imagesFrom 0 ps) = some tag ∧
        (∀ image ∈ imagesFrom 0 ps, image.span.HoldsImage comment) ∧
        extract comment = .ok ⟨some tag, remaining ps ++ rest⟩ := by
  cases hi : Summary.images? comment with
  | none =>
      left
      rw [extract, withoutMark_eq_self hm, hi]
  | some images =>
      obtain ⟨ps, rest, hc, rfl, hh⟩ := Summary.exists_pieces_of_images? hi
      have hx := extract_of_pieces hm hc hi
      cases hr : requested? (imagesFrom 0 ps) with
      | none =>
          rw [hr] at hx
          exact .inl hx
      | some tag =>
          rw [hr] at hx
          exact .inr ⟨ps, rest, tag, hc, rfl, hr, hh, hx⟩

/-- Extraction never fails, and without an image tag it leaves the comment as it is. -/
lemma exists_extract_eq_ok {comment : Text} (hm : comment.head? ≠ some byteOrderMark) :
    ∃ e, extract comment = .ok e ∧ (e.tag = none → e.sanitized = comment) := by
  obtain hx | ⟨ps, rest, tag, -, -, -, -, hx⟩ := extract_cases hm
  · exact ⟨_, hx, fun _ => rfl⟩
  · exact ⟨_, hx, fun h => by cases h⟩

end DocImage
