import Mathlib.Tactic
import DocImage.Proofs.Extraction.Course
import DocImage.Proofs.Extraction.Found

/-!
Extraction from a comment in its surroundings. Text before the comment in which no summary begins,
and any text behind the first summary, change neither what the image asks for nor what is left of
the comment (`extract_within`). In front of a text that leaves elements open the reading of a
comment runs as it does alone, with these elements below its own (`Scan.above`): `step_above` is
one token, `Leads.above` the whole reading.
-/

namespace DocImage

open Markup Token
open Piece (written remaining imagesFrom)

/-- The image element in a comment that stands behind `n` bytes. -/
def ImageElement.shift (n : Nat) (image : ImageElement) : ImageElement :=
  ⟨⟨n + image.span.start, n + image.span.stop⟩, image.attributes⟩

namespace Summary

/-! ### Readings behind a text -/

/-- The place of a reading behind `n` bytes that leave some elements open. -/
def Place.above (opened : List Text) (n : Nat) : Place → Place
  | .before own => .before (own ++ opened)
  | .summary own => .summary own
  | .image own inner start attributes => .image own inner (n + start) attributes

/-- The reading behind `n` bytes that leave some elements open. -/
def Scan.above (opened : List Text) (n : Nat) (scan : Scan) : Scan :=
  ⟨scan.place.above opened n, scan.images.map (ImageElement.shift n)⟩

/-- What a token makes of the reading behind `n` bytes that leave some elements open. -/
def Outcome.above (opened : List Text) (n : Nat) : Outcome → Outcome
  | .more scan => .more (scan.above opened n)
  | .finished images => .finished (images.map (ImageElement.shift n))
  | .malformed => .malformed

variable {opened : List Text} {n : Nat}

namespace Scan

variable {scan scan' : Scan} {start stop : Nat}

lemma close_above {name : Text} (h : scan.close name stop ≠ .malformed) :
    (scan.above opened n).close name (n + stop) = (scan.close name stop).above opened n := by
  obtain ⟨place, images⟩ := scan
  rcases place with (_ | ⟨m, own⟩) | (_ | ⟨m, own⟩) | ⟨own, _ | ⟨m, inner⟩, start, attributes⟩
  · exact absurd rfl h
  · by_cases hm : name = m
    · simp [close, above, Place.above, Outcome.above, goTo, hm]
    · exact absurd (if_neg hm) h
  · exact absurd rfl h
  · by_cases hm : name = m
    · by_cases ho : own = []
      · simp [close, above, Place.above, Outcome.above, hm, ho, found]
      · simp [close, above, Place.above, Outcome.above, goTo, hm, ho]
    · exact absurd (if_pos hm) h
  · exact absurd rfl h
  · by_cases hm : name = m
    · by_cases hi : inner = []
      · simp [close, above, Place.above, Outcome.above, passImage, hm, hi, ImageElement.shift]
      · simp [close, above, Place.above, Outcome.above, goTo, hm, hi]
    · exact absurd (if_pos hm) h

lemma enter_above (tag : StartTag) :
    (scan.above opened n).enter tag (n + start) (n + stop) =
      (scan.enter tag start stop).above opened n := by
  obtain ⟨place, images⟩ := scan
  cases place with
  | before own =>
      by_cases hs : localName tag.name = summaryName <;> by_cases he : tag.isEmpty <;>
        simp [enter, above, Place.above, Outcome.above, goTo, hs, he, found]
  | summary own =>
      by_cases hi : localName tag.name = imageName <;> by_cases he : tag.isEmpty <;>
        simp [enter, above, Place.above, Outcome.above, goTo, passImage, hi, he,
          ImageElement.shift]
  | image own inner start attributes =>
      by_cases he : tag.isEmpty <;> simp [enter, above, Place.above, Outcome.above, goTo, he]

/-- A token that is no error does behind a text what it does without it. An end tag that closes
nothing may close an element that the text has left open. -/
lemma step_above (opened : List Text) (n : Nat) {t : Token} {outcome : Outcome}
    (h : scan.step t start stop = outcome) (ho : outcome ≠ .malformed) :
    (scan.above opened n).step t (n + start) (n + stop) = outcome.above opened n := by
  subst h
  cases t with
  | close content => exact close_above ho
  | tag content => exact enter_above _
  | _ => rfl

end Scan

/-- A reading runs behind a text in which no summary begins as it runs alone. -/
lemma Leads.above {qs ts : List Token} {scan : Scan} (hq : Leads qs ⟨.before opened, []⟩)
    (h : Leads ts scan) :
    Leads (qs ++ ts) (scan.above opened (Utf8.length (text qs))) := by
  induction h with
  | start =>
      rw [List.append_nil]
      exact hq
  | @snoc ts t scan scan' _ ht hs ih =>
      rw [← List.append_assoc]
      refine ih.snoc ht ?_
      rw [List.append_assoc, text_append, Utf8.length_append, text_append qs, Utf8.length_append]
      exact Scan.step_above _ _ hs nofun

/-- The reading of a comment meets the end of the text with no summary begun. -/
def HasNoSummary (comment : Text) : Prop :=
  ∃ ts opened images, Reaches comment ts ⟨.before opened, images⟩ []

/-- The reading of a comment ends with its first summary: with its end tag, or with a summary that
is an empty tag. -/
def EndsWithSummary (comment : Text) : Prop :=
  ∃ ts scan s t rest images, Reaches comment ts scan s ∧ next? s = some (t, rest) ∧
    scan.step t (Utf8.length (text ts)) (Utf8.length (text (ts ++ [t]))) = .finished images

/-- Nothing has been found before a summary begins. -/
lemma Reaches.images_eq_nil {comment s : Text} {ts : List Token} {images : List ImageElement}
    (h : Reaches comment ts ⟨.before opened, images⟩ s) : images = [] := by
  have hc := h.covers
  exact hc.1

/-- What the scan of a comment finds, it finds in its surroundings behind the text before it. -/
lemma images?_within {before comment : Text} (hb : HasNoSummary before)
    (hc : EndsWithSummary comment) (behind : Text) :
    ∃ images, images? comment = some images ∧
      images? (before ++ comment ++ behind) =
        some (images.map (ImageElement.shift (Utf8.length before))) := by
  obtain ⟨qs, opened, found, hq⟩ := hb
  obtain ⟨ts, scan, s, t, rest, images, hr, hn, hs⟩ := hc
  obtain rfl := hq.images_eq_nil
  have hbefore : before = text qs := by simpa using hq.eq
  have hcomment : comment = text ts ++ (t.lexeme ++ rest) := by
    rw [← eq_lexeme_of_next? hn]
    exact hr.eq
  refine ⟨images, ?_, ?_⟩
  · rw [Reaches.length_snoc] at hs
    rw [hr.run_eq, Scan.run_of_next? hn, hs]
  · have hstep := Scan.step_above opened (Utf8.length (text qs)) hs nofun
    have hreach := (Leads.above hq.leads hr.leads).reaches (t.lexeme ++ (rest ++ behind))
    have hall : before ++ comment ++ behind =
        text (qs ++ ts) ++ (t.lexeme ++ (rest ++ behind)) := by
      rw [hbefore, hcomment]
      simp
    rw [hall, hreach.run_eq, Scan.run_of_next? (isReadable_of_next? hn _)]
    rw [Reaches.length_snoc, ← Nat.add_assoc] at hstep
    rw [text_append, Utf8.length_append, hstep, hbefore]
    rfl

end Summary

namespace Piece

/-- The images among some pieces behind a text. -/
lemma imagesFrom_shift (n pos : Nat) (ps : List Piece) :
    imagesFrom (n + pos) ps = (imagesFrom pos ps).map (ImageElement.shift n) := by
  induction ps generalizing pos with
  | nil => rfl
  | cons p ps ih =>
      cases p with
      | kept t => rw [imagesFrom, imagesFrom, Nat.add_assoc, ih]
      | image content more =>
          rw [imagesFrom, imagesFrom, List.map_cons, Nat.add_assoc, ih]
          rfl

end Piece

/-- Where the images stand does not matter for what the first one asks for. -/
lemma requested?_shift (n : Nat) (images : List ImageElement) :
    requested? (images.map (ImageElement.shift n)) = requested? images := by
  cases images <;> rfl

/-- **Extraction depends on the first summary only.** Put before a comment whose reading ends with
its first summary any text in which no summary begins, which may leave elements open, and behind it
any text at all: the same image is asked for, and the texts before and behind stay as they are. -/
theorem extract_within (before comment behind : Text) (hb : Summary.HasNoSummary before)
    (hc : Summary.EndsWithSummary comment) (hmb : before.head? ≠ some byteOrderMark)
    (hmc : comment.head? ≠ some byteOrderMark) :
    ∃ e, extract comment = .ok e ∧
      extract (before ++ comment ++ behind) = .ok ⟨e.tag, before ++ e.sanitized ++ behind⟩ := by
  obtain ⟨images, hi, hw⟩ := Summary.images?_within hb hc behind
  obtain ⟨ps, rest, hps, rfl, -⟩ := Summary.exists_pieces_of_images? hi
  have hhead : (before ++ comment ++ behind).head? ≠ some byteOrderMark := by
    have hne : comment ≠ [] := by
      obtain ⟨ts, scan, s, t, rest', images, hr, hn, -⟩ := hc
      rw [hr.eq, eq_lexeme_of_next? hn]
      have := t.lexeme_length_pos
      intro h
      simp only [List.append_eq_nil_iff] at h
      rw [h.2.1] at this
      exact absurd this (by simp)
    rw [List.append_assoc, List.head?_append, List.head?_append]
    cases before with
    | nil => simpa [hne] using hmc
    | cons c before => exact hmb
  have hpieces : before ++ comment ++ behind =
      written (.kept before :: ps) ++ (rest ++ behind) := by
    rw [hps, Piece.written_cons]
    simp [Piece.text]
  have himages : Summary.images? (before ++ comment ++ behind) =
      some (imagesFrom 0 (.kept before :: ps)) := by
    rw [hw, imagesFrom, ← Piece.imagesFrom_shift, Nat.add_zero, Nat.zero_add]
  have hrequested : requested? (imagesFrom 0 (.kept before :: ps)) =
      requested? (imagesFrom 0 ps) := by
    rw [imagesFrom, Nat.zero_add, ← Nat.add_zero (Utf8.length before), Piece.imagesFrom_shift,
      requested?_shift]
  refine ⟨_, extract_of_pieces hmc hps hi, ?_⟩
  rw [extract_of_pieces hhead hpieces himages, hrequested]
  cases requested? (imagesFrom 0 ps) with
  | none => rfl
  | some tag => simp [Piece.left]

/-- A comment with markup after its summary, behind a text that leaves elements open and before one
that is malformed and holds a summary of its own. -/
theorem extract_within_open_elements :
    Summary.HasNoSummary "é<a><b>".toList ∧
      Summary.EndsWithSummary "<c/><summary>x<img src='s'/></summary></c>".toList ∧
      "é<a><b>".toList.head? ≠ some byteOrderMark ∧
      "<c/><summary>x<img src='s'/></summary></c>".toList.head? ≠ some byteOrderMark ∧
      extract ("é<a><b>".toList ++ "<c/><summary>x<img src='s'/></summary></c>".toList ++
          "<summary><img src='t'/></a".toList) =
        .ok ⟨some ⟨['s'], {}⟩, "é<a><b>".toList ++ "<c/><summary>x</summary></c>".toList ++
          "<summary><img src='t'/></a".toList⟩ := by
  have hb : Summary.HasNoSummary "é<a><b>".toList :=
    ⟨_, _, _, .snoc (.snoc (.snoc .start rfl rfl) rfl rfl) rfl rfl⟩
  have hc : Summary.EndsWithSummary "<c/><summary>x<img src='s'/></summary></c>".toList :=
    ⟨_, _, _, _, _, _, .snoc (.snoc (.snoc (.snoc .start rfl rfl) rfl rfl) rfl rfl) rfl rfl,
      rfl, rfl⟩
  have hx : extract "<c/><summary>x<img src='s'/></summary></c>".toList =
      .ok ⟨some ⟨['s'], {}⟩, "<c/><summary>x</summary></c>".toList⟩ := by cbv
  have hmb : "é<a><b>".toList.head? ≠ some byteOrderMark := by decide
  have hmc : "<c/><summary>x<img src='s'/></summary></c>".toList.head? ≠ some byteOrderMark := by
    decide
  obtain ⟨e, he, hw⟩ := extract_within _ _ "<summary><img src='t'/></a".toList hb hc hmb hmc
  rw [hx] at he
  cases he
  exact ⟨hb, hc, hmb, hmc, hw⟩

end DocImage
