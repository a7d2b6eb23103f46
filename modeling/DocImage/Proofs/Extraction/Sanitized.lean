import Mathlib
import DocImage.Proofs.Extraction.Course
import DocImage.Proofs.Extraction.Found
import DocImage.Proofs.Presentation.Rendered

/-!
What extraction leaves of a comment holds no image any more. `Spares` is what is known of a reading
in the summary: without the image elements its tokens lead to the same place, with no image found.
`Spared` is the invariant of the reading made from it, and `Leads.spared` says that every reading
has it.

* `images?_sanitized`: the scan of what is left reads on to the end of its summary and finds
  nothing. Its tokens are tokens of the comment, so cutting makes no new markup.
* `extract_sanitized`: extraction leaves alone what it has left, and nothing that is handed to a
  renderer asks for an image.
-/

namespace DocImage

open Markup Token
open Piece (written remaining imagesFrom imagesFrom_append)

universe u

namespace Summary

/-! ### Tokens of the summary outside of images -/

section Step

variable {opened opened' : List Text} {images found : List ImageElement} {t : Token}
  {start stop : Nat}

/-- A token of the summary that belongs to no image does the same whatever has been found, and
wherever it stands. -/
lemma Scan.step_within
    (h : Scan.step ⟨.summary opened, images⟩ t start stop = .more ⟨.summary opened', images⟩)
    (images' : List ImageElement) (start' stop' : Nat) :
    Scan.step ⟨.summary opened, images'⟩ t start' stop' = .more ⟨.summary opened', images'⟩ := by
  cases t with
  | close content =>
      cases opened with
      | nil => cases h
      | cons n opened =>
          simp only [Scan.step, Scan.close] at h ⊢
          split_ifs at h ⊢ with hn ho
          cases h
          rfl
  | tag content =>
      simp only [Scan.step, Scan.enter] at h ⊢
      split_ifs at h ⊢ with hi he he
      · -- an image would have been added to those found
        simp [Scan.passImage] at h
      · cases h
      · cases h; rfl
      · cases h; rfl
  | _ => cases h; rfl

/-- The end of the summary is the same whatever has been found. -/
lemma Scan.step_atEnd
    (h : Scan.step ⟨.summary opened, images⟩ t start stop = .finished found)
    (images' : List ImageElement) (start' stop' : Nat) :
    Scan.step ⟨.summary opened, images'⟩ t start' stop' = .finished images'.reverse := by
  cases t with
  | close content =>
      cases opened with
      | nil => cases h
      | cons n opened =>
          simp only [Scan.step, Scan.close] at h ⊢
          split_ifs at h ⊢ with hn ho
          · rfl
          · cases h
  | tag content =>
      simp only [Scan.step, Scan.enter] at h
      split_ifs at h <;> cases h
  | _ => cases h

end Step

/-! ### Readings without the images -/

/-- The tokens `kept` are those of `ts` outside of the images that have been found: they write what
remains of the comment, and they lead to the same place in the summary with no image found. -/
structure Spares (ts : List Token) (opened : List Text) (images : List ImageElement)
    (ps : List Piece) (kept : List Token) : Prop where
  written : Piece.written ps = text ts
  found : images.reverse = imagesFrom 0 ps
  remaining : Piece.remaining ps = text kept
  sublist : kept.Sublist ts
  /-- The beginning up to the summary is kept. -/
  begins : ∃ lead, lead ≠ [] ∧ lead <+: kept ∧ lead <+: ts
  leads : Leads kept ⟨.summary opened, []⟩

namespace Spares

variable {ts kept : List Token} {opened opened' : List Text} {images : List ImageElement}
  {ps : List Piece}

/-- A token outside of images is kept. -/
lemma keep {t : Token} {start stop : Nat} (h : Spares ts opened images ps kept)
    (ht : t.IsReadable)
    (hs : Scan.step ⟨.summary opened, images⟩ t start stop = .more ⟨.summary opened', images⟩) :
    Spares (ts ++ [t]) opened' images (ps ++ [.kept t.lexeme]) (kept ++ [t]) := by
  obtain ⟨lead, hne, hk, hts⟩ := h.begins
  refine ⟨?_, ?_, ?_, h.sublist.append_right [t],
    ⟨lead, hne, hk.trans (List.prefix_append _ _), hts.trans (List.prefix_append _ _)⟩,
    h.leads.snoc ht (Scan.step_within hs _ _ _)⟩
  · simp [h.written, Piece.text]
  · rw [imagesFrom_append, h.found]
    simp [imagesFrom]
  · simp [h.remaining, Piece.left]

/-- An image element is left out. -/
lemma drop (h : Spares ts opened images ps kept) (content : Text) (more : List Token) :
    Spares (ts ++ .tag content :: more) opened
      (⟨⟨Utf8.length (text ts), Utf8.length (text (ts ++ .tag content :: more))⟩,
        (StartTag.ofContent content).attributes⟩ :: images)
      (ps ++ [.image content (text more)]) kept := by
  obtain ⟨lead, hne, hk, hts⟩ := h.begins
  refine ⟨?_, ?_, ?_, h.sublist.trans (List.sublist_append_left _ _),
    ⟨lead, hne, hk, hts.trans (List.prefix_append _ _)⟩, h.leads⟩
  · simp [h.written, Piece.text]
  · rw [imagesFrom_append, List.reverse_cons, h.found, h.written, text_append, Utf8.length_append,
      Nat.zero_add]
    rfl
  · simp [h.remaining, Piece.left]

end Spares

/-- What is known of a reading after some tokens. -/
def Spared (ts : List Token) (scan : Scan) : Prop :=
  match scan.place with
  | .before _ => scan.images = []
  | .summary opened => ∃ ps kept, Spares ts opened scan.images ps kept
  | .image opened _ start attributes =>
    ∃ before content more ps kept, ts = before ++ .tag content :: more ∧
      start = Utf8.length (text before) ∧ attributes = (StartTag.ofContent content).attributes ∧
      Spares before opened scan.images ps kept

/-- Every token keeps the invariant. -/
lemma Spared.step {ts : List Token} {t : Token} {scan scan' : Scan} (h : Spared ts scan)
    (hl : Leads ts scan) (ht : t.IsReadable)
    (hs : scan.step t (Utf8.length (text ts)) (Utf8.length (text (ts ++ [t]))) = .more scan') :
    Spared (ts ++ [t]) scan' := by
  have hl' := hl.snoc ht hs
  obtain ⟨place, images⟩ := scan
  cases Scan.moves_of_step hs with
  | before opened' hp _ =>
      rw [Spared, hp] at h
      exact h
  | @enters opened content hp htag _ _ =>
      rw [Spared, hp] at h
      obtain rfl : images = [] := h
      refine ⟨[.kept (text (ts ++ [t]))], ts ++ [t], ?_, rfl, ?_, List.Sublist.refl _,
        ⟨ts ++ [t], by simp, List.prefix_rfl, List.prefix_rfl⟩, hl'⟩
      · simp [Piece.text]
      · simp [Piece.left]
  | within opened' hp =>
      obtain rfl : place = .summary _ := hp
      obtain ⟨ps, kept, hk⟩ := h
      exact ⟨_, _, hk.keep ht hs⟩
  | @passes opened content hp htag _ =>
      rw [Spared, hp] at h
      obtain ⟨ps, kept, hk⟩ := h
      subst htag
      exact ⟨_, _, hk.drop content []⟩
  | @opens opened content hp htag _ =>
      rw [Spared, hp] at h
      obtain ⟨ps, kept, hk⟩ := h
      subst htag
      exact ⟨ts, content, [], ps, kept, rfl, rfl, rfl, hk⟩
  | inside inner' hp =>
      rw [Spared, hp] at h
      obtain ⟨before, content, more, ps, kept, rfl, hst, ha, hk⟩ := h
      exact ⟨before, content, more ++ [t], ps, kept, by simp, hst, ha, hk⟩
  | closes hp htag =>
      rw [Spared, hp] at h
      obtain ⟨before, content, more, ps, kept, rfl, rfl, rfl, hk⟩ := h
      rw [List.append_assoc, List.cons_append]
      exact ⟨_, _, hk.drop content (more ++ [t])⟩

/-- The invariant holds of every reading. -/
lemma Leads.spared {ts : List Token} {scan : Scan} (h : Leads ts scan) : Spared ts scan := by
  induction h with
  | start => rfl
  | snoc hl ht hs ih => exact ih.step hl ht hs

/-- A scan that finds images leaves a comment whose scan succeeds and finds none. What is left is
written by tokens of the comment, and begins as it does. -/
lemma images?_sanitized {comment : Text} {images : List ImageElement}
    (h : images? comment = some images) (hne : images ≠ []) :
    ∃ ts ps kept rest, comment = written ps ++ rest ∧ images = imagesFrom 0 ps ∧
      Reads comment ts rest ∧ Reads (remaining ps ++ rest) kept rest ∧ kept.Sublist ts ∧
      (remaining ps ++ rest).head? = comment.head? ∧ images? (remaining ps ++ rest) = some [] := by
  obtain ⟨ts, ⟨place, images⟩, rest, hr, rfl, ho⟩ := exists_reaches_of_images? h
  have hs := hr.leads.spared
  cases place with
  | before opened =>
      obtain rfl : images = [] := hs
      exact absurd rfl hne
  | image opened inner start attributes => exact absurd rfl (ho.place_ne _ _ _ _)
  | summary opened =>
      obtain ⟨ps, kept, hk⟩ := hs
      have hreach := hk.leads.reaches rest
      have hhead : (text kept ++ rest).head? = (text ts ++ rest).head? := by
        obtain ⟨lead, hnil, ⟨k, rfl⟩, l, rfl⟩ := hk.begins
        obtain ⟨t, lead, rfl⟩ := List.exists_cons_of_ne_nil hnil
        have ht : t.lexeme ≠ [] := List.ne_nil_of_length_pos t.lexeme_length_pos
        simp only [List.cons_append, text_cons, List.append_assoc]
        rw [List.head?_append_of_ne_nil _ ht, List.head?_append_of_ne_nil _ ht]
      have hnone : images? (text kept ++ rest) = some [] := by
        rw [hreach.run_eq]
        cases ho with
        | atEnd hrest _ => rw [hrest, Scan.run_nil]; rfl
        | atSummary start stop hn hfin => rw [Scan.run_of_next? hn, Scan.step_atEnd hfin]; rfl
      rw [← hr.eq] at hhead
      rw [← hk.remaining] at hreach hhead hnone
      have hc : comment = written ps ++ rest := by
        rw [hk.written]
        exact hr.eq
      exact ⟨ts, ps, kept, rest, hc, hk.found, hr.reads, hreach.reads, hk.sublist, hhead, hnone⟩

end Summary

/-- A comment whose scan finds nothing stays as it is. -/
lemma extract_of_images?_eq_nil {comment : Text} (hm : comment.head? ≠ some byteOrderMark)
    (h : Summary.images? comment = some []) : extract comment = .ok ⟨none, comment⟩ := by
  rw [extract, withoutMark_eq_self hm, h]
  rfl

/-- An image that is asked for is cut out for good. -/
lemma extract_of_tag {comment : Text} {tag : ImageTag} {sanitized : Text}
    (hm : comment.head? ≠ some byteOrderMark)
    (h : extract comment = .ok ⟨some tag, sanitized⟩) :
    ∃ ts kept rest, Reads comment ts rest ∧ Reads sanitized kept rest ∧ kept.Sublist ts ∧
      sanitized.head? ≠ some byteOrderMark ∧ Summary.images? sanitized = some [] := by
  cases hi : Summary.images? comment with
  | none =>
      rw [extract, withoutMark_eq_self hm, hi] at h
      cases h
  | some images =>
      have hne : images ≠ [] := by
        rintro rfl
        rw [extract_of_images?_eq_nil hm hi] at h
        cases h
      obtain ⟨ts, ps, kept, rest, hc, rfl, hts, hkept, hsub, hhead, hnone⟩ :=
        Summary.images?_sanitized hi hne
      rw [extract_of_pieces hm hc hi] at h
      cases hr : requested? (imagesFrom 0 ps) with
      | none => rw [hr] at h; cases h
      | some tag' =>
          rw [hr] at h
          cases h
          exact ⟨ts, kept, rest, hts, hkept, hsub, hhead ▸ hm, hnone⟩

/-- **What extraction leaves holds no image any more.** Extraction leaves alone what it has left of
a comment, and finds no image there. If an image has been cut out, what is left is scanned without
an error up to the end of its summary, and is written by tokens of the comment, so that no markup
comes about where pieces are joined. A renderer is never handed a text that asks for an image. -/
theorem extract_sanitized {m : Type → Type u} [Monad m] [LawfulMonad m] (comment : Text)
    (hm : comment.head? ≠ some byteOrderMark) :
    ∃ e, extract comment = .ok e ∧
      extract e.sanitized = .ok ⟨none, e.sanitized⟩ ∧ hasImage e.sanitized = .ok false ∧
      (e.tag ≠ none → Summary.images? e.sanitized = some [] ∧
        ∃ ts kept rest, Reads comment ts rest ∧ Reads e.sanitized kept rest ∧ kept.Sublist ts) ∧
      ∀ (settings : Settings) (tree : FileTree) (cache : AddressCache) (roots : List Path)
        (docs : Documentation) (render : Text → m Text), docs.first? = some comment →
        ∃ fragment block cache',
          present settings tree cache roots docs render = .ok (do
            let html ← render fragment
            return (some (html ++ block), cache')) ∧
          hasImage fragment = .ok false := by
  obtain ⟨e, he, hn⟩ := exists_extract_eq_ok hm
  have hleft : extract e.sanitized = .ok ⟨none, e.sanitized⟩ ∧ (e.tag ≠ none →
      Summary.images? e.sanitized = some [] ∧
        ∃ ts kept rest, Reads comment ts rest ∧ Reads e.sanitized kept rest ∧ kept.Sublist ts) := by
    obtain ⟨tag, sanitized⟩ := e
    cases tag with
    | none =>
        obtain rfl : sanitized = comment := hn rfl
        exact ⟨he, fun h => absurd rfl h⟩
    | some tag =>
        obtain ⟨ts, kept, rest, hts, hkept, hsub, hhead, hnone⟩ := extract_of_tag hm he
        exact ⟨extract_of_images?_eq_nil hhead hnone,
          fun _ => ⟨hnone, ts, kept, rest, hts, hkept, hsub⟩⟩
  have hhas : hasImage e.sanitized = .ok false := by
    rw [hasImage, hleft.1]
    rfl
  refine ⟨e, he, hleft.1, hhas, hleft.2, fun settings tree cache roots docs render hd => ?_⟩
  exact ⟨e.sanitized, _, _, present_eq_of_plan (plan_eq hd he), hhas⟩

/-- Two images, one that holds an element and a `<` in quotes, behind a reference and beside a `;`,
with malformed markup behind the summary. -/
theorem extract_sanitized_beside_reference :
    "<summary>&amp;<img src='<'>x<b/></img>;<img/></summary><i <".toList.head? ≠
        some byteOrderMark ∧
      extract "<summary>&amp;<img src='<'>x<b/></img>;<img/></summary><i <".toList =
        .ok ⟨some ⟨['<'], {}⟩, "<summary>&amp;;</summary><i <".toList⟩ ∧
      extract "<summary>&amp;;</summary><i <".toList =
        .ok ⟨none, "<summary>&amp;;</summary><i <".toList⟩ := by
  have hx : extract "<summary>&amp;<img src='<'>x<b/></img>;<img/></summary><i <".toList =
      .ok ⟨some ⟨['<'], {}⟩, "<summary>&amp;;</summary><i <".toList⟩ := by cbv
  have hm : "<summary>&amp;<img src='<'>x<b/></img>;<img/></summary><i <".toList.head? ≠
      some byteOrderMark := by decide
  obtain ⟨e, he, hleft, -⟩ := extract_sanitized (m := Id) _ hm
  rw [hx] at he
  cases he
  exact ⟨hm, hx, hleft⟩

end DocImage
