import DocImage.Proofs.Extraction.Found

/-!
Extraction from any comment at all: it never fails, and it either leaves the comment as it is or
takes out images of the first summary and nothing else (`extract_intact_or_cut`). What is taken out
is said in bytes: `outside` deletes the bytes in some spans, and the spans of the images follow each
other, lie between characters, and each holds an image (`Span.HoldsImage`).
-/

namespace DocImage

open Markup Token
open Piece (written remaining imagesFrom)

/-! ### Deleting spans of bytes -/

/-- `outside` for bytes that stand at the positions from `pos` on. -/
def outsideFrom (pos : Nat) (spans : List Span) (bytes : Bytes) : Bytes :=
  ((bytes.zipIdx pos).filter fun b =>
    spans.all fun span => b.2 < span.start || span.stop ≤ b.2).map Prod.fst

/-- The bytes at the positions that lie in none of some spans, in their order. -/
def outside (spans : List Span) (bytes : Bytes) : Bytes :=
  outsideFrom 0 spans bytes

lemma outsideFrom_append (pos : Nat) (spans : List Span) (x y : Bytes) :
    outsideFrom pos spans (x ++ y) =
      outsideFrom pos spans x ++ outsideFrom (pos + x.length) spans y := by
  rw [outsideFrom, List.zipIdx_append, List.filter_append, List.map_append, outsideFrom,
    outsideFrom, Nat.add_comm]

/-- Bytes that no span reaches are kept. -/
lemma outsideFrom_eq_self {pos : Nat} {spans : List Span} {bytes : Bytes}
    (h : ∀ span ∈ spans, pos + bytes.length ≤ span.start) :
    outsideFrom pos spans bytes = bytes := by
  rw [outsideFrom, List.filter_eq_self.mpr, List.zipIdx_map_fst]
  intro b hb
  have hlt := List.snd_lt_add_of_mem_zipIdx hb
  refine List.all_eq_true.mpr fun span hs => ?_
  have := h span hs
  simp only [Bool.or_eq_true, decide_eq_true_eq]
  omega

/-- Bytes that fill a span are deleted, and behind them the span no longer counts. -/
lemma outsideFrom_cons_append (pos : Nat) (spans : List Span) (x y : Bytes) :
    outsideFrom pos (⟨pos, pos + x.length⟩ :: spans) (x ++ y) =
      outsideFrom (pos + x.length) spans y := by
  have hx : outsideFrom pos (⟨pos, pos + x.length⟩ :: spans) x = [] := by
    rw [outsideFrom, List.filter_eq_nil_iff.mpr, List.map_nil]
    intro b hb
    have hlt := List.snd_lt_add_of_mem_zipIdx hb
    have hle := List.le_snd_of_mem_zipIdx hb
    simp only [List.all_cons, Bool.and_eq_true, Bool.or_eq_true, decide_eq_true_eq, not_and]
    omega
  have hy : ∀ b ∈ y.zipIdx (pos + x.length),
      (⟨pos, pos + x.length⟩ :: spans).all (fun span => b.2 < span.start || span.stop ≤ b.2) =
        spans.all fun span => b.2 < span.start || span.stop ≤ b.2 := by
    intro b hb
    have hle := List.le_snd_of_mem_zipIdx hb
    simp [hle]
  rw [outsideFrom_append, hx, List.nil_append, outsideFrom, outsideFrom, List.filter_congr hy]

/-! ### The spans of the images -/

lemma Piece.length_text_image_pos (content more : Text) :
    0 < Utf8.length (Piece.image content more).text := by
  rw [Piece.text, lexeme, List.cons_append, Utf8.length_cons]
  have := ('<').utf8Size_pos
  omega

lemma le_start_of_mem_imagesFrom {pos : Nat} {ps : List Piece} :
    ∀ image ∈ imagesFrom pos ps, pos ≤ image.span.start := by
  induction ps generalizing pos with
  | nil => simp [imagesFrom]
  | cons p ps ih =>
      intro image hi
      cases p with
      | kept t =>
          have := ih image hi
          omega
      | image content more =>
          rw [imagesFrom, List.mem_cons] at hi
          rcases hi with rfl | hi
          · exact le_refl pos
          · have := ih image hi
            omega

/-- The images found follow each other. -/
lemma pairwise_imagesFrom (pos : Nat) (ps : List Piece) :
    (imagesFrom pos ps).Pairwise fun a b => a.span.stop ≤ b.span.start := by
  induction ps generalizing pos with
  | nil => exact List.Pairwise.nil
  | cons p ps ih =>
      cases p with
      | kept t => exact ih _
      | image content more => exact (ih _).cons le_start_of_mem_imagesFrom

/-- What is left without the images are the bytes outside of their spans. -/
lemma outsideFrom_imagesFrom (pos : Nat) (ps : List Piece) (rest : Text) :
    outsideFrom pos ((imagesFrom pos ps).map ImageElement.span) (Utf8.encode (written ps ++ rest)) =
      Utf8.encode (remaining ps ++ rest) := by
  induction ps generalizing pos with
  | nil => exact outsideFrom_eq_self (by simp [imagesFrom])
  | cons p ps ih =>
      rw [Piece.written_cons, List.append_assoc, Utf8.encode_append p.text, Piece.remaining_cons,
        List.append_assoc, Utf8.encode_append p.left]
      cases p with
      | kept t =>
          rw [outsideFrom_append, outsideFrom_eq_self]
          · exact congrArg _ (ih _)
          · intro span hs
            obtain ⟨image, hi, rfl⟩ := List.mem_map.mp hs
            exact le_start_of_mem_imagesFrom image hi
      | image content more =>
          rw [imagesFrom, List.map_cons]
          exact (outsideFrom_cons_append _ _ _ _).trans (ih _)

lemma length_remaining_lt {pos : Nat} {ps : List Piece} (h : imagesFrom pos ps ≠ []) :
    Utf8.length (remaining ps) < Utf8.length (written ps) := by
  have hle : ∀ qs : List Piece, Utf8.length (remaining qs) ≤ Utf8.length (written qs) := by
    intro qs
    induction qs with
    | nil => exact le_refl _
    | cons q qs ih =>
        rw [Piece.written_cons, Piece.remaining_cons, Utf8.length_append, Utf8.length_append]
        cases q <;> simp only [Piece.left, Piece.text, Utf8.length_nil] <;> omega
  induction ps generalizing pos with
  | nil => exact absurd rfl h
  | cons p ps ih =>
      rw [Piece.written_cons, Piece.remaining_cons, Utf8.length_append, Utf8.length_append]
      cases p with
      | kept t =>
          have := ih h
          simp only [Piece.left, Piece.text]
          omega
      | image content more =>
          have h1 := Piece.length_text_image_pos content more
          have h2 := hle ps
          simp only [Piece.left, Utf8.length_nil]
          omega

/-! ### Extraction -/

/-- A byte position between two characters of a text, or at one of its ends. -/
def IsBoundary (s : Text) (n : Nat) : Prop :=
  ∃ p, p <+: s ∧ Utf8.length p = n

namespace Span.HoldsImage

variable {span : Span} {comment : Text}

lemma start_lt_stop (h : span.HoldsImage comment) : span.start < span.stop := by
  obtain ⟨ts, content, more, rest, -, -, -, rfl, -⟩ := h
  have := Piece.length_text_image_pos content more
  simp only
  omega

lemma isBoundary_start (h : span.HoldsImage comment) : IsBoundary comment span.start := by
  obtain ⟨ts, content, more, rest, hr, -, -, rfl, -⟩ := h
  exact ⟨text ts, ⟨_, hr.eq.symm⟩, rfl⟩

lemma isBoundary_stop (h : span.HoldsImage comment) : IsBoundary comment span.stop := by
  obtain ⟨ts, content, more, rest, hr, -, -, rfl, -⟩ := h
  exact ⟨text ts ++ (Piece.image content more).text,
    ⟨rest, by rw [List.append_assoc]; exact hr.eq.symm⟩, Utf8.length_append _ _⟩

end Span.HoldsImage

lemma IsBoundary.le_length {s : Text} {n : Nat} (h : IsBoundary s n) : n ≤ Utf8.length s := by
  obtain ⟨p, ⟨t, rfl⟩, rfl⟩ := h
  rw [Utf8.length_append]
  omega

/-- The reading of a comment meets an error before the end of its first summary. -/
def Summary.MeetsError (comment : Text) : Prop :=
  ∃ ts scan s, Reaches comment ts scan s ∧ scan.Fault s

/-- **Extraction is safe, and all or nothing.** Whatever a comment holds, unless it begins with a
byte-order mark, it is taken apart. Either there is no image tag and the comment stays as it is, as
always when the reading meets an error before the end of the first summary; or there is one with a
trimmed address, and the comment has lost at least one span. The spans follow each other, lie
between characters, and each holds an image of the first summary; all other bytes stay. -/
theorem extract_intact_or_cut (comment : Text) (hm : comment.head? ≠ some byteOrderMark) :
    ∃ e, extract comment = .ok e ∧
      (Summary.MeetsError comment → e.tag = none) ∧
      (e.tag = none ∧ e.sanitized = comment ∨
        ∃ tag spans, e.tag = some tag ∧ tag.src ≠ [] ∧ trim tag.src = tag.src ∧
          spans ≠ [] ∧ spans.Pairwise (fun a b => a.stop ≤ b.start) ∧
          (∀ span ∈ spans, span.HoldsImage comment ∧ span.start < span.stop ∧
            span.stop ≤ Utf8.length comment ∧
            IsBoundary comment span.start ∧ IsBoundary comment span.stop) ∧
          Utf8.encode e.sanitized = outside spans (Utf8.encode comment) ∧
          Utf8.length e.sanitized < Utf8.length comment) := by
  obtain hx | ⟨ps, rest, tag, hc, hi, hr, hh, hx⟩ := extract_cases hm
  · exact ⟨_, hx, fun _ => rfl, .inl ⟨rfl, rfl⟩⟩
  have hne : ¬ Summary.MeetsError comment := fun he => by
    rw [Summary.images?_eq_none_iff.mpr he] at hi
    cases hi
  obtain ⟨image, hhead, htag⟩ := Option.bind_eq_some_iff.mp hr
  obtain ⟨v, -, hv, rfl⟩ := ImageTag.ofAttributes?_eq_some_iff.mp htag
  have hspans : imagesFrom 0 ps ≠ [] := fun h => by
    rw [h] at hhead
    cases hhead
  refine ⟨_, hx, fun he => absurd he hne, .inr ⟨_, (imagesFrom 0 ps).map ImageElement.span,
    rfl, hv, trim_trim v, by simpa using hspans, ?_, ?_, ?_, ?_⟩⟩
  · exact List.pairwise_map.mpr (pairwise_imagesFrom 0 ps)
  · intro span hs
    obtain ⟨image, hi, rfl⟩ := List.mem_map.mp hs
    have h := hh image hi
    exact ⟨h, h.start_lt_stop, h.isBoundary_stop.le_length, h.isBoundary_start,
      h.isBoundary_stop⟩
  · conv_rhs => rw [hc]
    exact (outsideFrom_imagesFrom 0 ps rest).symm
  · have := length_remaining_lt hspans
    conv_rhs => rw [hc]
    simp only [Utf8.length_append]
    omega

/-- A comment that loses two spans, behind and before characters of two bytes. -/
theorem extract_intact_or_cut_twice :
    "<summary>é<img src=' a '>x</img>, <img/>ü</summary>".toList.head? ≠ some byteOrderMark ∧
      ∃ e spans,
        extract "<summary>é<img src=' a '>x</img>, <img/>ü</summary>".toList = .ok e ∧
        e = ⟨some ⟨['a'], {}⟩, "<summary>é, ü</summary>".toList⟩ ∧ spans ≠ [] ∧
        Utf8.encode e.sanitized = outside spans
          (Utf8.encode "<summary>é<img src=' a '>x</img>, <img/>ü</summary>".toList) := by
  have hx : extract "<summary>é<img src=' a '>x</img>, <img/>ü</summary>".toList =
      .ok ⟨some ⟨['a'], {}⟩, "<summary>é, ü</summary>".toList⟩ := by cbv
  refine ⟨by decide, ?_⟩
  obtain ⟨e, he, -, ⟨hn, -⟩ | ⟨tag, spans, -, -, -, hs, -, -, hb, -⟩⟩ :=
    extract_intact_or_cut "<summary>é<img src=' a '>x</img>, <img/>ü</summary>".toList (by decide)
  · rw [hx] at he
    obtain rfl := Except.ok.inj he
    cases hn
  · rw [hx] at he
    obtain rfl := Except.ok.inj he
    exact ⟨_, spans, hx, rfl, hs, hb⟩

end DocImage
