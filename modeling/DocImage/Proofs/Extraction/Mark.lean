import Mathlib.Tactic
import DocImage.Files.Error
import DocImage.Proofs.Extraction.Spans
import DocImage.Proofs.Extraction.Surroundings

/-!
A byte-order mark in front of a comment. The reading of the comment does not see the mark, but the
positions at which images are cut out do not count it, so every cut ends three bytes early.

* `perm_of_removeFrom`: what is left and what has been cut out are all the bytes there were.
* `markupStart_of_le`: a cut begins at a `<`, at the latest at the one of its image.
* `extract_mark_eq_iff`: extraction behind a mark gives the same image, and the same text only if
  there is no image. This leaves aside images with a `<` among their last three bytes, which an
  early cut may happen to replace by the same text.
-/

namespace DocImage

open Markup
open Piece (written remaining imagesFrom)

/-! ### What is cut out -/

lemma cutFrom_eq_ok {passed s kept rest : Text} {n : Nat}
    (h : cutFrom passed n s = .ok (kept, rest)) :
    ∃ read, s = read ++ rest ∧ kept = passed.reverse ++ read ∧ Utf8.length read = n := by
  fun_induction cutFrom passed n s with
  | case1 passed s =>
      cases h
      exact ⟨[], rfl, by simp, rfl⟩
  | case2 => cases h
  | case3 passed n c s hc ih =>
      obtain ⟨read, rfl, rfl, hn⟩ := ih h
      refine ⟨c :: read, rfl, by simp, ?_⟩
      rw [Utf8.length_cons, hn]
      omega
  | case4 => cases h

/-- A cut loses nothing and has the length asked for. -/
lemma eq_of_cutAt {s kept rest : Text} {n : Nat} (h : cutAt n s = .ok (kept, rest)) :
    s = kept ++ rest ∧ Utf8.length kept = n := by
  obtain ⟨read, rfl, rfl, hn⟩ := cutFrom_eq_ok h
  exact ⟨rfl, hn⟩

/-- The first stretch is cut out between what is kept before it and what is left behind it. -/
lemma removeFrom_cons_eq_ok {pos : Nat} {span : Span} {spans : List Span} {s left : Text}
    (h : removeFrom pos (span :: spans) s = .ok left) :
    ∃ kept element rest left', s = kept ++ (element ++ rest) ∧ left = kept ++ left' ∧
      span.start = pos + Utf8.length kept ∧ span.stop = span.start + Utf8.length element ∧
      removeFrom span.stop spans rest = .ok left' := by
  rw [removeFrom] at h
  split at h
  · cases h
  · next hord =>
      obtain ⟨⟨kept, s'⟩, hk, h⟩ := Except.bind_eq_ok_iff.mp h
      obtain ⟨⟨element, rest⟩, he, h⟩ := Except.bind_eq_ok_iff.mp h
      obtain ⟨left', hl, hleft⟩ := Except.bind_eq_ok_iff.mp h
      obtain ⟨rfl, hkept⟩ := eq_of_cutAt hk
      obtain ⟨rfl, helement⟩ := eq_of_cutAt he
      exact ⟨kept, element, rest, left', rfl, (Except.ok.inj hleft).symm, by omega, by omega, hl⟩

/-- The bytes in a span. -/
def Span.bytes (span : Span) (bytes : Bytes) : Bytes :=
  bytes.extract span.start span.stop

/-- What is left and what has been cut out are all the bytes there were. -/
lemma perm_of_removeFrom {spans : List Span} (passed : Bytes) {s left : Text}
    (h : removeFrom passed.length spans s = .ok left) :
    (Utf8.encode s).Perm
        (Utf8.encode left ++ spans.flatMap fun span => span.bytes (passed ++ Utf8.encode s)) ∧
      ∀ span ∈ spans, span.start ≤ span.stop := by
  induction spans generalizing passed s left with
  | nil =>
      cases h
      simp
  | cons span spans ih =>
      obtain ⟨kept, element, rest, left', rfl, rfl, hstart, hstop, hr⟩ := removeFrom_cons_eq_ok h
      have hpassed : (passed ++ (Utf8.encode kept ++ Utf8.encode element)).length = span.stop := by
        rw [hstop, hstart]
        simp [Utf8.length, Nat.add_assoc]
      rw [← hpassed] at hr
      obtain ⟨hp, hle⟩ := ih _ hr
      have hbytes : span.bytes (passed ++ Utf8.encode (kept ++ (element ++ rest))) =
          Utf8.encode element := by
        rw [Span.bytes, hstop, hstart, List.extract_eq_take_drop, Utf8.encode_append,
          Utf8.encode_append, ← List.append_assoc, Nat.add_sub_cancel_left,
          List.drop_left' (by simp [Utf8.length]), List.take_left' (by rfl)]
      refine ⟨?_, ?_⟩
      · rw [List.flatMap_cons, hbytes]
        simp only [Utf8.encode_append, List.append_assoc] at hp ⊢
        exact ((hp.append_left _).trans (List.perm_append_comm_assoc _ _ _)).append_left _
      · rintro other (_ | ⟨_, ho⟩)
        · omega
        · exact hle other ho

/-! ### Where a cut begins -/

lemma nextMarkup?_of_le {bytes : Array UInt8} {pos n : Nat} (hn : bytes[n]? = some 0x3C)
    (hp : pos ≤ n) : ∃ m ≤ n, nextMarkup? bytes pos = some m ∧ bytes[m]? = some 0x3C := by
  obtain ⟨hlt, -⟩ := Array.getElem?_eq_some_iff.mp hn
  fun_induction nextMarkup? bytes pos with
  | case1 pos h hb => exact ⟨pos, hp, rfl, Array.getElem?_eq_some_iff.mpr ⟨h, hb⟩⟩
  | case2 pos h hb ih =>
      refine ih (Nat.lt_of_le_of_ne hp ?_)
      rintro rfl
      exact hb (Array.getElem?_eq_some_iff.mp hn).2
  | case3 pos h => omega

/-- A cut begins at a `<`, at the latest at any one that stands behind the position. -/
lemma markupStart_of_le {bytes : Array UInt8} {pos n : Nat} (hn : bytes[n]? = some 0x3C)
    (hp : pos ≤ n) :
    markupStart bytes pos ≤ n ∧ bytes[markupStart bytes pos]? = some 0x3C := by
  obtain ⟨hlt, -⟩ := Array.getElem?_eq_some_iff.mp hn
  have hmin : min pos bytes.size = pos := by omega
  simp only [markupStart, hmin]
  split
  · next h => exact ⟨hp, h⟩
  · split
    · next h => exact ⟨by omega, h.2⟩
    · obtain ⟨m, hm, hnext, hb⟩ := nextMarkup?_of_le hn hp
      rw [hnext]
      exact ⟨hm, hb⟩

/-! ### Early cuts -/

/-- The number of `<` among the first `n` bytes. -/
def openersBefore (bytes : Bytes) (n : Nat) : Nat :=
  (bytes.take n).count 0x3C

section Openers

variable (bytes : Bytes) {m n : Nat}

lemma openersBefore_succ (n : Nat) :
    openersBefore bytes (n + 1) =
      openersBefore bytes n + if bytes[n]? = some 0x3C then 1 else 0 := by
  rw [openersBefore, List.take_add_one, List.count_append, openersBefore]
  cases bytes[n]? with
  | none => rfl
  | some b => simp [List.count_singleton]

lemma openersBefore_mono (h : m ≤ n) : openersBefore bytes m ≤ openersBefore bytes n := by
  induction n, h using Nat.le_induction with
  | base => exact le_refl _
  | succ n _ ih =>
      rw [openersBefore_succ]
      omega

lemma openersBefore_add_count {span : Span} (h : span.start ≤ span.stop) :
    openersBefore bytes span.start + (span.bytes bytes).count 0x3C =
      openersBefore bytes span.stop := by
  rw [openersBefore, openersBefore, ← List.count_append, Span.bytes, List.extract_eq_take_drop,
    ← List.take_add, Nat.add_sub_cancel' h]

variable {bytes}

lemma openersBefore_lt (hm : bytes[m]? = some 0x3C) (h : m < n) :
    openersBefore bytes m < openersBefore bytes n := by
  have := openersBefore_mono bytes (Nat.succ_le_of_lt h)
  rw [openersBefore_succ, if_pos hm] at this
  omega

lemma openersBefore_eq (hmn : m ≤ n) (h : ∀ i, m ≤ i → i < n → bytes[i]? ≠ some 0x3C) :
    openersBefore bytes n = openersBefore bytes m := by
  induction n, hmn using Nat.le_induction with
  | base => rfl
  | succ n hmn ih =>
      rw [openersBefore_succ, if_neg (h n hmn (Nat.lt_succ_self n)), Nat.add_zero]
      exact ih fun i hi hn => h i hi (hn.trans (Nat.lt_succ_self n))

end Openers

/-- A stretch that is cut out early, and the right one: the early one begins with a `<`, at the
right place or before it, and ends three bytes too soon, none of which is a `<`. -/
structure IsEarly (bytes : Bytes) (early right : Span) : Prop where
  start_le : early.start ≤ right.start
  start_eq : bytes[early.start]? = some 0x3C
  stop_eq : right.stop = early.stop + 3
  stop_le : right.stop ≤ bytes.length
  noOpener : ∀ n, early.stop ≤ n → n < right.stop → bytes[n]? ≠ some 0x3C

/-- An early cut takes out no fewer `<` than the right one. If it takes out no more, it begins at
the right place, and then what it takes out is shorter. -/
lemma IsEarly.count_le {bytes : Bytes} {early right : Span} (h : IsEarly bytes early right)
    (he : early.start ≤ early.stop) (hr : right.start ≤ right.stop) :
    (right.bytes bytes).count 0x3C ≤ (early.bytes bytes).count 0x3C ∧
      ((right.bytes bytes).count 0x3C = (early.bytes bytes).count 0x3C →
        (early.bytes bytes).length < (right.bytes bytes).length) := by
  have hstop_eq := h.stop_eq
  have hstop : openersBefore bytes right.stop = openersBefore bytes early.stop :=
    openersBefore_eq (by omega) h.noOpener
  have hstart := openersBefore_mono bytes h.start_le
  have hearly := openersBefore_add_count bytes he
  have hright := openersBefore_add_count bytes hr
  refine ⟨by omega, fun heq => ?_⟩
  have hsame : early.start = right.start := by
    by_contra hne
    have := openersBefore_lt h.start_eq (Nat.lt_of_le_of_ne h.start_le hne)
    omega
  have hle := h.stop_le
  simp only [Span.bytes, List.extract_eq_take_drop, List.length_take, List.length_drop]
  omega

section Together

variable {bytes : Bytes} {images : List ImageElement} {early right : ImageElement → Span}

/-- What holds of one early cut holds of several together. -/
lemma count_flatMap_le (h : ∀ image ∈ images, IsEarly bytes (early image) (right image))
    (he : ∀ image ∈ images, (early image).start ≤ (early image).stop)
    (hr : ∀ image ∈ images, (right image).start ≤ (right image).stop) :
    (images.flatMap fun image => (right image).bytes bytes).count 0x3C ≤
        (images.flatMap fun image => (early image).bytes bytes).count 0x3C ∧
      ((images.flatMap fun image => (right image).bytes bytes).count 0x3C =
          (images.flatMap fun image => (early image).bytes bytes).count 0x3C →
        (images.flatMap fun image => (early image).bytes bytes).length + images.length ≤
          (images.flatMap fun image => (right image).bytes bytes).length) := by
  induction images with
  | nil => simp
  | cons image images ih =>
      rw [List.forall_mem_cons] at h he hr
      obtain ⟨hcount, hlength⟩ := h.1.count_le he.1 hr.1
      obtain ⟨hcounts, hlengths⟩ := ih h.2 he.2 hr.2
      simp only [List.flatMap_cons, List.count_append, List.length_append, List.length_cons]
      refine ⟨by omega, fun heq => ?_⟩
      have hfirst := hlength (by omega)
      have hothers := hlengths (by omega)
      omega

/-- Early cuts never take out the same bytes as the right ones. -/
lemma not_perm_of_isEarly (hne : images ≠ [])
    (h : ∀ image ∈ images, IsEarly bytes (early image) (right image))
    (he : ∀ image ∈ images, (early image).start ≤ (early image).stop)
    (hr : ∀ image ∈ images, (right image).start ≤ (right image).stop) :
    ¬ (images.flatMap fun image => (early image).bytes bytes).Perm
      (images.flatMap fun image => (right image).bytes bytes) := by
  intro hp
  have hlength := (count_flatMap_le h he hr).2 (hp.count_eq _).symm
  have hpos := List.length_pos_of_ne_nil hne
  rw [hp.length_eq] at hlength
  omega

end Together

/-! ### Extraction behind a mark -/

section Extraction

variable {comment : Text} {images : List ImageElement} {asked : ImageTag}

/-- A comment in which no image is asked for stays as it is, with or without a mark. -/
lemma extract_of_requested?_eq_none
    (h : (Summary.images? (withoutMark comment)).bind requested? = none) :
    extract comment = .ok ⟨none, comment⟩ := by
  rw [extract]
  cases hi : Summary.images? (withoutMark comment) with
  | none => rfl
  | some images =>
      rw [hi, Option.bind_some] at h
      simp only [h]

lemma withoutMark_mark_cons (comment : Text) :
    withoutMark (byteOrderMark :: comment) = comment := by
  rw [withoutMark, if_pos rfl]

/-- Behind a mark the positions of the images are used as if there were none. -/
lemma extract_mark_of_some (hi : Summary.images? comment = some images)
    (hr : requested? images = some asked) :
    extract (byteOrderMark :: comment) =
      (remove (images.map (cutFor (Utf8.encode (byteOrderMark :: comment)).toArray))
        (byteOrderMark :: comment)).map fun left => ⟨some asked, left⟩ := by
  rw [extract, withoutMark_mark_cons, hi]
  simp only [hr]
  rfl

lemma length_mark : Utf8.length [byteOrderMark] = 3 := rfl

/-- Behind a mark the right cuts lie three bytes further on. -/
lemma remove_shift_mark {ps : List Piece} {rest : Text} (hc : comment = written ps ++ rest) :
    remove ((imagesFrom 0 ps).map fun image => (image.shift 3).span) (byteOrderMark :: comment) =
      .ok (byteOrderMark :: (remaining ps ++ rest)) := by
  have h := Piece.remove_imagesFrom (.kept [byteOrderMark] :: ps) rest
  have hshift : imagesFrom 0 (.kept [byteOrderMark] :: ps) =
      (imagesFrom 0 ps).map (ImageElement.shift 3) := by
    rw [imagesFrom, length_mark]
    exact Piece.imagesFrom_shift 3 0 ps
  rw [hshift, List.map_map] at h
  rw [hc]
  exact h

/-- The cut for an image is early behind a mark. -/
lemma isEarly_cutFor {image : ImageElement} (h : image.span.HoldsImage comment)
    (hl : ∀ n < image.span.stop, image.span.stop ≤ n + 3 → (Utf8.encode comment)[n]? ≠ some 0x3C) :
    IsEarly (Utf8.encode (byteOrderMark :: comment))
      (cutFor (Utf8.encode (byteOrderMark :: comment)).toArray image) (image.shift 3).span := by
  have henc : Utf8.encode (byteOrderMark :: comment) =
      Utf8.encode [byteOrderMark] ++ Utf8.encode comment := Utf8.encode_append [_] comment
  have hlen : (Utf8.encode [byteOrderMark]).length = 3 := length_mark
  have hle : image.span.stop ≤ Utf8.length comment := h.isBoundary_stop.le_length
  have hopen : (Utf8.encode (byteOrderMark :: comment)).toArray[3 + image.span.start]? =
      some 0x3C := by
    obtain ⟨ts, content, more, rest, hr, -, -, hs, -⟩ := h
    have hb := getElem?_encode_append (byteOrderMark :: Token.text ts)
      (content ++ ['>'] ++ more ++ rest)
    rw [hs, List.getElem?_toArray, hr.eq]
    rw [Utf8.length_cons, show byteOrderMark.utf8Size = 3 from rfl] at hb
    simpa [Piece.text, Token.lexeme] using hb
  obtain ⟨hstart, hbyte⟩ := markupStart_of_le hopen (Nat.le_add_left _ 3)
  refine ⟨hstart, by rwa [List.getElem?_toArray] at hbyte, Nat.add_comm 3 _, ?_,
    fun n hn hlt => ?_⟩
  · rw [henc, List.length_append, hlen]
    exact Nat.add_le_add_left hle 3
  · by_cases h3 : n < 3
    · rw [henc, List.getElem?_append_left (by omega)]
      exact (by decide : ∀ n < 3, (Utf8.encode [byteOrderMark])[n]? ≠ some 0x3C) n h3
    · rw [henc, List.getElem?_append_right (by omega), hlen]
      simp only [cutFor, ImageElement.shift] at hn hlt
      exact hl _ (by omega) (by omega)

/-- No image of the summary has a `<` among its last three bytes. -/
def Summary.EndsWithoutOpener (comment : Text) : Prop :=
  ∀ images, images? comment = some images → ∀ image ∈ images, ∀ n < image.span.stop,
    image.span.stop ≤ n + 3 → (Utf8.encode comment)[n]? ≠ some 0x3C

/-- **A byte-order mark is transparent only for comments without an image.** Extraction behind a
mark asks for the same image if it does not fail. It leaves the mark and what extraction leaves of
the comment exactly if no image is asked for. -/
theorem extract_mark_eq_iff (comment : Text) (hm : comment.head? ≠ some byteOrderMark)
    (hl : Summary.EndsWithoutOpener comment) :
    ∃ e, extract comment = .ok e ∧
      (∀ e', extract (byteOrderMark :: comment) = .ok e' → e'.tag = e.tag) ∧
      (extract (byteOrderMark :: comment) = .ok ⟨e.tag, byteOrderMark :: e.sanitized⟩ ↔
        e.tag = none) := by
  cases hr : (Summary.images? comment).bind requested? with
  | none =>
      have hmark : extract (byteOrderMark :: comment) = .ok ⟨none, byteOrderMark :: comment⟩ :=
        extract_of_requested?_eq_none (by rwa [withoutMark_mark_cons])
      refine ⟨_, extract_of_requested?_eq_none (by rwa [withoutMark_eq_self hm]), fun e' he => ?_,
        iff_of_true hmark rfl⟩
      rw [hmark] at he
      rw [← Except.ok.inj he]
  | some asked =>
      obtain ⟨images, hi, hr⟩ := Option.bind_eq_some_iff.mp hr
      obtain ⟨ps, rest, hc, rfl, hh⟩ := Summary.exists_pieces_of_images? hi
      have hx := extract_of_pieces hm hc hi
      rw [hr] at hx
      have hmark := extract_mark_of_some hi hr
      refine ⟨_, hx, fun e' he => ?_, fun heq => ?_, nofun⟩
      · rw [hmark] at he
        obtain ⟨left, -, rfl⟩ := Except.map_eq_ok_iff.mp he
        rfl
      · exfalso
        rw [hmark] at heq
        obtain ⟨left, hleft, hsame⟩ := Except.map_eq_ok_iff.mp heq
        obtain rfl : left = byteOrderMark :: (remaining ps ++ rest) :=
          congrArg Extraction.sanitized hsame
        obtain ⟨hearly, he⟩ := perm_of_removeFrom [] hleft
        obtain ⟨hright, hle⟩ := perm_of_removeFrom [] (remove_shift_mark hc)
        have hne : imagesFrom 0 ps ≠ [] := by
          intro hnil
          rw [hnil] at hr
          cases hr
        rw [List.forall_mem_map] at he hle
        rw [List.flatMap_map] at hearly hright
        exact not_perm_of_isEarly hne (fun image hmem => isEarly_cutFor (hh image hmem)
          (hl _ hi image hmem)) he hle
            ((List.perm_append_left_iff _).mp (hearly.symm.trans hright))

end Extraction

/-- An image that is cut out early leaves its last three bytes behind. -/
theorem extract_mark_eq_iff_leaving_end :
    "<summary>é <img src='a'/>.</summary>".toList.head? ≠ some byteOrderMark ∧
      Summary.EndsWithoutOpener "<summary>é <img src='a'/>.</summary>".toList ∧
      extract (byteOrderMark :: "<summary>é <img src='a'/>.</summary>".toList) =
        .ok ⟨some ⟨['a'], {}⟩, byteOrderMark :: "<summary>é '/>.</summary>".toList⟩ ∧
      ∃ e, extract "<summary>é <img src='a'/>.</summary>".toList = .ok e ∧
        extract (byteOrderMark :: "<summary>é <img src='a'/>.</summary>".toList) ≠
          .ok ⟨e.tag, byteOrderMark :: e.sanitized⟩ := by
  have hi : Summary.images? "<summary>é <img src='a'/>.</summary>".toList =
      some [⟨⟨12, 26⟩, " src='a'".toList⟩] := by cbv
  have hm : "<summary>é <img src='a'/>.</summary>".toList.head? ≠ some byteOrderMark := by decide
  have hl : Summary.EndsWithoutOpener "<summary>é <img src='a'/>.</summary>".toList := by
    intro images h
    rw [hi] at h
    obtain rfl := Option.some.inj h
    simp only [List.mem_singleton, forall_eq]
    decide
  have hx : extract "<summary>é <img src='a'/>.</summary>".toList =
      .ok ⟨some ⟨['a'], {}⟩, "<summary>é .</summary>".toList⟩ := by cbv
  obtain ⟨e, he, -, hiff⟩ := extract_mark_eq_iff _ hm hl
  refine ⟨hm, hl, by cbv, e, he, fun h => ?_⟩
  rw [hx] at he
  cases he
  cases hiff.mp h

/-- A mark is not transparent: what stays behind of an image is no part of the comment without it.
Extraction can fail, as where an image follows one that ends in a `<` but for the end of its tag. -/
theorem not_forall_extract_mark :
    extract (byteOrderMark :: "<summary><img src='<'/><img/></summary>".toList) =
        .error .outOfOrder ∧
      ¬ ∀ comment : Text, comment.head? ≠ some byteOrderMark → ∃ e, extract comment = .ok e ∧
        extract (byteOrderMark :: comment) = .ok ⟨e.tag, byteOrderMark :: e.sanitized⟩ := by
  have hfails : extract (byteOrderMark :: "<summary><img src='<'/><img/></summary>".toList) =
      .error .outOfOrder := by cbv
  refine ⟨hfails, fun h => ?_⟩
  obtain ⟨e, -, he⟩ := h "<summary><img src='<'/><img/></summary>".toList (by decide)
  rw [hfails] at he
  cases he

end DocImage
