import Mathlib.Tactic
import DocImage.Proofs.Image.Recognition
import DocImage.Proofs.Text.Faults
import DocImage.Proofs.Text.Occurrence

/-!
Bytes that no format recognizes. Without one of the four signatures it is only an SVG that they can
be, and an SVG is told by a word in the text of its first lines.

* `Svg.verdict_eq_other_iff`: the word must stand there, in any letter case.
* `Svg.withoutLineEnds_searched_prefix`: what is searched is a beginning of the bytes, but for the
  line ends and carriage returns, which are left out where lines are joined.
* `probeBytes_eq_none_iff_of_not_raster`: the bytes have no size exactly if the word does not stand
  in the lines as they are joined and decoded. `not_forall_probeBytes_eq_none` says why it is not
  enough that the word does not stand in the bytes: it may be put together where two lines meet, or
  be written in UTF-16.
-/

namespace DocImage

open ByteStream

/-- The stretches between separators are all the rest of a list. -/
lemma flatten_splitOnP {α : Type} (p : α → Bool) (l : List α) :
    (l.splitOnP p).flatten = l.filter (!p ·) := by
  induction l with
  | nil => rfl
  | cons a l ih =>
      rw [List.splitOnP_cons_eq_if_modifyHead]
      cases ha : p a with
      | true => simp [ih, ha]
      | false =>
          simp only [Bool.false_eq_true, if_false, List.filter_cons, ha, Bool.not_false, if_true]
          rw [← ih]
          cases hs : l.splitOnP p with
          | nil => exact absurd hs (List.splitOnP_ne_nil p l)
          | cons x xs => rfl

/-! ### A word in any letter case -/

/-- The word stands in the text, which is taken in lower case. -/
def Mentions (word s : Text) : Prop :=
  word <:+: foldCase s

instance (word s : Text) : Decidable (Mentions word s) :=
  inferInstanceAs (Decidable (_ <:+: _))

/-- The characters that are written like a lower one are in ASCII if that one is. -/
lemma isAscii_of_foldCase {word : Text} (h : Utf8.IsAscii (foldCase word)) : Utf8.IsAscii word := by
  intro c hc
  have hl := h c.toLower (List.mem_map_of_mem hc)
  rw [Char.toLower] at hl
  split at hl
  · next hu =>
      have hz : c.toNat ≤ 0x5A := UInt32.le_iff_toNat_le.mp hu.2
      omega
  · exact hl

/-- A character that is no letter is the lower one of itself only. -/
lemma eq_of_toLower_eq {c d : Char} (hd : d.isLower = false) (h : c.toLower = d) : c = d := by
  have halpha : c.isAlpha = false := by rw [← Char.isLower_toLower_eq_isAlpha, h, hd]
  have hupper : ¬ c.isUpper = true := by
    rw [Char.isAlpha, Bool.or_eq_false_iff] at halpha
    simp [halpha.1]
  rw [← h, Char.toLower_eq_of_not_isUpper hupper]

namespace Svg

/-- The word by which an SVG is told. -/
def mark : Text := ['<', 's', 'v', 'g']

lemma fromName?_eq_none_iff {name s : Text} (h : name ≠ []) :
    fromName? name s = none ↔ ¬ Mentions name s := by
  have hstart : ∀ t, startsWith name t = true ↔ name <+: t := fun _ => isSome_after?_iff
  have hnone : fromName? name s = none ↔ (breakAt (startsWith name) (foldCase s)).2 = [] := by
    rw [fromName?]
    cases hb : breakAt (startsWith name) (foldCase s) with
    | mk before rest => cases rest <;> simp
  rw [hnone, breakAt_snd_eq_nil_iff]
  constructor
  · intro hall hin
    obtain ⟨t, hp, hs⟩ := List.infix_iff_prefix_suffix.mp hin
    have hne : t ≠ [] := fun ht => h (List.prefix_nil.mp (ht ▸ hp))
    have := hall t hs hne
    rw [(hstart t).mpr hp] at this
    cases this
  · intro hno t hs _
    refine Bool.eq_false_iff.mpr fun hp => hno ?_
    exact List.infix_iff_prefix_suffix.mpr ⟨t, (hstart t).mp hp, hs⟩

lemma verdict_eq_other_iff (s : Text) : verdict s = .other ↔ ¬ Mentions mark s := by
  rw [← fromName?_eq_none_iff (by decide), verdict, mark]
  cases fromName? ['<', 's', 'v', 'g'] s with
  | none => simp
  | some t =>
      simp only [reduceCtorEq, iff_false]
      split <;> simp

/-! ### The lines that are searched -/

/-- The bytes without line ends and carriage returns. -/
def withoutLineEnds (bytes : Bytes) : Bytes :=
  bytes.filter fun b => b != lineFeed && b != carriageReturn

/-- An end of which nothing is kept may be dropped before. -/
lemma filter_dropEnd {p q : UInt8 → Bool} (h : ∀ b, q b = true → p b = false) (l : Bytes) :
    (dropEnd q l).filter p = l.filter p := by
  obtain ⟨dropped, hl, hdropped⟩ := exists_dropEnd q l
  have hnone : dropped.filter p = [] :=
    List.filter_eq_nil_iff.mpr fun b hb => Bool.eq_false_iff.mp (h b (hdropped b hb))
  conv_rhs => rw [hl, List.filter_append, hnone, List.append_nil]

lemma withoutLineEnds_joinLines_prefix (bytes : Bytes) :
    withoutLineEnds (joinLines bytes) <+: withoutLineEnds bytes := by
  have hjoin : withoutLineEnds (joinLines bytes) =
      withoutLineEnds ((bytes.splitOn lineFeed).take headLines).flatten := by
    rw [withoutLineEnds, joinLines, List.flatMap, List.filter_flatten, List.map_map,
      withoutLineEnds, List.filter_flatten]
    refine congrArg List.flatten (List.map_congr_left fun line _ => filter_dropEnd ?_ line)
    intro b hb
    simp_all
  have hall : withoutLineEnds (bytes.splitOn lineFeed).flatten = withoutLineEnds bytes := by
    rw [List.splitOn, flatten_splitOnP, withoutLineEnds, List.filter_filter, withoutLineEnds]
    refine List.filter_congr fun b _ => ?_
    cases hb : b == lineFeed <;> simp_all
  obtain ⟨more, hmore⟩ := List.take_prefix headLines (bytes.splitOn lineFeed)
  have hflat : ((bytes.splitOn lineFeed).take headLines).flatten <+:
      (bytes.splitOn lineFeed).flatten :=
    ⟨more.flatten, by rw [← List.flatten_append, hmore]⟩
  rw [hjoin, ← hall]
  exact hflat.filter _

/-- What is searched is a beginning of the bytes, but for line ends and carriage returns. -/
lemma withoutLineEnds_searched_prefix (bytes : Bytes) :
    withoutLineEnds (searched bytes) <+: withoutLineEnds bytes := by
  have hlines := withoutLineEnds_joinLines_prefix (bytes.take headLimit)
  exact hlines.trans ((List.take_prefix headLimit bytes).filter _)

/-- The marks of the texts that are not read as UTF-8. -/
def wideMarks : List Bytes :=
  [[0xFF, 0xFE], [0xFE, 0xFF]]

/-- Bytes without a mark of UTF-16 are read as UTF-8, apart from a mark of UTF-8. -/
lemma decodeText_of_not_wide {bytes : Bytes} (h : ∀ m ∈ wideMarks, ¬ m <+: bytes) :
    ∃ l, l <:+ bytes ∧ decodeText bytes = Utf8.decodeLossy l := by
  rw [decodeText.eq_def]
  split
  · next l => exact ⟨l, ⟨[0xEF, 0xBB, 0xBF], rfl⟩, rfl⟩
  · next l => exact absurd ⟨l, rfl⟩ (h [0xFF, 0xFE] (by decide))
  · next l => exact absurd ⟨l, rfl⟩ (h [0xFE, 0xFF] (by decide))
  · exact ⟨bytes, List.suffix_refl _, rfl⟩

lemma isAscii_of_foldCase_eq_mark {word : Text} (h : foldCase word = mark) : Utf8.IsAscii word := by
  refine isAscii_of_foldCase ?_
  rw [h]
  simp [mark, Utf8.IsAscii]

/-- The characters of the word end no line. -/
lemma withoutLineEnds_encode {word : Text} (h : foldCase word = mark) :
    withoutLineEnds (Utf8.encode word) = Utf8.encode word := by
  have hascii := isAscii_of_foldCase_eq_mark h
  rw [Utf8.encode_of_isAscii hascii]
  refine List.filter_eq_self.mpr fun b hb => ?_
  obtain ⟨c, hc, rfl⟩ := List.mem_map.mp hb
  have hmem : c.toLower ∈ mark := h ▸ List.mem_map_of_mem hc
  have hend : ∀ e : Char, e.toNat < 0x80 → e.toLower ∉ mark →
      UInt8.ofNat c.toNat ≠ UInt8.ofNat e.toNat := by
    intro e he hne hb
    have hce : c.toNat = e.toNat := by
      rw [← Utf8.toNat_ofNat_of_isAscii (hascii c hc), hb, Utf8.toNat_ofNat_of_isAscii he]
    exact hne (Char.toNat_inj.mp hce ▸ hmem)
  simp only [Bool.and_eq_true, bne_iff_ne]
  exact ⟨hend '\n' (by decide) (by decide), hend '\r' (by decide) (by decide)⟩

/-- Where the lines do not hold the word and are in UTF-8, the text that is searched does not. -/
lemma not_mentions_of_withoutLineEnds {bytes : Bytes}
    (hwide : ∀ m ∈ wideMarks, ¬ m <+: withoutLineEnds bytes)
    (h : ¬ Mentions mark (Utf8.decodeLossy (withoutLineEnds bytes))) :
    ¬ Mentions mark (decodeText (searched bytes)) := by
  have hprefix := withoutLineEnds_searched_prefix bytes
  have hmarks : ∀ m ∈ wideMarks, withoutLineEnds m = m := by decide
  obtain ⟨l, hl, he⟩ := decodeText_of_not_wide fun m hm hmp =>
    hwide m hm (.trans (hmarks m hm ▸ hmp.filter _) hprefix)
  rw [he]
  rintro hm
  obtain ⟨word, hword, hfold⟩ := List.infix_map_iff.mp hm
  have hascii := isAscii_of_foldCase_eq_mark hfold.symm
  refine h (List.infix_map_iff.mpr ⟨word, ?_, hfold⟩)
  rw [Utf8.infix_decodeLossy_iff hascii] at hword ⊢
  rw [← withoutLineEnds_encode hfold.symm]
  exact ((hword.trans hl.isInfix).filter _).trans hprefix.isInfix

end Svg

/-! ### Bytes of no format -/

/-- **Unrecognized bytes are those without the word in their lines.** Bytes that begin with none of
the signatures of the other formats have no size exactly if `<svg` does not stand, in any letter
case, in the text of their first lines as these are joined and decoded. So they have none if it does
not stand in the bytes read as UTF-8 without their line ends, and these bytes do not begin with a
mark of UTF-16. -/
theorem probeBytes_eq_none_iff_of_not_raster (bytes : Bytes)
    (h : ∀ signature ∈ rasterSignatures, ¬ signature <+: bytes) :
    (probeBytes bytes = none ↔ ¬ Mentions Svg.mark (decodeText (Svg.searched bytes))) ∧
    ((∀ m ∈ Svg.wideMarks, ¬ m <+: Svg.withoutLineEnds bytes) →
      ¬ Mentions Svg.mark (Utf8.decodeLossy (Svg.withoutLineEnds bytes)) →
      probeBytes bytes = none) := by
  have hiff : probeBytes bytes = none ↔ ¬ Mentions Svg.mark (decodeText (Svg.searched bytes)) := by
    rw [probeBytes_of_not_raster h, ← Svg.verdict_eq_other_iff]
    cases hv : Svg.verdict (decodeText (Svg.searched bytes)) with
    | other => simp [firstSize]
    | recognized size =>
        rcases Svg.exists_of_verdict_eq_recognized hv with rfl | ⟨_, _, -, -, rfl⟩ <;>
          simp [firstSize]
  exact ⟨hiff, fun hwide hno => hiff.mpr (Svg.not_mentions_of_withoutLineEnds hwide hno)⟩

/-- Two lines of other markup. -/
theorem probeBytes_eq_none_of_two_lines :
    ∃ bytes : Bytes, bytes = [0x3C, 0x61, 0x3E, 0x0D, 0x0A, 0x3C, 0x62, 0x3E] ∧
      (∀ signature ∈ rasterSignatures, ¬ signature <+: bytes) ∧
      probeBytes bytes = none ∧ ¬ Mentions Svg.mark (decodeText (Svg.searched bytes)) := by
  let bytes : Bytes := [0x3C, 0x61, 0x3E, 0x0D, 0x0A, 0x3C, 0x62, 0x3E]
  have hraster : ∀ signature ∈ rasterSignatures, ¬ signature <+: bytes := by decide
  obtain ⟨hiff, hnone⟩ := probeBytes_eq_none_iff_of_not_raster bytes hraster
  have hread : Utf8.decodeLossy (Svg.withoutLineEnds bytes) = ['<', 'a', '>', '<', 'b', '>'] := by
    cbv
  have hsize : probeBytes bytes = none := hnone (by decide) (by rw [hread]; decide)
  exact ⟨bytes, rfl, hraster, hsize, hiff.mp hsize⟩

/-- The word may be put together where two lines meet, and it may be written in UTF-16. -/
theorem not_forall_probeBytes_eq_none :
    (¬ ∀ bytes : Bytes, (∀ signature ∈ rasterSignatures, ¬ signature <+: bytes) →
      ¬ Mentions Svg.mark (Utf8.decodeLossy bytes) → probeBytes bytes = none) ∧
    ¬ ∀ bytes : Bytes, (∀ signature ∈ rasterSignatures, ¬ signature <+: bytes) →
      Svg.withoutLineEnds bytes = bytes → ¬ Mentions Svg.mark (Utf8.decodeLossy bytes) →
      probeBytes bytes = none := by
  constructor
  · let bytes : Bytes := [0x3C, 0x73, 0x0A, 0x76, 0x67, 0x3E]
    have hread : Utf8.decodeLossy bytes = ['<', 's', '\n', 'v', 'g', '>'] := by cbv
    have hsize : probeBytes bytes = some ⟨64, 64⟩ := by cbv
    intro h
    have hnone := h bytes (by decide) (by rw [hread]; decide)
    rw [hsize] at hnone
    cases hnone
  · let bytes : Bytes := [0xFF, 0xFE, 0x3C, 0, 0x73, 0, 0x76, 0, 0x67, 0]
    have hread : Utf8.decodeLossy bytes = [replacement, replacement, '<', '\x00', 's', '\x00', 'v',
        '\x00', 'g', '\x00'] := by
      cbv
    have hsize : probeBytes bytes = some ⟨64, 64⟩ := by cbv
    intro h
    have hnone := h bytes (by decide) rfl (by rw [hread]; decide)
    rw [hsize] at hnone
    cases hnone

end DocImage
