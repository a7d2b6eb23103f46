import Mathlib.Tactic
import DocImage.ImageTag.Extract
import DocImage.Proofs.Drawing.Factor
import DocImage.Files.Error
import DocImage.Proofs.Image.Failing
import DocImage.Proofs.Image.Segments

/-!
A size that is told can be drawn.

* `Size.IsWithin` are the sizes without a zero up to some edges. Each format keeps within its own,
  which are the largest for a BMP (`isWithin_of_bmpHeader`).
* `probe_usable`: so a size found in a stream is positive and below `2 ^ 31`, but for the height of
  a BMP, which may be that; it is scaled itself, and by a factor that is a finite positive number.
-/

namespace DocImage

open ByteStream Markup

/-- The size has no zero, and its edges are not above the given ones. -/
def Size.IsWithin (size : Size) (width height : Nat) : Prop :=
  (1 ≤ size.width ∧ size.width ≤ width) ∧ 1 ≤ size.height ∧ size.height ≤ height

lemma Size.isWithin_of_ofEdges? {w h : Int} {size : Size} (hs : Size.ofEdges? w h = some size)
    {width height : Nat} (hw : w ≤ width) (hh : h ≤ height) : size.IsWithin width height := by
  rw [Size.ofEdges?_eq_some_iff] at hs
  simp only [Size.IsWithin]
  omega

/-! ### Sizes at a fixed place -/

namespace FixedHeader

/-- A size that is told stands at its place, behind the signature. -/
lemma exists_of_verdict {header : FixedHeader} {bytes : Bytes} {size : Size}
    (h : header.verdict bytes = .recognized (some size)) :
    header.signature <+: bytes ∧ ∃ part, part.length = header.sizeLength ∧
      header.size? part = some size := by
  rw [verdict] at h
  cases hs : slice? bytes 0 header.signatureLength with
  | none =>
      rw [hs] at h
      cases h
  | some start =>
      rw [hs] at h
      dsimp only at h
      split at h
      · next hsig =>
          obtain ⟨part, hpart, hsize⟩ := Option.bind_eq_some_iff.mp (Verdict.recognized.inj h)
          obtain ⟨-, rfl⟩ := slice?_eq_some_iff.mp hs
          refine ⟨?_, part, length_of_slice? hpart, hsize⟩
          rw [← hsig]
          exact (List.take_prefix _ _).trans (List.take_prefix _ _)
      · cases h

end FixedHeader

/-! ### Numerals -/

namespace Numeral

lemma lt_of_readDigits? {limit : Nat} (hl : 0 < limit) {s : Text} {n : Nat}
    (h : readDigits? limit s = some n) : n < limit := by
  rw [readDigits?] at h
  split at h
  · rw [valueBelow?_eq (by decide) hl] at h
    split at h
    · next hlt =>
        cases h
        exact hlt
    · cases h
  · cases h

/-- A numeral that is read is positive and below `2 ^ 31`. -/
lemma of_readPositive? {s : Text} {n : Nat} (h : readPositive? s = some n) :
    0 < n ∧ n < 0x80000000 := by
  obtain ⟨hn, hpos⟩ := Option.filter_eq_some_iff.mp h
  refine ⟨by simpa using hpos, ?_⟩
  rw [readNat?.eq_def] at hn
  split at hn <;> exact lt_of_readDigits? (by decide) hn

end Numeral

/-- The bounds that the attributes of a tag set can all be honoured. -/
lemma ImageTag.isUsable_boundsOf (attributes : List Attribute) :
    (boundsOf attributes).IsUsable := by
  have hunder : ∀ names, ∀ n ∈ pixelsUnder? attributes names, 0 < n ∧ n < 0x80000000 := by
    intro names n hn
    obtain ⟨name, -, hname⟩ := List.exists_of_findSome?_eq_some hn
    obtain ⟨v, -, hv⟩ := Option.bind_eq_some_iff.mp hname
    exact Numeral.of_readPositive? hv
  exact ⟨hunder _, hunder _, hunder _, hunder _, hunder _, hunder _⟩

/-- What a comment asks for has such bounds. -/
lemma isUsable_bounds_of_extract {comment : Text} {e : Extraction} {tag : ImageTag}
    (he : extract comment = .ok e) (ht : e.tag = some tag) : tag.bounds.IsUsable := by
  rw [extract] at he
  cases hi : Summary.images? (withoutMark comment) with
  | none =>
      rw [hi] at he
      cases he
      cases ht
  | some images =>
      rw [hi] at he
      dsimp only at he
      cases hr : requested? images with
      | none =>
          rw [hr] at he
          cases he
          cases ht
      | some asked =>
          rw [hr] at he
          obtain ⟨sanitized, -, he⟩ := Except.bind_eq_ok_iff.mp he
          cases he
          cases ht
          obtain ⟨image, -, hasked⟩ := Option.bind_eq_some_iff.mp hr
          obtain ⟨v, -, -, rfl⟩ := ImageTag.ofAttributes?_eq_some_iff.mp hasked
          exact ImageTag.isUsable_boundsOf _

/-! ### The edges of each format -/

section Formats

variable {bytes : Bytes} {size : Size}

lemma isWithin_of_pngHeader (h : pngHeader.verdict bytes = .recognized (some size)) :
    size.IsWithin 0x7FFFFFFF 0x7FFFFFFF := by
  obtain ⟨-, part, hl, hs⟩ := FixedHeader.exists_of_verdict h
  change part.length = 8 at hl
  have hw : bigEndian (part.take 4) < 0x100000000 :=
    bigEndian_lt (n := 4) (by rw [List.length_take, hl]; rfl)
  have hh : bigEndian (part.drop 4) < 0x100000000 :=
    bigEndian_lt (n := 4) (by rw [List.length_drop, hl])
  exact Size.isWithin_of_ofEdges? hs (signed32_bounds hw).2 (signed32_bounds hh).2

lemma isWithin_of_gifHeader (h : gifHeader.verdict bytes = .recognized (some size)) :
    size.IsWithin 0xFFFF 0xFFFF := by
  obtain ⟨-, part, hl, hs⟩ := FixedHeader.exists_of_verdict h
  change part.length = 4 at hl
  have hw : littleEndian (part.take 2) < 0x10000 :=
    littleEndian_lt (n := 2) (by rw [List.length_take, hl]; rfl)
  have hh : littleEndian (part.drop 2) < 0x10000 :=
    littleEndian_lt (n := 2) (by rw [List.length_drop, hl])
  exact Size.isWithin_of_ofEdges? hs (by omega) (by omega)

/-- The sign of the height is dropped, so that it may be one more than the width. -/
lemma isWithin_of_bmpHeader (h : bmpHeader.verdict bytes = .recognized (some size)) :
    [0x42, 0x4D] <+: bytes ∧ size.IsWithin 0x7FFFFFFF 0x80000000 := by
  obtain ⟨hsig, part, hl, hs⟩ := FixedHeader.exists_of_verdict h
  change part.length = 8 at hl
  have hw : littleEndian (part.take 4) < 0x100000000 :=
    littleEndian_lt (n := 4) (by rw [List.length_take, hl]; rfl)
  have hh : littleEndian (part.drop 4) < 0x100000000 :=
    littleEndian_lt (n := 4) (by rw [List.length_drop, hl])
  have hheight := signed32_bounds hh
  exact ⟨hsig, Size.isWithin_of_ofEdges? hs (signed32_bounds hw).2 (by omega)⟩

lemma Jpeg.isWithin_sizeFrom? (h : Jpeg.sizeFrom? bytes 2 = some size) :
    size.IsWithin 0xFFFF 0xFFFF := by
  obtain ⟨_, _, -, hframe⟩ := Jpeg.sizeFrom?_eq_some_iff.mp h
  have hword : ∀ {pos n}, word? bytes pos = some n → n < 0x10000 := fun hn => by
    obtain ⟨high, low, -, rfl⟩ := word?_eq_some_iff.mp hn
    exact bigEndian_lt (n := 2) rfl
  have hw := hword hframe.width
  have hh := hword hframe.height
  exact ⟨⟨hframe.width_pos, by omega⟩, hframe.height_pos, by omega⟩

lemma Svg.isWithin_of_verdict {s : Text} (h : Svg.verdict s = .recognized (some size)) :
    size.IsWithin 0x7FFFFFFF 0x7FFFFFFF := by
  have hedge : ∀ {name n}, Svg.edge? name s = some n → 0 < n ∧ n < 0x80000000 := by
    intro name n he
    simp only [Svg.edge?, Option.bind_eq_bind, Option.bind_eq_some_iff] at he
    obtain ⟨_, _, _, _, hn⟩ := he
    exact Numeral.of_readPositive? hn
  rcases Svg.exists_of_verdict_eq_recognized h with hs | ⟨width, height, hw, hh, hs⟩
  · cases hs
    exact ⟨by decide, by decide⟩
  · cases hs
    have := hedge hw
    have := hedge hh
    simp only [Size.IsWithin]
    omega

end Formats

/-! ### Any size that is told -/

lemma exists_mem_of_firstSize {size : Size} {verdicts : List Verdict}
    (h : firstSize verdicts = some size) : .recognized (some size) ∈ verdicts := by
  induction verdicts with
  | nil => cases h
  | cons v verdicts ih =>
      cases v with
      | other => exact List.mem_cons_of_mem _ (ih h)
      | recognized found => exact List.mem_cons.mpr (.inl (congrArg _ (Eq.symm h)))

lemma Size.IsWithin.mono {size : Size} {w h w' h' : Nat} (hs : size.IsWithin w h) (hw : w ≤ w')
    (hh : h ≤ h') : size.IsWithin w' h' :=
  ⟨⟨hs.1.1, hs.1.2.trans hw⟩, hs.2.1, hs.2.2.trans hh⟩

/-- A size has edges below `2 ^ 31`, or it is that of a BMP. -/
lemma isWithin_of_probeBytes {bytes : Bytes} {size : Size} (h : probeBytes bytes = some size) :
    size.IsWithin 0x7FFFFFFF 0x7FFFFFFF ∨
      [0x42, 0x4D] <+: bytes ∧ size.IsWithin 0x7FFFFFFF 0x80000000 := by
  rw [probeBytes_eq] at h
  have hmem := exists_mem_of_firstSize h
  simp only [verdicts, List.mem_cons, List.not_mem_nil, or_false] at hmem
  rcases hmem with hv | hv | hv | hv | hv
  · exact .inl (isWithin_of_pngHeader hv.symm)
  · exact .inl ((isWithin_of_gifHeader hv.symm).mono (by decide) (by decide))
  · exact .inr (isWithin_of_bmpHeader hv.symm)
  · rw [Jpeg.verdict] at hv
    split at hv
    · exact .inl ((Jpeg.isWithin_sizeFrom? (Verdict.recognized.inj hv).symm).mono (by decide)
        (by decide))
    · cases hv
  · exact .inl (Svg.isWithin_of_verdict hv.symm)

open Drawing in
/-- **Every size that is told can be drawn.** Whatever a stream holds and however it delivers it, a
size found in it is positive, with edges below `2 ^ 31` except that the height of a BMP may be
`2 ^ 31`. So it is never replaced by the default square, and with the bounds of any comment the
factor by which it is scaled is a finite positive number, which is taken as it is. -/
theorem probe_usable (s : ByteStream) (size : Size) (h : probe s = some size) :
    (1 ≤ size.width ∧ size.width ≤ 0x7FFFFFFF) ∧ (1 ≤ size.height ∧ size.height ≤ 0x80000000) ∧
    (size.height = 0x80000000 → [0x42, 0x4D] <+: s.data.toList) ∧
    size.isPositive = true ∧ (∀ edge, workingSize (some size) edge = size) ∧
    ∀ comment e tag, extract comment = .ok e → e.tag = some tag → ∀ edge allowUpscale,
      ∃ q : Rat, factor size (some tag.bounds) allowUpscale = .finite q ∧
        (0 < q ∧ q ≤ 0x100000000) ∧ scale size (some tag.bounds) allowUpscale = q ∧
        drawnSize (some size) (some tag.bounds) edge allowUpscale =
          ⟨scaleEdge size.width q, scaleEdge size.height q⟩ := by
  have hbytes := isWithin_of_probeBytes (probeBytes_of_probe h)
  have hwithin : size.IsWithin 0x7FFFFFFF 0x80000000 :=
    hbytes.elim (fun hs => hs.mono (by decide) (by decide)) And.right
  obtain ⟨⟨hw, hw'⟩, hh, hh'⟩ := id hwithin
  have hpositive : size.isPositive = true := by
    simp only [Size.isPositive, Bool.and_eq_true, decide_eq_true_eq]
    exact ⟨hw, hh⟩
  have hworking : ∀ edge, workingSize (some size) edge = size := fun edge => by
    rw [workingSize, if_pos hpositive]
  refine ⟨⟨hw, hw'⟩, ⟨hh, hh'⟩, fun hmax => ?_, hpositive, hworking, ?_⟩
  · rcases hbytes with hs | ⟨hbmp, -⟩
    · have := hs.2.2
      omega
    · exact hbmp
  · intro comment e tag he ht edge allowUpscale
    have hl : size.longEdge ≤ 0x80000000 := max_le (by omega) hh'
    have hb : ∀ b ∈ some tag.bounds, b.IsUsable := by
      rintro b ⟨⟩
      exact isUsable_bounds_of_extract he ht
    obtain ⟨q, hq, hpos, hle⟩ := isUsable_factor hw hh hl hb allowUpscale
    have hscale := scale_of_factor_eq hq hpos
    refine ⟨q, hq, ⟨hpos, hle⟩, hscale, ?_⟩
    rw [drawnSize, hworking, hscale]

/-- The highest size that can be told: a BMP with the height `-2 ^ 31`, whose stream delivers single
bytes and fails behind the header, in a comment that wants it small. -/
theorem probe_usable_highest :
    ∃ (s : ByteStream) (comment : Text) (e : Extraction) (tag : ImageTag),
      s.limit = 1 ∧ s.failAt = some 26 ∧ probe s = some ⟨1, 0x80000000⟩ ∧
      [0x42, 0x4D] <+: s.data.toList ∧
      extract comment = .ok e ∧ e.tag = some tag ∧ tag.bounds.maxEdge = some 1 ∧
      ∃ q : Rat, Drawing.factor ⟨1, 0x80000000⟩ (some tag.bounds) false = .finite q ∧ 0 < q ∧
        Drawing.scale ⟨1, 0x80000000⟩ (some tag.bounds) false = q := by
  let s : ByteStream :=
    { data := #[0x42, 0x4D, 0, 0, 0, 0, 0, 0, 0, 0, 0, 0, 0, 0, 0, 0, 0, 0,
        0x01, 0, 0, 0, 0, 0, 0, 0x80]
      limit := 1
      failAt := some 26 }
  have hs : probe s = some ⟨1, 0x80000000⟩ := by cbv
  have hx : extract "<summary><img src='a' max='1'/></summary>".toList =
      .ok ⟨some ⟨['a'], { maxEdge := some 1 }⟩, "<summary></summary>".toList⟩ := by
    cbv
  obtain ⟨-, -, hbmp, -, -, hq⟩ := probe_usable s ⟨1, 0x80000000⟩ hs
  obtain ⟨q, hfactor, ⟨hpos, -⟩, hscale, -⟩ := hq _ _ _ hx rfl 96 false
  exact ⟨s, _, _, _, rfl, rfl, hs, hbmp rfl, hx, rfl, rfl, q, hfactor, hpos, hscale⟩

end DocImage
