import Mathlib.Tactic
import DocImage.Proofs.Image.Numbers
import DocImage.Proofs.Image.Unrecognized

/-!
The sizes of PNG, GIF and BMP, which stand at fixed places.

* `edges_eq_some_iff`: a size is found at its place exactly if the bytes of both edges stand there.
* `probeBytes_of_fixedHeader`: the first format whose signature is there decides, also where it
  finds no size. `probeBytes_of_short_png`: a PNG too short to be recognized is nothing else either.
* `probeBytes_fixed`: so these three formats have exactly the sizes that are written at their
  places.
-/

namespace DocImage

/-! ### Two edges one behind the other -/

/-- Two parts stand one behind the other at a position, whatever stands in front and behind. -/
def StandAt (bytes : Bytes) (pos : Nat) (x y : Bytes) : Prop :=
  ∃ front tail, front.length = pos ∧ bytes = front ++ (x ++ (y ++ tail))

lemma slice?_add_eq_some_iff {bytes part : Bytes} {pos m n : Nat} (hm : 0 < m) :
    slice? bytes pos (m + n) = some part ↔
      (part.take m).length = m ∧ (part.drop m).length = n ∧
        StandAt bytes pos (part.take m) (part.drop m) := by
  constructor
  · intro h
    obtain ⟨hle, hpart⟩ := slice?_eq_some_iff.mp h
    have hlen := length_of_slice? h
    rw [List.length_drop] at hle
    refine ⟨?_, ?_, bytes.take pos, (bytes.drop pos).drop (m + n), ?_, ?_⟩
    · rw [List.length_take]
      omega
    · rw [List.length_drop]
      omega
    · rw [List.length_take]
      omega
    · rw [← List.append_assoc (part.take m), List.take_append_drop, ← hpart,
        List.take_append_drop, List.take_append_drop]
  · rintro ⟨hx, hy, front, tail, rfl, rfl⟩
    have hlen : part.length = m + n := by
      rw [← List.take_append_drop m part, List.length_append, hx, hy]
    rw [← hlen, ← List.append_assoc (part.take m), List.take_append_drop]
    exact slice?_of_drop List.drop_left

/-- A size is found at its place exactly if the bytes of both edges stand there. -/
lemma edges_eq_some_iff {bytes : Bytes} {pos n : Nat} (hn : 0 < n) {f g : Bytes → Int}
    {w h : Nat} :
    ((slice? bytes pos (n + n)).bind fun part =>
        Size.ofEdges? (f (part.take n)) (g (part.drop n))) = some ⟨w, h⟩ ↔
      ∃ x y, StandAt bytes pos x y ∧ (x.length = n ∧ f x = w ∧ 0 < w) ∧
        y.length = n ∧ g y = h ∧ 0 < h := by
  rw [Option.bind_eq_some_iff]
  simp only [slice?_add_eq_some_iff hn, Size.ofEdges?_eq_some_iff]
  constructor
  · rintro ⟨part, ⟨hx, hy, hat⟩, hw, hh⟩
    exact ⟨_, _, hat, ⟨hx, hw⟩, hy, hh⟩
  · rintro ⟨x, y, hat, ⟨rfl, hw⟩, hy, hh⟩
    refine ⟨x ++ y, ?_⟩
    rw [List.take_left, List.drop_left]
    exact ⟨⟨rfl, hy, hat⟩, hw, hh⟩

/-- Two edges that are written in the same manner. -/
lemma edges_eq_some_iff_written {bytes : Bytes} {pos n limit : Nat} (hn : 0 < n)
    {f : Bytes → Int} {write : Nat → Bytes} (hlen : ∀ v, (write v).length = n)
    (hf : ∀ {x : Bytes} {v : Nat}, x.length = n →
      (f x = v ∧ 0 < v ↔ (1 ≤ v ∧ v < limit) ∧ x = write v)) {w h : Nat} :
    ((slice? bytes pos (n + n)).bind fun part =>
        Size.ofEdges? (f (part.take n)) (f (part.drop n))) = some ⟨w, h⟩ ↔
      (1 ≤ w ∧ w < limit) ∧ (1 ≤ h ∧ h < limit) ∧ StandAt bytes pos (write w) (write h) := by
  rw [edges_eq_some_iff hn]
  constructor
  · rintro ⟨x, y, hat, ⟨hx, hw⟩, hy, hh⟩
    obtain ⟨hw', rfl⟩ := (hf hx).mp hw
    obtain ⟨hh', rfl⟩ := (hf hy).mp hh
    exact ⟨hw', hh', hat⟩
  · rintro ⟨hw, hh, hat⟩
    exact ⟨_, _, hat, ⟨hlen w, (hf (hlen w)).mpr ⟨hw, rfl⟩⟩, hlen h, (hf (hlen h)).mpr ⟨hh, rfl⟩⟩

/-! ### The format that is recognized -/

lemma FixedHeader.verdict_of_prefix {header : FixedHeader} {bytes : Bytes}
    (hsig : header.signature <+: bytes) (hle : header.signature.length ≤ header.signatureLength)
    (hlen : header.signatureLength ≤ bytes.length) :
    header.verdict bytes =
      .recognized ((slice? bytes header.sizeOffset header.sizeLength).bind header.size?) := by
  have hstart : slice? bytes 0 header.signatureLength = some (bytes.take header.signatureLength) :=
    slice?_eq_some_iff.mpr ⟨hlen, rfl⟩
  have htake : (bytes.take header.signatureLength).take header.signature.length =
      header.signature := by
    rw [List.take_take, Nat.min_eq_left hle]
    exact (List.prefix_iff_eq_take.mp hsig).symm
  simp only [FixedHeader.verdict, hstart, htake, if_true]

/-- **The first format whose signature is there decides**, whether it finds a size or not. -/
lemma probeBytes_of_fixedHeader {header : FixedHeader} {bytes : Bytes}
    (hmem : header ∈ [pngHeader, gifHeader, bmpHeader]) (hsig : header.signature <+: bytes)
    (hlen : header.signatureLength ≤ bytes.length) :
    probeBytes bytes = (slice? bytes header.sizeOffset header.sizeLength).bind header.size? := by
  rw [probeBytes_eq, verdicts]
  simp only [List.mem_cons, List.not_mem_nil, or_false] at hmem
  rcases hmem with rfl | rfl | rfl
  · rw [FixedHeader.verdict_of_prefix hsig (by decide) hlen]
    rfl
  · have hother := fun other : FixedHeader => other.verdict_of_signature hsig (by decide)
    rw [hother pngHeader (by decide) (by decide),
      FixedHeader.verdict_of_prefix hsig (by decide) hlen]
    rfl
  · have hother := fun other : FixedHeader => other.verdict_of_signature hsig (by decide)
    rw [hother pngHeader (by decide) (by decide), hother gifHeader (by decide) (by decide),
      FixedHeader.verdict_of_prefix hsig (by decide) hlen]
    rfl

/-- The word by which an SVG is told takes four bytes, the first of which is that of `<`. -/
lemma Svg.exists_suffix_of_mentions {bytes : Bytes} (h : Mentions mark (Utf8.decodeLossy bytes)) :
    ∃ rest, (0x3C : UInt8) :: rest <:+ bytes ∧ 3 ≤ rest.length := by
  obtain ⟨word, hword, hfold⟩ := List.infix_map_iff.mp h
  have hascii := isAscii_of_foldCase_eq_mark hfold.symm
  rw [Utf8.infix_decodeLossy_iff hascii, Utf8.encode_of_isAscii hascii] at hword
  obtain ⟨front, tail, hbytes⟩ := hword
  obtain ⟨c, rest, rfl, hc, hrest⟩ := List.map_eq_cons_iff.mp hfold.symm
  obtain rfl := eq_of_toLower_eq (by decide) hc
  have hlen : rest.length = 3 := by simpa using congrArg List.length hrest
  refine ⟨rest.map (fun c => UInt8.ofNat c.toNat) ++ tail, ⟨front, ?_⟩, ?_⟩
  · rw [← hbytes, List.append_assoc]
    rfl
  · rw [List.length_append, List.length_map]
    omega

/-- A PNG that is too short to be recognized is nothing else: there is no room for the word by which
an SVG is told behind the signature. -/
lemma probeBytes_of_short_png {bytes : Bytes} (hsig : [0x89, 0x50, 0x4E, 0x47] <+: bytes)
    (hlen : bytes.length < 8) : probeBytes bytes = none := by
  have hother := fun header : FixedHeader => header.verdict_of_signature hsig (by decide)
  have hpng : pngHeader.verdict bytes = .other := by
    have hstart : slice? bytes 0 pngHeader.signatureLength = none :=
      slice?_eq_none_iff.mpr ⟨hlen, by decide⟩
    simp only [FixedHeader.verdict, hstart]
  have hjpeg : Jpeg.verdict bytes = .other :=
    Jpeg.verdict_of_not_prefix fun hp => absurd (eq_of_rasterSignatures (by decide) (by decide) hp
      hsig) (by decide)
  have hsvg : Svg.verdict (decodeText (Svg.searched bytes)) = .other := by
    obtain ⟨tail, rfl⟩ := hsig
    have hkept : Svg.withoutLineEnds ([0x89, 0x50, 0x4E, 0x47] ++ tail) =
        [0x89, 0x50, 0x4E, 0x47] ++ Svg.withoutLineEnds tail := List.filter_append _ _
    have htail : (Svg.withoutLineEnds tail).length ≤ 3 := by
      refine (List.length_filter_le _ _).trans ?_
      simp only [List.length_append, List.length_cons, List.length_nil] at hlen
      omega
    rw [Svg.verdict_eq_other_iff]
    refine Svg.not_mentions_of_withoutLineEnds (fun m hm hp => ?_) fun hm => ?_
    · rw [hkept] at hp
      simp only [Svg.wideMarks, List.mem_cons, List.not_mem_nil, or_false] at hm
      rcases hm with rfl | rfl <;> simp at hp
    · obtain ⟨rest, hs, hrest⟩ := Svg.exists_suffix_of_mentions hm
      rw [hkept] at hs
      simp [List.suffix_cons_iff] at hs
      have := hs.length_le
      rw [List.length_cons] at this
      omega
  rw [probeBytes_eq, verdicts, hpng, hother gifHeader (by decide) (by decide),
    hother bmpHeader (by decide) (by decide), hjpeg, hsvg]
  rfl

/-! ### The three formats -/

section Formats

variable {bytes x : Bytes} {w h : Nat}

lemma signed_bigEndian_eq_iff (hx : x.length = 4) :
    signed32 (bigEndian x) = w ∧ 0 < w ↔ (1 ≤ w ∧ w < 2 ^ 31) ∧ x = bigBytes 4 w := by
  rw [signed32_eq_natCast_iff (bigEndian_lt hx), bigEndian_eq_iff hx]
  exact and_congr_right fun hw => and_iff_right (by omega)

lemma signed_littleEndian_eq_iff (hx : x.length = 4) :
    signed32 (littleEndian x) = w ∧ 0 < w ↔ (1 ≤ w ∧ w < 2 ^ 31) ∧ x = littleBytes 4 w := by
  rw [signed32_eq_natCast_iff (littleEndian_lt hx), littleEndian_eq_iff hx]
  exact and_congr_right fun hw => and_iff_right (by omega)

lemma natCast_littleEndian_eq_iff (hx : x.length = 2) :
    (littleEndian x : Int) = w ∧ 0 < w ↔ (1 ≤ w ∧ w < 2 ^ 16) ∧ x = littleBytes 2 w := by
  rw [Int.natCast_inj, littleEndian_eq_iff hx]
  constructor
  · rintro ⟨⟨hlt, rfl⟩, hpos⟩
    exact ⟨⟨hpos, hlt⟩, rfl⟩
  · rintro ⟨⟨hpos, hlt⟩, rfl⟩
    exact ⟨⟨hlt, rfl⟩, hpos⟩

/-- The sign of a number is dropped, so that there are two ways to write it, but only one for
`2 ^ 31`. -/
lemma natAbs_littleEndian_eq_iff (hx : x.length = 4) :
    ((signed32 (littleEndian x)).natAbs : Int) = h ∧ 0 < h ↔
      ∃ v : Int, (-2 ^ 31 ≤ v ∧ v < 2 ^ 31) ∧ v ≠ 0 ∧ v.natAbs = h ∧
        x = littleBytes 4 (unsigned32 v) := by
  have hlt := littleEndian_lt hx
  constructor
  · rintro ⟨habs, hpos⟩
    obtain ⟨hrange, hn⟩ := (signed32_eq_iff hlt).mp rfl
    exact ⟨_, by omega, by omega, by omega, ((littleEndian_eq_iff hx).mp hn).2⟩
  · rintro ⟨v, hrange, hne, rfl, hv⟩
    have hn : littleEndian x = unsigned32 v :=
      (littleEndian_eq_iff hx).mpr ⟨by rw [unsigned32]; omega, hv⟩
    rw [(signed32_eq_iff hlt).mpr ⟨by omega, hn⟩]
    omega

lemma probeBytes_png_iff (hsig : [0x89, 0x50, 0x4E, 0x47] <+: bytes) :
    probeBytes bytes = some ⟨w, h⟩ ↔ (1 ≤ w ∧ w < 2 ^ 31) ∧ (1 ≤ h ∧ h < 2 ^ 31) ∧
      StandAt bytes 16 (bigBytes 4 w) (bigBytes 4 h) := by
  by_cases hlen : 8 ≤ bytes.length
  · rw [probeBytes_of_fixedHeader (by simp : pngHeader ∈ _) hsig hlen]
    exact edges_eq_some_iff_written (f := fun x => signed32 (bigEndian x)) (by decide)
      (length_bigBytes 4) signed_bigEndian_eq_iff
  · rw [probeBytes_of_short_png hsig (not_le.mp hlen)]
    refine iff_of_false (by simp) ?_
    rintro ⟨-, -, front, tail, hfront, rfl⟩
    rw [List.length_append] at hlen
    omega

lemma probeBytes_gif_iff (hsig : [0x47, 0x49, 0x46] <+: bytes) :
    probeBytes bytes = some ⟨w, h⟩ ↔ (1 ≤ w ∧ w < 2 ^ 16) ∧ (1 ≤ h ∧ h < 2 ^ 16) ∧
      StandAt bytes 6 (littleBytes 2 w) (littleBytes 2 h) := by
  rw [probeBytes_of_fixedHeader (by simp : gifHeader ∈ _) hsig hsig.length_le]
  exact edges_eq_some_iff_written (f := fun x => littleEndian x) (by decide)
    (length_littleBytes 2) natCast_littleEndian_eq_iff

lemma probeBytes_bmp_iff (hsig : [0x42, 0x4D] <+: bytes) :
    probeBytes bytes = some ⟨w, h⟩ ↔ (1 ≤ w ∧ w < 2 ^ 31) ∧
      ∃ v : Int, (-2 ^ 31 ≤ v ∧ v < 2 ^ 31) ∧ v ≠ 0 ∧ v.natAbs = h ∧
        StandAt bytes 18 (littleBytes 4 w) (littleBytes 4 (unsigned32 v)) := by
  rw [probeBytes_of_fixedHeader (by simp : bmpHeader ∈ _) hsig hsig.length_le]
  refine (edges_eq_some_iff (f := fun x => signed32 (littleEndian x))
    (g := fun y => (signed32 (littleEndian y)).natAbs) (by decide : 0 < 4)).trans ⟨?_, ?_⟩
  · rintro ⟨x, y, hat, ⟨hx, hw⟩, hy, hh⟩
    obtain ⟨hw', rfl⟩ := (signed_littleEndian_eq_iff hx).mp hw
    obtain ⟨v, hv, hne, habs, rfl⟩ := (natAbs_littleEndian_eq_iff hy).mp hh
    exact ⟨hw', v, hv, hne, habs, hat⟩
  · rintro ⟨hw, v, hv, hne, habs, hat⟩
    have hl := length_littleBytes 4
    exact ⟨_, _, hat, ⟨hl w, (signed_littleEndian_eq_iff (hl w)).mpr ⟨hw, rfl⟩⟩, hl _,
      (natAbs_littleEndian_eq_iff (hl _)).mpr ⟨v, hv, hne, habs, rfl⟩⟩

end Formats

/-- **PNG, GIF and BMP have the size that is written at its place, and no other.** Bytes that begin
with the signature of one of them have a size exactly if a width and a height without a zero, in the
manner of that format, stand one behind the other at its place, and it is that size; otherwise they
have none. In a PNG both edges have four bytes, from the most significant on, and are below
`2 ^ 31`; in a GIF they have two bytes, from the least significant on; in a BMP they have four, the
width is below `2 ^ 31`, and the height is a signed number whose sign is dropped. What stands in
front of the size behind the signature, and what follows, is of no account, and no other format is
looked for. -/
theorem probeBytes_fixed (bytes : Bytes) :
    ([0x89, 0x50, 0x4E, 0x47] <+: bytes → ∀ w h, probeBytes bytes = some ⟨w, h⟩ ↔
      (1 ≤ w ∧ w < 2 ^ 31) ∧ (1 ≤ h ∧ h < 2 ^ 31) ∧
        StandAt bytes 16 (bigBytes 4 w) (bigBytes 4 h)) ∧
    ([0x47, 0x49, 0x46] <+: bytes → ∀ w h, probeBytes bytes = some ⟨w, h⟩ ↔
      (1 ≤ w ∧ w < 2 ^ 16) ∧ (1 ≤ h ∧ h < 2 ^ 16) ∧
        StandAt bytes 6 (littleBytes 2 w) (littleBytes 2 h)) ∧
    ([0x42, 0x4D] <+: bytes → ∀ w h, probeBytes bytes = some ⟨w, h⟩ ↔
      (1 ≤ w ∧ w < 2 ^ 31) ∧ ∃ v : Int, (-2 ^ 31 ≤ v ∧ v < 2 ^ 31) ∧ v ≠ 0 ∧ v.natAbs = h ∧
        StandAt bytes 18 (littleBytes 4 w) (littleBytes 4 (unsigned32 v))) :=
  ⟨fun hsig _ _ => probeBytes_png_iff hsig, fun hsig _ _ => probeBytes_gif_iff hsig,
    fun hsig _ _ => probeBytes_bmp_iff hsig⟩

/-- Images that hold the word of an SVG: a PNG of the largest width, a GIF that ends before its
size, and a BMP of the height `-2 ^ 31`. -/
theorem probeBytes_fixed_beside_word :
    let word : Bytes := [0x3C, 0x73, 0x76, 0x67]
    let png := [0x89, 0x50, 0x4E, 0x47] ++ (word ++ word ++ word) ++
      (bigBytes 4 0x7FFFFFFF ++ (bigBytes 4 1 ++ word))
    let gif := [0x47, 0x49, 0x46] ++ word
    let bmp := [0x42, 0x4D] ++ (word ++ word ++ word ++ word) ++
      (littleBytes 4 1 ++ (littleBytes 4 (unsigned32 (-0x80000000)) ++ word))
    probeBytes png = some ⟨0x7FFFFFFF, 1⟩ ∧ probeBytes gif = none ∧
      probeBytes bmp = some ⟨1, 0x80000000⟩ := by
  intro word png gif bmp
  obtain ⟨hpng, -, -⟩ := probeBytes_fixed png
  obtain ⟨-, hgif, -⟩ := probeBytes_fixed gif
  obtain ⟨-, -, hbmp⟩ := probeBytes_fixed bmp
  refine ⟨?_, ?_, ?_⟩
  · exact (hpng (by decide) _ _).mpr ⟨by decide, by decide, _, word, rfl, rfl⟩
  · refine Option.eq_none_iff_forall_ne_some.mpr fun size hsize => ?_
    obtain ⟨-, -, front, tail, hfront, hbytes⟩ := (hgif (by decide) size.width size.height).mp hsize
    have hlen : 7 = 6 + (2 + (2 + tail.length)) := by
      simpa [gif, word, hfront] using congrArg List.length hbytes
    omega
  · exact (hbmp (by decide) _ _).mpr
      ⟨by decide, -0x80000000, by decide, by decide, rfl, _, word, rfl, rfl⟩

end DocImage
