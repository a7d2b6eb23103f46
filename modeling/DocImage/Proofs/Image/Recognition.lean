import Mathlib.Tactic
import DocImage.Proofs.Image.Probing

/-!
What the tests recognize in bytes. For each format a function of the bytes alone says what its test
finds, and the first format that is recognized decides the size.

* `slice?` are the bytes at a place, and `ByteStream.Holds.readExact` says that they are what is
  read there.
* `FixedHeader.verdict`, `Jpeg.sizeFrom?` and `Svg.verdict` of the searched lines are what the tests
  find (`Finds`).
* `probeBytes_eq`: the size is that of the first format recognized.
-/

namespace DocImage

/-- The `n` bytes from a position on, if there are as many. -/
def slice? (bytes : Bytes) (pos n : Nat) : Option Bytes :=
  if n ≤ (bytes.drop pos).length then some ((bytes.drop pos).take n) else none

lemma slice?_eq_some_iff {bytes : Bytes} {pos n : Nat} {part : Bytes} :
    slice? bytes pos n = some part ↔
      n ≤ (bytes.drop pos).length ∧ (bytes.drop pos).take n = part := by
  rw [slice?]
  split <;> simp_all

lemma slice?_eq_none_iff {bytes : Bytes} {pos n : Nat} :
    slice? bytes pos n = none ↔ bytes.length < pos + n ∧ 0 < n := by
  rw [slice?, ite_eq_right_iff, List.length_drop]
  simp only [reduceCtorEq, imp_false]
  omega

lemma slice?_of_drop {bytes part rest : Bytes} {pos : Nat} (h : bytes.drop pos = part ++ rest) :
    slice? bytes pos part.length = some part := by
  refine slice?_eq_some_iff.mpr ⟨?_, by rw [h, List.take_left]⟩
  rw [h, List.length_append]
  exact Nat.le_add_right _ _

lemma length_of_slice? {bytes : Bytes} {pos n : Nat} {part : Bytes}
    (h : slice? bytes pos n = some part) : part.length = n := by
  obtain ⟨hn, rfl⟩ := slice?_eq_some_iff.mp h
  rw [List.length_take, Nat.min_eq_left hn]

lemma slice?_succ (bytes : Bytes) (pos n : Nat) :
    slice? bytes pos (n + 1) =
      bytes[pos]?.bind fun b => (slice? bytes (pos + 1) n).map (b :: ·) := by
  rw [slice?, slice?]
  cases hb : bytes[pos]? with
  | none =>
      rw [List.drop_eq_nil_of_le (List.getElem?_eq_none_iff.mp hb)]
      rfl
  | some b =>
      obtain ⟨hlt, rfl⟩ := List.getElem?_eq_some_iff.mp hb
      rw [List.drop_eq_getElem_cons hlt]
      simp only [List.length_cons, Nat.add_le_add_iff_right, List.take_succ_cons, Option.bind_some]
      split <;> rfl

/-- Bytes at a place are those in front and those behind them. -/
lemma slice?_add (bytes : Bytes) (pos m n : Nat) :
    slice? bytes pos (m + n) =
      (slice? bytes pos m).bind fun part => (slice? bytes (pos + m) n).map (part ++ ·) := by
  induction m generalizing pos with
  | zero => simp [slice?]
  | succ m ih =>
      rw [Nat.add_right_comm, slice?_succ, slice?_succ, ih, Nat.add_assoc pos 1 m, Nat.add_comm 1 m]
      cases bytes[pos]? with
      | none => rfl
      | some b =>
          cases slice? bytes (pos + 1) m with
          | none => rfl
          | some part => cases slice? bytes (pos + (m + 1)) n <;> rfl

namespace ByteStream

/-! ### Streams of given bytes -/

/-- The stream has exactly the given bytes. -/
def Holds (s : ByteStream) (bytes : Bytes) : Prop :=
  ∀ pos, s.byteAt pos = .ok bytes[pos]?

variable {s : ByteStream} {bytes : Bytes}

lemma holds_ofBytes (bytes : Bytes) : (ofBytes bytes).Holds bytes := by
  intro pos
  rw [byteAt_of_failAt_eq_none rfl (Nat.succ_ne_zero _)]
  simp [ofBytes]

lemma Holds.congr (h : s.Holds bytes) {s' : ByteStream} (hs : s'.byteAt = s.byteAt) :
    s'.Holds bytes := by
  intro pos
  rw [hs, h]

lemma Holds.bytesFrom (h : s.Holds bytes) (pos n : Nat) :
    s.bytesFrom pos n = .ok (slice? bytes pos n) := by
  induction n generalizing pos with
  | zero => simp [ByteStream.bytesFrom, slice?]
  | succ n ih =>
      rw [ByteStream.bytesFrom, h, slice?_succ]
      cases bytes[pos]? with
      | none => rfl
      | some b => simp only [ih, Except.map, Option.bind_some]

/-- What is read at a place are the bytes there. -/
lemma Holds.readExact (h : s.Holds bytes) (n : Nat) :
    ∃ s' : ByteStream, s'.Holds bytes ∧
      s.readExact n = .ok (slice? bytes s.position n, s') ∧
      ((slice? bytes s.position n).isSome → s'.position = s.position + n) := by
  obtain ⟨s', hs, he, hp⟩ := readExact_eq s n
  rw [h.bytesFrom] at he hp
  refine ⟨s', h.congr hs, he, fun hsome => ?_⟩
  obtain ⟨part, hpart⟩ := Option.isSome_iff_exists.mp hsome
  exact hp part (congrArg _ hpart)

lemma Holds.readExact_seek (h : s.Holds bytes) (pos n : Nat) :
    ∃ s' : ByteStream, s'.Holds bytes ∧ (s.seek pos).readExact n = .ok (slice? bytes pos n, s') ∧
      ((slice? bytes pos n).isSome → s'.position = pos + n) :=
  Holds.readExact (s := s.seek pos) h n

/-- The lines that are searched are among the first `room` bytes, which either end with them or go
on behind the last line end wanted. -/
lemma Holds.headFrom (h : s.Holds bytes) (room lines : Nat) :
    ∃ head extra, bytes.take room = head ++ extra ∧ s.headFrom 0 room lines = .ok head ∧
      (extra = [] ∨ lines ≤ head.count lineFeed) := by
  have hhas : s.Has 0 (bytes.take room) := by
    intro i b hb
    rw [List.getElem?_take] at hb
    split at hb
    · rw [h, Nat.zero_add, hb]
    · cases hb
  obtain ⟨more, hmore⟩ := Nat.exists_eq_add_of_le (List.length_take_le room bytes)
  by_cases hl : (bytes.take room).count lineFeed < lines
  · refine ⟨bytes.take room, [], (List.append_nil _).symm, ?_, .inl rfl⟩
    have happ := headFrom_append hhas hl more
    rw [← hmore, Nat.zero_add] at happ
    -- there is no room behind these bytes, or there are no bytes behind them
    have hend : s.headFrom (bytes.take room).length more
        (lines - (bytes.take room).count lineFeed) = .ok [] := by
      obtain ⟨wanted, hwanted⟩ := Nat.exists_eq_succ_of_ne_zero (Nat.sub_ne_zero_of_lt hl)
      rw [hwanted]
      cases more with
      | zero => rw [ByteStream.headFrom]
      | succ more =>
          have hnone : bytes[(bytes.take room).length]? = none := by
            rw [List.getElem?_eq_none_iff]
            rw [List.length_take] at hmore ⊢
            omega
          rw [ByteStream.headFrom, h, hnone]
    rw [happ, hend]
    simp [Except.map]
  · obtain ⟨head, extra, hhe, hc, hh⟩ := headFrom_of_le_count hhas (not_lt.mp hl) more
    rw [← hmore] at hh
    exact ⟨head, extra, hhe, hh, .inr hc⟩

end ByteStream

open ByteStream

/-! ### What the tests find -/

/-- The test finds this in the bytes, wherever the stream stands. -/
def Finds (test : HeaderTest) (bytes : Bytes) (v : Verdict) : Prop :=
  ∀ s : ByteStream, s.Holds bytes → ∃ s' : ByteStream, s'.Holds bytes ∧ test s = .ok (v, s')

namespace FixedHeader

/-- What a header at a fixed place says. -/
def verdict (header : FixedHeader) (bytes : Bytes) : Verdict :=
  match slice? bytes 0 header.signatureLength with
  | none => .other
  | some start =>
    if start.take header.signature.length = header.signature then
      .recognized ((slice? bytes header.sizeOffset header.sizeLength).bind header.size?)
    else .other

lemma finds_test (header : FixedHeader) (bytes : Bytes) :
    Finds header.test bytes (header.verdict bytes) := by
  intro s h
  obtain ⟨s₁, h₁, he₁, -⟩ := h.readExact_seek 0 header.signatureLength
  obtain ⟨s₂, h₂, he₂, -⟩ := h₁.readExact_seek header.sizeOffset header.sizeLength
  rw [FixedHeader.test, he₁, verdict]
  cases slice? bytes 0 header.signatureLength with
  | none => exact ⟨s₁, h₁, rfl⟩
  | some start =>
      dsimp only
      by_cases hsig : start.take header.signature.length = header.signature
      · rw [if_pos hsig]
        exact ⟨s₂, h₂, (if_pos hsig).trans (Except.bind_eq_ok_iff.mpr ⟨_, he₂, rfl⟩)⟩
      · rw [if_neg hsig]
        exact ⟨s₁, h₁, if_neg hsig⟩

/-- Bytes that do not begin with the signature are left to the other formats. -/
lemma verdict_of_not_prefix {header : FixedHeader} {bytes : Bytes}
    (h : ¬ header.signature <+: bytes) : header.verdict bytes = .other := by
  rw [verdict]
  cases hs : slice? bytes 0 header.signatureLength with
  | none => rfl
  | some start =>
      obtain ⟨-, rfl⟩ := slice?_eq_some_iff.mp hs
      refine if_neg fun hstart => h ?_
      rw [← hstart]
      exact (List.take_prefix _ _).trans (List.take_prefix _ _)

end FixedHeader

namespace Jpeg

/-- The size in the first frame header, from the beginning of a segment on. -/
def sizeFrom? (bytes : Bytes) (pos : Nat) : Option Size :=
  match _h : slice? bytes pos 4 with
  | some [start, marker, high, low] =>
    if start ≠ 0xFF ∨ isLast marker then none
    else if bigEndian [high, low] < 2 then none
    else if isFrame marker then (slice? bytes (pos + 4) 5).bind frameSize?
    else sizeFrom? bytes (pos + 2 + bigEndian [high, low])
  | _ => none
termination_by bytes.length - pos
decreasing_by
  have := (slice?_eq_some_iff.mp _h).1
  rw [List.length_drop] at this
  omega

section SizeFrom

variable {bytes : Bytes} {pos : Nat} {start marker high low : UInt8}

lemma sizeFrom?_of_end (h : slice? bytes pos 4 = none) : sizeFrom? bytes pos = none := by
  rw [sizeFrom?, h]

lemma sizeFrom?_of_slice? (h : slice? bytes pos 4 = some [start, marker, high, low]) :
    sizeFrom? bytes pos =
      if start ≠ 0xFF ∨ isLast marker then none
      else if bigEndian [high, low] < 2 then none
      else if isFrame marker then (slice? bytes (pos + 4) 5).bind frameSize?
      else sizeFrom? bytes (pos + 2 + bigEndian [high, low]) := by
  rw [sizeFrom?, h]

/-- The walk ends where no segment begins, also if there are too few bytes for one. -/
lemma sizeFrom?_of_not_segment (h : slice? bytes pos 2 = some [start, marker])
    (hend : start ≠ 0xFF ∨ isLast marker) : sizeFrom? bytes pos = none := by
  have hadd := slice?_add bytes pos 2 2
  rw [h] at hadd
  cases hl : slice? bytes (pos + 2) 2 with
  | none =>
      rw [hl] at hadd
      exact sizeFrom?_of_end hadd
  | some length =>
      obtain ⟨high, low, rfl⟩ := List.length_eq_two.mp (length_of_slice? hl)
      rw [hl] at hadd
      rw [sizeFrom?_of_slice? hadd, if_pos hend]

end SizeFrom

/-- The walk along the segments finds the size that the bytes tell. -/
lemma segments_of_holds {s : ByteStream} {bytes : Bytes} (h : s.Holds bytes) :
    ∃ s' : ByteStream, s'.Holds bytes ∧ segments s = .ok (sizeFrom? bytes s.position, s') := by
  induction hn : bytes.length - s.position using Nat.strong_induction_on generalizing s with
  | _ n ih =>
      obtain ⟨s₁, h₁, he₁, hp₁⟩ := h.readExact 2
      have hadd := slice?_add bytes s.position 2 2
      cases hs₁ : slice? bytes s.position 2 with
      | none =>
          rw [hs₁] at he₁ hadd
          refine ⟨s₁, h₁, ?_⟩
          rw [sizeFrom?_of_end hadd, segments.eq_def, he₁]
      | some part =>
          obtain ⟨start, marker, rfl⟩ := List.length_eq_two.mp (length_of_slice? hs₁)
          specialize hp₁ (by rw [hs₁]; rfl)
          rw [hs₁] at he₁ hadd
          by_cases hend : start ≠ 0xFF ∨ isLast marker
          · exact ⟨s₁, h₁, by rw [segments_of_end he₁ hend, sizeFrom?_of_not_segment hs₁ hend]⟩
          obtain ⟨s₂, h₂, he₂, hp₂⟩ := h₁.readExact 2
          rw [hp₁] at he₂ hp₂
          rw [segments_of_segment he₁ hend, he₂]
          cases hs₂ : slice? bytes (s.position + 2) 2 with
          | none =>
              rw [hs₂] at hadd
              exact ⟨s₂, h₂, by rw [sizeFrom?_of_end hadd]⟩
          | some length =>
              obtain ⟨high, low, rfl⟩ := List.length_eq_two.mp (length_of_slice? hs₂)
              specialize hp₂ (by rw [hs₂]; rfl)
              rw [hs₂] at hadd
              rw [sizeFrom?_of_slice? hadd, if_neg hend]
              by_cases hlen : bigEndian [high, low] < 2
              · exact ⟨s₂, h₂, by simp only [if_pos hlen]⟩
              simp only [if_neg hlen]
              by_cases hframe : isFrame marker = true
              · obtain ⟨s₃, h₃, he₃, -⟩ := h₂.readExact 5
                rw [hp₂] at he₃
                exact ⟨s₃, h₃, by simp only [if_pos hframe, he₃, Except.map]⟩
              · have hnext : (s₂.skip (bigEndian [high, low] - 2)).position =
                    s.position + 2 + bigEndian [high, low] := by
                  change s₂.position + (bigEndian [high, low] - 2) = _
                  omega
                have hshort :
                    bytes.length - (s₂.skip (bigEndian [high, low] - 2)).position < n := by
                  have := (slice?_eq_some_iff.mp hs₁).1
                  rw [List.length_drop] at this
                  omega
                obtain ⟨s', h', he'⟩ := ih _ hshort (s := s₂.skip _) h₂ rfl
                rw [hnext] at he'
                exact ⟨s', h', by simp only [if_neg hframe, he']⟩

/-- What a JPEG says. -/
def verdict (bytes : Bytes) : Verdict :=
  if slice? bytes 0 2 = some [0xFF, 0xD8] then .recognized (sizeFrom? bytes 2) else .other

lemma finds_test (bytes : Bytes) : Finds Jpeg.test bytes (verdict bytes) := by
  intro s h
  obtain ⟨s₁, h₁, he₁, hp₁⟩ := h.readExact_seek 0 2
  obtain ⟨s₂, h₂, he₂⟩ := segments_of_holds h₁
  rw [Jpeg.test, he₁, verdict]
  by_cases hstart : slice? bytes 0 2 = some [0xFF, 0xD8]
  · rw [hp₁ (Option.isSome_iff_exists.mpr ⟨_, hstart⟩)] at he₂
    rw [if_pos hstart]
    exact ⟨s₂, h₂, (if_pos hstart).trans (Except.bind_eq_ok_iff.mpr ⟨_, he₂, rfl⟩)⟩
  · rw [if_neg hstart]
    exact ⟨s₁, h₁, if_neg hstart⟩

lemma verdict_of_not_prefix {bytes : Bytes} (h : ¬ [0xFF, 0xD8] <+: bytes) :
    verdict bytes = .other := by
  refine if_neg fun hstart => h ?_
  rw [← (slice?_eq_some_iff.mp hstart).2]
  exact List.take_prefix 2 bytes

end Jpeg

namespace Svg

/-- The bytes that are searched: the first lines of the first 64 KiB, joined. -/
def searched (bytes : Bytes) : Bytes :=
  joinLines (bytes.take headLimit)

lemma finds_test (bytes : Bytes) :
    Finds Svg.test bytes (verdict (decodeText (searched bytes))) := by
  intro s h
  obtain ⟨s', hs, he⟩ := test_eq s
  obtain ⟨head, extra, hhe, hhead, hx⟩ := h.headFrom headLimit headLines
  have hjoin : searched bytes = joinLines head := by
    rw [searched, hhe]
    rcases hx with rfl | hl
    · rw [List.append_nil]
    · exact joinLines_append hl extra
  refine ⟨s', h.congr hs, ?_⟩
  rw [he, hhead, hjoin]
  rfl

/-- An SVG always has a size: both edges that it tells, or else the one for all others. -/
lemma exists_of_verdict_eq_recognized {s : Text} {size : Option Size}
    (h : verdict s = .recognized size) :
    size = some fallbackSize ∨ ∃ width height,
      edge? ['w', 'i', 'd', 't', 'h'] s = some width ∧
      edge? ['h', 'e', 'i', 'g', 'h', 't'] s = some height ∧ size = some ⟨width, height⟩ := by
  rw [verdict] at h
  split at h
  · cases h
  · split at h
    · next width height hw hh =>
        cases h
        exact .inr ⟨width, height, hw, hh, rfl⟩
    · cases h
      exact .inl rfl

end Svg

/-! ### The first format that is recognized -/

/-- The size that the first format recognized tells. -/
def firstSize : List Verdict → Option Size
  | [] => none
  | .recognized size :: _ => size
  | .other :: verdicts => firstSize verdicts

lemma firstRecognized_of_finds {tests : List HeaderTest} {verdicts : List Verdict} {bytes : Bytes}
    (hf : List.Forall₂ (fun test v => Finds test bytes v) tests verdicts) {s : ByteStream}
    (h : s.Holds bytes) : firstRecognized s tests = .ok (firstSize verdicts) := by
  induction hf generalizing s with
  | nil => rfl
  | @cons test v tests verdicts hv hrest ih =>
      obtain ⟨s', h', he⟩ := hv s h
      rw [firstRecognized, he]
      cases v with
      | recognized size => rfl
      | other => exact ih h'

/-- What the five tests find in the bytes, in their order. -/
def verdicts (bytes : Bytes) : List Verdict :=
  [pngHeader.verdict bytes, gifHeader.verdict bytes, bmpHeader.verdict bytes, Jpeg.verdict bytes,
    Svg.verdict (decodeText (Svg.searched bytes))]

/-- **The size of an image is that of the first format recognized in its bytes.** -/
lemma probeBytes_eq (bytes : Bytes) : probeBytes bytes = firstSize (verdicts bytes) := by
  have hf : List.Forall₂ (fun test v => Finds test bytes v) headerTests (verdicts bytes) :=
    .cons (pngHeader.finds_test bytes) <| .cons (gifHeader.finds_test bytes) <|
      .cons (bmpHeader.finds_test bytes) <| .cons (Jpeg.finds_test bytes) <|
        .cons (Svg.finds_test bytes) .nil
  rw [probeBytes, probe, firstRecognized_of_finds hf (holds_ofBytes bytes)]

/-- The beginnings of the bytes of the formats that are no text. -/
def rasterSignatures : List Bytes :=
  [[0x89, 0x50, 0x4E, 0x47], [0x47, 0x49, 0x46], [0x42, 0x4D], [0xFF, 0xD8]]

/-- Bytes with none of these signatures have the size of an SVG, if they are one. -/
lemma probeBytes_of_not_raster {bytes : Bytes}
    (h : ∀ signature ∈ rasterSignatures, ¬ signature <+: bytes) :
    probeBytes bytes = firstSize [Svg.verdict (decodeText (Svg.searched bytes))] := by
  simp only [rasterSignatures, List.forall_mem_cons] at h
  obtain ⟨hpng, hgif, hbmp, hjpeg, -⟩ := h
  rw [probeBytes_eq, verdicts, FixedHeader.verdict_of_not_prefix hpng,
    FixedHeader.verdict_of_not_prefix hgif, FixedHeader.verdict_of_not_prefix hbmp,
    Jpeg.verdict_of_not_prefix hjpeg]
  rfl

/-- Bytes begin with at most one of the signatures. -/
lemma eq_of_rasterSignatures {a b bytes : Bytes} (ha : a ∈ rasterSignatures)
    (hb : b ∈ rasterSignatures) (hpa : a <+: bytes) (hpb : b <+: bytes) : a = b := by
  have hapart : ∀ a ∈ rasterSignatures, ∀ b ∈ rasterSignatures, a <+: b → a = b := by decide
  rcases List.prefix_or_prefix_of_prefix hpa hpb with h | h
  · exact hapart a ha b hb h
  · exact (hapart b hb a ha h).symm

/-- Bytes that begin with one of the signatures are of no other format at a fixed place. -/
lemma FixedHeader.verdict_of_signature {signature bytes : Bytes} (h : signature <+: bytes)
    (hs : signature ∈ rasterSignatures) {header : FixedHeader}
    (hh : header.signature ∈ rasterSignatures) (hne : header.signature ≠ signature) :
    header.verdict bytes = .other :=
  verdict_of_not_prefix fun hp => hne (eq_of_rasterSignatures hh hs hp h)

/-- No other format is considered for bytes that begin like a JPEG. -/
lemma probeBytes_of_jpeg {bytes : Bytes} (h : [0xFF, 0xD8] <+: bytes) :
    probeBytes bytes = Jpeg.sizeFrom? bytes 2 := by
  have hother := fun header : FixedHeader => header.verdict_of_signature h (by decide)
  obtain ⟨rest, rfl⟩ := h
  have hstart : slice? ([0xFF, 0xD8] ++ rest) 0 2 = some [0xFF, 0xD8] :=
    slice?_eq_some_iff.mpr ⟨by simp, rfl⟩
  rw [probeBytes_eq, verdicts, hother pngHeader (by decide) (by decide),
    hother gifHeader (by decide) (by decide), hother bmpHeader (by decide) (by decide),
    Jpeg.verdict, if_pos hstart]
  rfl

end DocImage
