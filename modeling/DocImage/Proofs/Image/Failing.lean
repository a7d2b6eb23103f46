import Mathlib
import DocImage.Proofs.Image.Probing

/-!
The size of an image in a stream that fails. A failure may say that the stream has ended, and then a
format whose signature would go on behind it counts as one that is not there; where the stream goes
on, it might be.

* `Svg.verdict_of_pngSignature`: the only signature that is longer than three bytes leaves no room
  for a mark of an SVG before such a failure.
* `probe_of_goesOn`: so a size found in a stream is found in every stream that has all that it has.
* `probe_of_failing`: a size found before a failure is decided by the bytes before the failure.
* `probeBytes_of_probe`: in particular it is the size that all bytes of the stream tell.
-/

namespace DocImage

open ByteStream

namespace ByteStream

variable {s s' t : ByteStream} {pos k n : Nat} {b : UInt8} {bytes : Bytes} {failure : ReadFailure}

/-! ### Where streams fail and end -/

lemma failAt_of_byteAt_eq_error (h : s.byteAt pos = .error failure) :
    ∃ F, s.failAt = some F ∧ F ≤ pos ∧ s.failure = failure := by
  rw [byteAt] at h
  split at h
  · next hany =>
      cases hF : s.failAt with
      | none =>
          rw [hF] at hany
          cases hany
      | some F =>
          rw [hF] at hany
          exact ⟨F, rfl, of_decide_eq_true hany, Except.error.inj h⟩
  · cases h

/-- A stream that fails goes on failing. -/
lemma byteAt_eq_error_of_le (h : s.byteAt pos = .error failure) (hle : pos ≤ k) :
    s.byteAt k = .error failure := by
  obtain ⟨F, hF, hpos, hfailure⟩ := failAt_of_byteAt_eq_error h
  rw [byteAt, hF, Option.any_some, if_pos (decide_eq_true (hpos.trans hle)), hfailure]

/-- A stream has all the bytes before one that it has. -/
lemma exists_has_of_byteAt (h : s.byteAt k = .ok (some b)) :
    ∃ bytes : Bytes, bytes.length = k + 1 ∧ s.Has 0 bytes := by
  rw [byteAt] at h
  split at h
  · cases h
  · next hno =>
      refine ⟨s.data.toList.take (k + 1), ?_, fun i c hc => ?_⟩
      · split at h
        · cases h
        · obtain ⟨hk, -⟩ := Array.getElem?_eq_some_iff.mp (Except.ok.inj h)
          rw [List.length_take, Array.length_toList]
          omega
      rw [List.getElem?_take, Array.getElem?_toList] at hc
      split at hc
      · next hi =>
          have hbefore : s.failAt.any (· ≤ i) = false := by
            rw [Option.any_eq_false]
            intro F hF
            rw [hF, Option.any_some, decide_eq_true_eq] at hno
            exact decide_eq_false (by omega)
          have hlimit : s.limit ≠ 0 := fun hl => by
            rw [if_pos hl] at h
            cases h
          rw [Nat.zero_add, byteAt, hbefore, if_neg hlimit, hc]
          rfl
      · cases hc

/-- Of the bytes that a stream has the fewer ones come first. -/
lemma Has.prefix {other : Bytes} (h : s.Has pos bytes) (ho : s.Has pos other)
    (hl : bytes.length ≤ other.length) : bytes <+: other := by
  refine List.prefix_iff_getElem?.mpr fun i hi => ?_
  have hb := h i _ (List.getElem?_eq_getElem hi)
  rw [ho i _ (List.getElem?_eq_getElem (hi.trans_le hl))] at hb
  rw [List.getElem?_eq_getElem (hi.trans_le hl)]
  exact Except.ok.inj hb

lemma Has.take (h : s.Has pos bytes) (n : Nat) : s.Has pos (bytes.take n) := by
  intro i c hc
  rw [List.getElem?_take] at hc
  split at hc
  · exact h i c hc
  · cases hc

lemma has_of_bytesFrom (h : s.bytesFrom pos n = .ok (some bytes)) :
    s.Has pos bytes ∧ bytes.length = n := by
  induction n generalizing pos bytes with
  | zero =>
      cases h
      exact ⟨nofun, rfl⟩
  | succ n ih =>
      rw [bytesFrom] at h
      split at h
      · cases h
      · cases h
      · cases h
      · next b hb =>
          obtain ⟨r, hr, hmap⟩ := Except.map_eq_ok_iff.mp h
          obtain ⟨rest, rfl, rfl⟩ := Option.map_eq_some_iff.mp hmap
          obtain ⟨hrest, rfl⟩ := ih hr
          refine ⟨fun i c hc => ?_, rfl⟩
          cases i with
          | zero =>
              obtain rfl : b = c := by simpa using hc
              exact hb
          | succ i =>
              have := hrest i c (by simpa using hc)
              rwa [show pos + 1 + i = pos + (i + 1) by omega] at this

lemma byteAt_of_readExact {r : Option Bytes} (h : s.readExact n = .ok (r, s')) :
    s'.byteAt = s.byteAt := by
  obtain ⟨s₁, hs, he, -⟩ := readExact_eq s n
  rw [he] at h
  obtain ⟨r, -, hr⟩ := Except.map_eq_ok_iff.mp h
  cases hr
  exact hs

/-- What is read stands in the stream. -/
lemma has_of_readExact (h : s.readExact n = .ok (some bytes, s')) :
    s.Has s.position bytes ∧ bytes.length = n := by
  obtain ⟨s₁, -, he, -⟩ := readExact_eq s n
  rw [he] at h
  obtain ⟨r, hr, hs⟩ := Except.map_eq_ok_iff.mp h
  cases hs
  exact has_of_bytesFrom hr

/-- A stream whose failures all say that it has ended is read as far as it goes. -/
lemma exists_bytesFrom (h : ∀ k, s.byteAt k ≠ .error .failed) (pos n : Nat) :
    ∃ r, s.bytesFrom pos n = .ok r := by
  induction n generalizing pos with
  | zero => exact ⟨_, rfl⟩
  | succ n ih =>
      rw [bytesFrom]
      split
      · next hb => exact absurd hb (h pos)
      · exact ⟨_, rfl⟩
      · exact ⟨_, rfl⟩
      · obtain ⟨r, hr⟩ := ih (pos + 1)
        exact ⟨_, by rw [hr]; rfl⟩

lemma exists_readExact (h : ∀ k, s.byteAt k ≠ .error .failed) (n : Nat) :
    ∃ r s', s.readExact n = .ok (r, s') := by
  obtain ⟨s', -, he, -⟩ := readExact_eq s n
  obtain ⟨r, hr⟩ := exists_bytesFrom h s.position n
  exact ⟨r, s', by rw [he, hr]; rfl⟩

/-- Lines that are found before a failure are all before it. -/
lemma prefix_of_headFrom {room lines : Nat} {head : Bytes} (h : s.Has 0 bytes)
    (hend : s.byteAt bytes.length = .error failure) (hroom : bytes.length < room)
    (hh : s.headFrom 0 room lines = .ok head) : head <+: bytes ∧ lines ≤ head.count lineFeed := by
  obtain ⟨more, rfl⟩ := Nat.exists_eq_add_of_lt hroom
  rw [Nat.add_assoc] at hh
  by_cases hl : bytes.count lineFeed < lines
  · obtain ⟨wanted, hw⟩ := Nat.exists_eq_succ_of_ne_zero (Nat.sub_ne_zero_of_lt hl)
    rw [headFrom_append h hl, hw, Nat.zero_add, headFrom, hend] at hh
    cases hh
  · obtain ⟨found, extra, rfl, hc, hf⟩ := headFrom_of_le_count h (not_lt.mp hl) (more + 1)
    obtain rfl := Except.ok.inj (hf.symm.trans hh)
    exact ⟨List.prefix_append _ _, hc⟩

end ByteStream

/-! ### Images that are told by their signatures -/

/-- A test that knows its format by a signature. Where the signature is not there, the stream stays
as it is, and a size stands far enough in it that all signatures are before its end. -/
structure IsRaster (test : HeaderTest) : Prop where
  byteAt_eq : ∀ {s s' : ByteStream}, test s = .ok (.other, s') → s'.byteAt = s.byteAt
  reaches : ∀ {s s' : ByteStream} {size : Size}, test s = .ok (.recognized (some size), s') →
    ∃ pos b, signatureLimit ≤ pos + 1 ∧ s.byteAt pos = .ok (some b)

/-- It finds no size before a failure among the first bytes. -/
lemma IsRaster.ne_recognized {test : HeaderTest} (htest : IsRaster test) {s : ByteStream}
    {failure : ReadFailure} (hend : s.byteAt (signatureLimit - 1) = .error failure) (size : Size)
    (s' : ByteStream) : test s ≠ .ok (.recognized (some size), s') := by
  intro h
  obtain ⟨pos, b, hpos, hb⟩ := htest.reaches h
  cases (byteAt_eq_error_of_le hend (Nat.sub_le_of_le_add hpos)).symm.trans hb

/-- The last byte that is read stands in the stream. -/
lemma ByteStream.exists_byteAt_of_readExact {s s' : ByteStream} {n : Nat} {bytes : Bytes}
    (h : s.readExact (n + 1) = .ok (some bytes, s')) :
    ∃ b, s.byteAt (s.position + n) = .ok (some b) := by
  obtain ⟨hhas, hl⟩ := has_of_readExact h
  exact ⟨bytes[n], hhas n _ (List.getElem?_eq_getElem (by omega))⟩

lemma FixedHeader.isRaster_test {header : FixedHeader} {n : Nat} (hn : header.sizeLength = n + 1)
    (hl : signatureLimit ≤ header.sizeOffset + header.sizeLength) : IsRaster header.test where
  byteAt_eq {s s'} h := by
    rw [FixedHeader.test] at h
    obtain ⟨⟨start, s₁⟩, hr, h⟩ := Except.bind_eq_ok_iff.mp h
    cases start with
    | none =>
        cases h
        exact byteAt_of_readExact (s := s.seek 0) hr
    | some start =>
        dsimp only at h
        split at h
        · obtain ⟨⟨bytes, s₂⟩, -, h⟩ := Except.bind_eq_ok_iff.mp h
          cases h
        · cases h
          exact byteAt_of_readExact (s := s.seek 0) hr
  reaches {s s' size} h := by
    rw [FixedHeader.test] at h
    obtain ⟨⟨start, s₁⟩, hr, h⟩ := Except.bind_eq_ok_iff.mp h
    have hs₁ : s₁.byteAt = s.byteAt := byteAt_of_readExact (s := s.seek 0) hr
    cases start with
    | none => cases h
    | some start =>
        dsimp only at h
        split at h
        · obtain ⟨⟨bytes, s₂⟩, hr₂, h⟩ := Except.bind_eq_ok_iff.mp h
          have hsize := Verdict.recognized.inj (Prod.mk.inj (Except.ok.inj h)).1
          obtain ⟨part, rfl, -⟩ := Option.bind_eq_some_iff.mp hsize
          rw [hn] at hr₂ hl
          obtain ⟨b, hb⟩ := exists_byteAt_of_readExact hr₂
          exact ⟨header.sizeOffset + n, b, hl, hs₁ ▸ hb⟩
        · cases h

namespace Jpeg

/-- A walk that finds a size begins with two bytes that tell a segment. -/
lemma exists_readExact_of_segments {s s' : ByteStream} {size : Size}
    (h : segments s = .ok (some size, s')) :
    ∃ start marker s₁, s.readExact 2 = .ok (some [start, marker], s₁) ∧
      ¬ (start ≠ 0xFF ∨ isLast marker) := by
  rw [segments.eq_def] at h
  split at h
  · cases h
  · next start marker s₁ hr =>
      split at h
      · cases h
      · next hend => exact ⟨start, marker, s₁, hr, hend⟩
  · cases h

/-- A walk that finds a size goes over six bytes at least. -/
lemma exists_byteAt_of_segments {s s' : ByteStream} {size : Size}
    (h : segments s = .ok (some size, s')) :
    ∃ pos b, s.position + 5 ≤ pos ∧ s.byteAt pos = .ok (some b) := by
  obtain ⟨start, marker, s₁, hr, hend⟩ := exists_readExact_of_segments h
  rw [segments_of_segment hr hend] at h
  split at h
  · cases h
  · cases h
  · next length s₂ hr₂ =>
      have hs₂ : s₂.byteAt = s.byteAt := (byteAt_of_readExact hr₂).trans (byteAt_of_readExact hr)
      have hp₂ : s₂.position = s.position + 4 := by
        rw [(readExact_spec hr₂).2.1, (readExact_spec hr).2.1]
      split at h
      · cases h
      · split at h
        · obtain ⟨⟨part, s₃⟩, hr₃, h⟩ := Except.map_eq_ok_iff.mp h
          obtain ⟨bytes, rfl, -⟩ := Option.bind_eq_some_iff.mp (Prod.mk.inj h).1
          obtain ⟨b, hb⟩ := exists_byteAt_of_readExact hr₃
          exact ⟨_, b, by omega, hs₂ ▸ hb⟩
        · -- the next segment begins behind the four bytes of this one
          obtain ⟨_, _, _, hr₃, -⟩ := exists_readExact_of_segments h
          obtain ⟨b, hb⟩ := exists_byteAt_of_readExact hr₃
          refine ⟨_, b, ?_, hs₂ ▸ hb⟩
          simp only [skip, seek]
          omega

lemma isRaster_test : IsRaster Jpeg.test where
  byteAt_eq {s s'} h := by
    rw [Jpeg.test] at h
    obtain ⟨⟨start, s₁⟩, hr, h⟩ := Except.bind_eq_ok_iff.mp h
    dsimp only at h
    split at h
    · obtain ⟨⟨size, s₂⟩, -, h⟩ := Except.bind_eq_ok_iff.mp h
      cases h
    · cases h
      exact byteAt_of_readExact (s := s.seek 0) hr
  reaches {s s' size} h := by
    rw [Jpeg.test] at h
    obtain ⟨⟨start, s₁⟩, hr, h⟩ := Except.bind_eq_ok_iff.mp h
    dsimp only at h
    split at h
    · next hstart =>
        subst hstart
        obtain ⟨⟨found, s₂⟩, hw, h⟩ := Except.bind_eq_ok_iff.mp h
        cases h
        obtain ⟨pos, b, hpos, hb⟩ := exists_byteAt_of_segments hw
        rw [(readExact_spec hr).2.1] at hpos
        exact ⟨pos, b, Nat.succ_le_succ hpos, byteAt_of_readExact (s := s.seek 0) hr ▸ hb⟩
    · cases h

end Jpeg

/-- The tests that know their formats by signatures. -/
def rasterTests : List HeaderTest :=
  [pngHeader.test, gifHeader.test, bmpHeader.test, Jpeg.test]

lemma isRaster_of_mem_rasterTests : ∀ test ∈ rasterTests, IsRaster test := by
  simp only [rasterTests, List.forall_mem_cons, List.not_mem_nil, false_imp_iff, implies_true,
    and_true]
  exact ⟨FixedHeader.isRaster_test (n := 7) rfl (by decide),
    FixedHeader.isRaster_test (n := 3) rfl (by decide),
    FixedHeader.isRaster_test (n := 7) rfl (by decide), Jpeg.isRaster_test⟩

/-- Before a failure among the first bytes it is only the last test that finds a size. -/
lemma exists_last_of_firstRecognized {tests : List HeaderTest} {last : HeaderTest}
    (htests : ∀ test ∈ tests, IsRaster test) {s : ByteStream} {failure : ReadFailure}
    (hend : s.byteAt (signatureLimit - 1) = .error failure) {size : Size}
    (h : firstRecognized s (tests ++ [last]) = .ok (some size)) :
    ∃ s₁ s' : ByteStream, s₁.byteAt = s.byteAt ∧ last s₁ = .ok (.recognized (some size), s') := by
  induction tests generalizing s with
  | nil =>
      obtain ⟨⟨v, s'⟩, hr, h⟩ := Except.bind_eq_ok_iff.mp h
      cases v with
      | other => cases h
      | recognized found =>
          cases h
          exact ⟨s, s', rfl, hr⟩
  | cons test tests ih =>
      obtain ⟨htest, htests⟩ := List.forall_mem_cons.mp htests
      obtain ⟨⟨v, s₁⟩, hr, h⟩ := Except.bind_eq_ok_iff.mp h
      cases v with
      | other =>
          have hs₁ := htest.byteAt_eq hr
          obtain ⟨s₂, s', hs₂, hlast⟩ := ih htests (hs₁ ▸ hend) h
          exact ⟨s₂, s', hs₂.trans hs₁, hlast⟩
      | recognized found =>
          cases h
          exact absurd hr (htest.ne_recognized hend size s₁)

/-! ### A signature that is cut off -/

namespace Svg

/-- Between the signature of a PNG and the eighth byte there is room for three line ends and for
nothing else. -/
lemma verdict_of_pngSignature {head start : Bytes} (hhead : head <+: start)
    (hsig : start.take pngHeader.signature.length = pngHeader.signature)
    (hlen : head.length < signatureLimit) (hl : headLines ≤ head.count lineFeed) :
    verdict (decodeText (joinLines head)) = .other := by
  have hfirst : head.take 4 <+: pngHeader.signature := by
    rw [← hsig]
    exact hhead.take 4
  have hcount : head.count lineFeed =
      (head.take 4).count lineFeed + (head.drop 4).count lineFeed := by
    rw [← List.count_append, List.take_append_drop]
  have hnone : (head.take 4).count lineFeed = 0 :=
    Nat.le_zero.mp (hfirst.sublist.count_le lineFeed)
  have hrest : (head.drop 4).length ≤ 3 := by
    rw [List.length_drop]
    rw [signatureLimit] at hlen
    omega
  have hle := List.count_le_length (a := lineFeed) (l := head.drop 4)
  rw [headLines] at hl
  have heq : (head.drop 4).count lineFeed = (head.drop 4).length := by omega
  have hall : head.drop 4 = List.replicate 3 lineFeed :=
    List.eq_replicate_iff.mpr ⟨by omega, fun b hb => (List.count_eq_length.mp heq b hb).symm⟩
  have hsignature : head.take 4 = pngHeader.signature := by
    refine hfirst.eq_of_length ?_
    have hdrop := congrArg List.length hall
    rw [List.length_drop, List.length_replicate] at hdrop
    rw [List.length_take]
    change min 4 head.length = 4
    omega
  rw [← List.take_append_drop 4 head, hall, hsignature]
  cbv

end Svg

/-- Where a stream is said to end and another goes on, the bytes before that are in both. -/
lemma ByteStream.Continues.exists_has {ends : Nat → Prop} {s t : ByteStream} {k : Nat} {b : UInt8}
    (h : t.Continues ends s) (hs : s.byteAt k = .error .unexpectedEnd)
    (ht : t.byteAt k = .ok (some b)) :
    ∃ bytes : Bytes, bytes.length ≤ k ∧ s.byteAt bytes.length = .error .unexpectedEnd ∧
      s.Has 0 bytes ∧ t.Has 0 bytes := by
  obtain ⟨F, hF, hle, hkind⟩ := failAt_of_byteAt_eq_error hs
  obtain ⟨bytes, hl, hhas⟩ := exists_has_of_byteAt ht
  have hlen : (bytes.take F).length = F := by
    rw [List.length_take]
    omega
  refine ⟨bytes.take F, by omega, ?_, fun i c hc => ?_, hhas.take F⟩
  · rw [hlen, ByteStream.byteAt, hF, Option.any_some, if_pos (decide_eq_true (le_refl F)), hkind]
  · have hi : i < F := hlen ▸ (List.getElem?_eq_some_iff.mp hc).1
    have htb := hhas.take F i c hc
    cases hsi : s.byteAt (0 + i) with
    | error e =>
        obtain ⟨G, hG, hGi, -⟩ := failAt_of_byteAt_eq_error hsi
        rw [hF] at hG
        cases hG
        omega
    | ok x => exact congrArg _ (Except.ok.inj ((h.goesOn hsi).symm.trans htb))

/-- A PNG is not recognized behind a failure before which an SVG is. -/
lemma pngHeader_test_eq_other {t : ByteStream} (ht : ∀ k, t.byteAt k ≠ .error .failed)
    {bytes head : Bytes} (hbytes : t.Has 0 bytes) (hlen : bytes.length < signatureLimit)
    (hhead : head <+: bytes) (hl : Svg.headLines ≤ head.count lineFeed)
    (hsvg : Svg.verdict (decodeText (Svg.joinLines head)) ≠ .other) :
    ∃ t', pngHeader.test t = .ok (.other, t') ∧ t'.byteAt = t.byteAt := by
  obtain ⟨r, t', hr⟩ := exists_readExact (s := t.seek 0) ht pngHeader.signatureLength
  refine ⟨t', ?_, byteAt_of_readExact (s := t.seek 0) hr⟩
  rw [FixedHeader.test, hr]
  cases r with
  | none => rfl
  | some start =>
      obtain ⟨hstart, hlength⟩ := has_of_readExact hr
      have hprefix : bytes <+: start := hbytes.prefix hstart (hlength ▸ hlen.le)
      refine if_neg fun hsig => hsvg ?_
      exact Svg.verdict_of_pngSignature (hhead.trans hprefix) hsig
        (hhead.length_le.trans_lt hlen) hl

/-- The lines in which the test finds something. -/
lemma Svg.exists_head {s s' : ByteStream} {v : Verdict} (h : Svg.test s = .ok (v, s')) :
    ∃ head, s.headFrom 0 headLimit headLines = .ok head ∧
      v = verdict (decodeText (joinLines head)) := by
  obtain ⟨s₁, -, he⟩ := Svg.test_eq s
  rw [he] at h
  obtain ⟨head, hh, hv⟩ := Except.map_eq_ok_iff.mp h
  exact ⟨head, hh, (Prod.mk.inj hv).1.symm⟩

/-- A size that is found before a signature is cut off is found where the stream goes on. -/
lemma firstRecognized_of_cutOff {s t : ByteStream} {bytes : Bytes}
    (h : t.Continues (fun _ => False) s) (ht : ∀ k, t.byteAt k ≠ .error .failed)
    (hlen : bytes.length < signatureLimit) (hend : s.byteAt bytes.length = .error .unexpectedEnd)
    (hs : s.Has 0 bytes) (hbytes : t.Has 0 bytes) {size : Size}
    (hfirst : firstRecognized s headerTests = .ok (some size)) :
    firstRecognized t headerTests = .ok (some size) := by
  have hlast := byteAt_eq_error_of_le hend (Nat.le_sub_one_of_lt hlen)
  -- so it is an SVG, with three line ends before the cut
  obtain ⟨s₁, s₂, hs₁, hsvg⟩ : ∃ s₁ s₂ : ByteStream, s₁.byteAt = s.byteAt ∧
      Svg.test s₁ = .ok (.recognized (some size), s₂) :=
    exists_last_of_firstRecognized isRaster_of_mem_rasterTests hlast hfirst
  obtain ⟨head, hh, hv⟩ := Svg.exists_head hsvg
  rw [headFrom_congr hs₁] at hh
  obtain ⟨hhead, hl⟩ := prefix_of_headFrom hs hend (hlen.trans (by decide)) hh
  obtain ⟨t₁, htpng, ht₁⟩ := pngHeader_test_eq_other ht hbytes hlen hhead hl (hv ▸ nofun)
  have hthree : 3 ≤ bytes.length := (hl.trans List.count_le_length).trans hhead.length_le
  obtain ⟨⟨v, s₃⟩, hspng, hfirst⟩ := Except.bind_eq_ok_iff.mp hfirst
  have hpng : IsRaster pngHeader.test := isRaster_of_mem_rasterTests _ List.mem_cons_self
  cases v with
  | recognized found =>
      cases hfirst
      exact absurd hspng (hpng.ne_recognized hlast size s₃)
  | other =>
      have h₁ : t₁.Continues (· < 3) s₃ := by
        refine .congr ⟨h.goesOn, fun {k} hk hx => ?_⟩ (hpng.byteAt_eq hspng) ht₁
        have := hs k _ (List.getElem?_eq_getElem (hk.trans_le hthree))
        rw [Nat.zero_add, hx] at this
        cases this
      have hsteady : ∀ test ∈ [gifHeader.test, bmpHeader.test, Jpeg.test, Svg.test],
          IsSteady 3 test := by
        simp only [List.forall_mem_cons, List.not_mem_nil, false_imp_iff, implies_true, and_true]
        exact ⟨gifHeader.isSteady_test, bmpHeader.isSteady_test.mono (by decide),
          Jpeg.isSteady_test.mono (by decide), Svg.isSteady_test.mono (by decide)⟩
      refine Except.bind_eq_ok_iff.mpr ⟨_, htpng, ?_⟩
      exact firstRecognized_of_continues hsteady h₁ hfirst (fun _ hk => hk) nofun

/-! ### The size of an image before a failure -/

/-- **A size found in a stream is found in every stream that goes on with more**, unless the one is
only said to have ended where the other fails. -/
lemma probe_of_goesOn {s t : ByteStream} (h : t.Continues (fun _ => False) s)
    (hkind : s.failure = .failed ∨ ∀ k, t.byteAt k ≠ .error .failed) {size : Size}
    (hs : probe s = some size) : probe t = some size := by
  by_cases hall : ∀ k < signatureLimit, s.byteAt k = .error .unexpectedEnd →
      t.byteAt k = .ok none ∨ t.byteAt k = .error .unexpectedEnd
  · have hc : t.Continues (· < signatureLimit) s := ⟨h.goesOn, fun hk => hall _ hk⟩
    exact probe_of_continues hc (fun _ hk => hk) hs
  -- the other stream goes on where a signature is cut off
  push Not at hall
  obtain ⟨k, hk, hend, hnone, hunexpected⟩ := hall
  have ht : ∀ k, t.byteAt k ≠ .error .failed := by
    obtain ⟨-, -, -, hsoft⟩ := failAt_of_byteAt_eq_error hend
    exact hkind.resolve_left fun hhard => by
      rw [hhard] at hsoft
      cases hsoft
  obtain ⟨b, hb⟩ : ∃ b, t.byteAt k = .ok (some b) := by
    cases hk : t.byteAt k with
    | error e =>
        cases e with
        | failed => exact absurd hk (ht k)
        | unexpectedEnd => exact absurd hk hunexpected
    | ok x =>
        cases x with
        | none => exact absurd hk hnone
        | some b => exact ⟨b, rfl⟩
  obtain ⟨bytes, hle, hcut, hsbytes, htbytes⟩ := h.exists_has hend hb
  rw [probe_eq_some_iff] at hs ⊢
  exact firstRecognized_of_cutOff h ht (hle.trans_lt hk) hcut hsbytes htbytes hs

/-- A stream with a size delivers something. -/
lemma limit_ne_zero_of_probe {s : ByteStream} {size : Size} (hs : probe s = some size) :
    s.limit ≠ 0 := by
  intro hl
  have h : (ofBytes []).Continues (fun _ => True) s := by
    have hnone : ∀ pos, (ofBytes []).byteAt pos = .ok none := fun _ => rfl
    refine ⟨fun {pos x} hx => ?_, fun _ _ => .inl (hnone _)⟩
    rw [byteAt, if_pos hl] at hx
    split at hx
    · cases hx
    · exact (hnone pos).trans hx
  have hnil : probe (ofBytes []) = none := by cbv
  cases hnil.symm.trans (probe_of_continues h (fun _ _ => trivial) hs)

/-- A stream that begins with the same bytes and does not fail before them goes on where one fails
behind these bytes. -/
lemma continues_of_take_eq {s t : ByteStream} {F : Nat} (hf : s.failAt = some F)
    (hs : s.limit ≠ 0) (ht : t.limit ≠ 0)
    (htake : t.data.toList.take F = s.data.toList.take F) (hfail : ∀ G ∈ t.failAt, F ≤ G) :
    t.Continues (fun _ => False) s := by
  refine ⟨fun {pos x} hx => ?_, fun hno => hno.elim⟩
  rw [byteAt, hf, if_neg hs] at hx
  split at hx
  · cases hx
  · next hlt =>
      have hpos : pos < F := by simpa using hlt
      have hbyte : t.data[pos]? = s.data[pos]? := by
        have := congrArg (·[pos]?) htake
        simpa only [List.getElem?_take, if_pos hpos, Array.getElem?_toList] using this
      have hno : t.failAt.any (· ≤ pos) = false := by
        rw [Option.any_eq_false]
        intro G hG
        have := hfail G hG
        exact decide_eq_false (by omega)
      rw [byteAt, hno, if_neg ht, hbyte]
      exact hx

/-- A size found in a stream that fails is found in every stream with the same bytes before the
failure, unless that one only fails where the other is said to have ended. -/
lemma probe_of_take_eq {s t : ByteStream} {F : Nat} (hf : s.failAt = some F) (ht : t.limit ≠ 0)
    (htake : t.data.toList.take F = s.data.toList.take F)
    (hfail : ∀ G ∈ t.failAt, F ≤ G ∧ (s.failure = .unexpectedEnd → t.failure = .unexpectedEnd))
    {size : Size} (hs : probe s = some size) : probe t = some size := by
  have hgoesOn := continues_of_take_eq hf (limit_ne_zero_of_probe hs) ht htake fun G hG =>
    (hfail G hG).1
  refine probe_of_goesOn hgoesOn ?_ hs
  cases hkind : s.failure with
  | failed => exact .inl rfl
  | unexpectedEnd =>
      refine .inr fun k hk => ?_
      obtain ⟨G, hG, -, hkind'⟩ := failAt_of_byteAt_eq_error hk
      rw [(hfail G hG).2 hkind] at hkind'
      cases hkind'

lemma probeBytes_of_take_eq {s : ByteStream} {F : Nat} (hf : s.failAt = some F) {size : Size}
    (hs : probe s = some size) {bytes : Bytes} (htake : bytes.take F = s.data.toList.take F) :
    probeBytes bytes = some size :=
  probe_of_take_eq (t := ofBytes bytes) hf (Nat.succ_ne_zero _) htake (by simp [ofBytes]) hs

/-- A size found in a stream is the one that its bytes tell. -/
lemma probeBytes_of_probe {s : ByteStream} {size : Size} (h : probe s = some size) :
    probeBytes s.data.toList = some size := by
  cases hf : s.failAt with
  | some F => exact probeBytes_of_take_eq hf h rfl
  | none => exact (probe_congr (byteAt_ofBytes hf (limit_ne_zero_of_probe h))).trans h

/-- **A size found before a failure is decided by the bytes before the failure.** Where reads fail
from the position `F` on, and whether or not they say that the stream has ended, a size that is
found is that of all data with the same first `F` bytes, in a stream that does not fail as well as
in one that fails later in the same way. So a failure never makes a size wrong, and what stands
behind the header never changes it. -/
theorem probe_of_failing (s : ByteStream) (F : Nat) (hf : s.failAt = some F) :
    (∀ size, probe s = some size → ∀ bytes : Bytes,
      bytes.take F = s.data.toList.take F → probeBytes bytes = some size) ∧
    (probe s = none ∨ probe s = probeBytes s.data.toList) ∧
    (∀ size, probe s = some size → ∀ t : ByteStream, 1 ≤ t.limit →
      t.data.toList.take F = s.data.toList.take F →
      (∀ G ∈ t.failAt, F ≤ G ∧ (s.failure = .unexpectedEnd → t.failure = .unexpectedEnd)) →
      probe t = some size) := by
  refine ⟨fun size hs bytes htake => probeBytes_of_take_eq hf hs htake, ?_,
    fun size hs t ht htake hfail => ?_⟩
  · cases hs : probe s with
    | none => exact .inl rfl
    | some size => exact .inr (probeBytes_of_take_eq hf hs rfl).symm
  · exact probe_of_take_eq hf (Nat.one_le_iff_ne_zero.mp ht) htake hfail hs

/-- The signature of a PNG would go on behind the failure. It is not there if the stream is said to
have ended, and the three lines are searched. -/
example :
    let s (failure : ReadFailure) : ByteStream :=
      { data := #[0x3C, 0x73, 0x76, 0x67, 0x0A, 0x0A, 0x0A], failAt := some 7, failure := failure }
    probe (s .unexpectedEnd) = some ⟨64, 64⟩ ∧ probe (s .failed) = none :=
  ⟨by cbv, by cbv⟩

/-- A BMP whose stream fails right behind its size: the size is that of all data that begins so. -/
theorem probe_of_failing_behind_size :
    ∃ s : ByteStream, s.failAt = some 26 ∧ s.limit = 4 ∧ s.data.size = 28 ∧
      s.data.toList.take 26 = [0x42, 0x4D, 0, 0, 0, 0, 0, 0, 0, 0, 0, 0, 0, 0, 0, 0, 0, 0,
        0x64, 0, 0, 0, 0xCE, 0xFF, 0xFF, 0xFF] ∧
      probe s = some ⟨100, 50⟩ ∧
      ∀ rest, probeBytes (s.data.toList.take 26 ++ rest) = some ⟨100, 50⟩ := by
  let s : ByteStream :=
    { data := #[0x42, 0x4D, 0, 0, 0, 0, 0, 0, 0, 0, 0, 0, 0, 0, 0, 0, 0, 0,
        0x64, 0, 0, 0, 0xCE, 0xFF, 0xFF, 0xFF, 1, 2]
      limit := 4
      failAt := some 26 }
  have hs : probe s = some ⟨100, 50⟩ := by cbv
  exact ⟨s, rfl, rfl, rfl, rfl, hs, fun rest => (probe_of_failing s 26 rfl).1 _ hs _ (by simp [s])⟩

end DocImage
