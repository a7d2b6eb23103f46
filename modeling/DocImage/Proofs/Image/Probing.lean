import Mathlib
import DocImage.Image.Probe
import DocImage.Proofs.Image.Delivery

/-!
The size of an image depends on the bytes of its stream, and on nothing else about the stream.

* `IsSteady` is what every test for a format keeps: whatever it finds in a stream, it finds in every
  stream that continues that one. `firstRecognized_of_continues` puts the tests together.
* `probe_eq_probeBytes`: a stream that does not fail has the size that its bytes tell, however they
  are delivered.
-/

namespace DocImage

open ByteStream

/-! ### The tests -/

/-- A test is steady if what it finds in a stream it finds in every stream that continues it. The
two must end alike among the first `n` bytes, by which the test knows its format, and everywhere if
the format is there without a size. -/
def IsSteady (n : Nat) (test : HeaderTest) : Prop :=
  ∀ ⦃ends : Nat → Prop⦄ ⦃s t s' : ByteStream⦄ ⦃v : Verdict⦄, t.Continues ends s →
    test s = .ok (v, s') → (∀ k < n, ends k) → (v = .recognized none → ∀ k, ends k) →
    ∃ t', test t = .ok (v, t') ∧ t'.Continues ends s'

lemma IsSteady.mono {m n : Nat} {test : HeaderTest} (h : IsSteady m test) (hle : m ≤ n) :
    IsSteady n test :=
  fun _ _ _ _ _ hc hs hn => h hc hs fun k hk => hn k (Nat.lt_of_lt_of_le hk hle)

lemma ByteStream.Continues.seek {ends : Nat → Prop} {s t : ByteStream} (h : t.Continues ends s)
    (pos : Nat) : (t.seek pos).Continues ends (s.seek pos) :=
  ⟨h.goesOn, h.ends⟩

lemma FixedHeader.isSteady_test (header : FixedHeader) :
    IsSteady header.signatureLength header.test := by
  intro ends s t s' v h hs hn hsize
  rw [FixedHeader.test] at hs ⊢
  obtain ⟨⟨start, s₁⟩, hr, hs⟩ := Except.bind_eq_ok_iff.mp hs
  obtain ⟨t₁, ht, h₁, -⟩ := (h.seek 0).readExact rfl hr fun _ k _ hk =>
    hn k (Nat.zero_add header.signatureLength ▸ hk)
  rw [ht]
  cases start with
  | none =>
      cases hs
      exact ⟨t₁, rfl, h₁⟩
  | some start =>
      dsimp only at hs
      split at hs
      · next hsig =>
          obtain ⟨⟨bytes, s₂⟩, hr₂, hs⟩ := Except.bind_eq_ok_iff.mp hs
          cases hs
          obtain ⟨t₂, ht₂, h₂, -⟩ := (h₁.seek header.sizeOffset).readExact rfl hr₂
            fun hnone k _ _ => hsize (by rw [hnone]; rfl) k
          exact ⟨t₂, (if_pos hsig).trans (Except.bind_eq_ok_iff.mpr ⟨_, ht₂, rfl⟩), h₂⟩
      · next hsig =>
          cases hs
          exact ⟨t₁, if_neg hsig, h₁⟩

namespace Jpeg

section Segments

variable {s s₁ : ByteStream} {start marker : UInt8}

/-- The walk along the segments ends where no segment begins. -/
lemma segments_of_end (hr : s.readExact 2 = .ok (some [start, marker], s₁))
    (hend : start ≠ 0xFF ∨ isLast marker) : segments s = .ok (none, s₁) := by
  rw [segments.eq_def, hr]
  exact if_pos hend

/-- A segment tells a size or is passed over. -/
lemma segments_of_segment (hr : s.readExact 2 = .ok (some [start, marker], s₁))
    (hend : ¬ (start ≠ 0xFF ∨ isLast marker)) :
    segments s =
      match s₁.readExact 2 with
      | .error e => .error e
      | .ok (none, s₂) => .ok (none, s₂)
      | .ok (some length, s₂) =>
        if bigEndian length < 2 then .ok (none, s₂)
        else if isFrame marker then (s₂.readExact 5).map fun r => (r.1.bind frameSize?, r.2)
        else segments (s₂.skip (bigEndian length - 2)) := by
  rw [segments.eq_def, hr]
  simp only [if_neg hend]
  cases hr₂ : s₁.readExact 2 with
  | error e => rfl
  | ok p =>
      obtain ⟨_ | length, s₂⟩ := p
      · rfl
      · cases hr₃ : s₂.readExact 5 with
        | error e => simp only [hr₃, Except.map]
        | ok q => simp only [hr₃, Except.map]

end Segments

/-- The walk along the segments of a JPEG finds the same in a stream that continues the one walked.
-/
lemma segments_of_continues {ends : Nat → Prop} {s t s' : ByteStream} {size : Option Size}
    (h : t.Continues ends s) (hp : t.position = s.position) (hs : segments s = .ok (size, s'))
    (hsize : size = none → ∀ k, ends k) :
    ∃ t', segments t = .ok (size, t') ∧ t'.Continues ends s' := by
  fun_induction segments s generalizing t with
  | case1 s e hr => cases hs
  | case2 s start marker s₁ hr hend =>
      obtain ⟨t₁, ht, h₁, -⟩ := h.readExact hp hr nofun
      cases hs
      exact ⟨t₁, segments_of_end ht hend, h₁⟩
  | case3 s start marker s₁ hr hend e hr₂ => cases hs
  | case4 s start marker s₁ hr hend s₂ hr₂ =>
      cases hs
      obtain ⟨t₁, ht, h₁, hp₁⟩ := h.readExact hp hr nofun
      obtain ⟨t₂, ht₂, h₂, -⟩ := h₁.readExact (hp₁ _ rfl) hr₂ fun _ k _ _ => hsize rfl k
      exact ⟨t₂, by rw [segments_of_segment ht hend, ht₂], h₂⟩
  | case5 s start marker s₁ hr hend length s₂ hr₂ hlen =>
      obtain ⟨t₁, ht, h₁, hp₁⟩ := h.readExact hp hr nofun
      obtain ⟨t₂, ht₂, h₂, -⟩ := h₁.readExact (hp₁ _ rfl) hr₂ nofun
      cases hs
      exact ⟨t₂, by rw [segments_of_segment ht hend, ht₂]; exact if_pos hlen, h₂⟩
  | case6 s start marker s₁ hr hend length s₂ hr₂ hlen hframe e hr₃ => cases hs
  | case7 s start marker s₁ hr hend length s₂ hr₂ hlen hframe bytes s₃ hr₃ =>
      obtain ⟨t₁, ht, h₁, hp₁⟩ := h.readExact hp hr nofun
      obtain ⟨t₂, ht₂, h₂, hp₂⟩ := h₁.readExact (hp₁ _ rfl) hr₂ nofun
      cases hs
      obtain ⟨t₃, ht₃, h₃, -⟩ := h₂.readExact (hp₂ _ rfl) hr₃ fun hnone k _ _ =>
        hsize (by rw [hnone]; rfl) k
      refine ⟨t₃, ?_, h₃⟩
      rw [segments_of_segment ht hend, ht₂]
      simp only [if_neg hlen, if_pos hframe, ht₃]
      rfl
  | case8 s start marker s₁ hr hend length s₂ hr₂ hlen hframe ih =>
      obtain ⟨t₁, ht, h₁, hp₁⟩ := h.readExact hp hr nofun
      obtain ⟨t₂, ht₂, h₂, hp₂⟩ := h₁.readExact (hp₁ _ rfl) hr₂ nofun
      have h₃ : (t₂.skip (bigEndian length - 2)).Continues ends (s₂.skip (bigEndian length - 2)) :=
        ⟨h₂.goesOn, h₂.ends⟩
      have hp₃ : (t₂.skip (bigEndian length - 2)).position =
          (s₂.skip (bigEndian length - 2)).position := by
        rw [skip, skip, hp₂ _ rfl]
        rfl
      obtain ⟨t', ht', h'⟩ := ih h₃ hp₃ hs
      refine ⟨t', ?_, h'⟩
      rw [segments_of_segment ht hend, ht₂]
      simp only [if_neg hlen, if_neg hframe]
      exact ht'
  | case9 s start s₁ hstart hr =>
      cases hs
      obtain ⟨t₁, ht, h₁, -⟩ := h.readExact hp hr fun _ k _ _ => hsize rfl k
      refine ⟨t₁, ?_, h₁⟩
      rw [segments.eq_def, ht]
      split
      · next he => cases he
      · next he => cases he; exact absurd rfl (hstart _ _)
      · next he => cases he; rfl

lemma isSteady_test : IsSteady 2 Jpeg.test := by
  intro ends s t s' v h hs hn hsize
  rw [Jpeg.test] at hs ⊢
  obtain ⟨⟨start, s₁⟩, hr, hs⟩ := Except.bind_eq_ok_iff.mp hs
  obtain ⟨t₁, ht, h₁, hp₁⟩ := (h.seek 0).readExact rfl hr fun _ k _ hk => hn k (Nat.zero_add 2 ▸ hk)
  rw [ht]
  dsimp only at hs
  split at hs
  · next hstart =>
      obtain ⟨⟨size, s₂⟩, hw, hs⟩ := Except.bind_eq_ok_iff.mp hs
      cases hs
      obtain ⟨t₂, ht₂, h₂⟩ := segments_of_continues h₁ (hp₁ _ hstart) hw fun hnone =>
        hsize (by rw [hnone])
      exact ⟨t₂, (if_pos hstart).trans (Except.bind_eq_ok_iff.mpr ⟨_, ht₂, rfl⟩), h₂⟩
  · next hstart =>
      cases hs
      exact ⟨t₁, if_neg hstart, h₁⟩

end Jpeg

namespace Svg

/-- The first stretches between separators do not change with what comes behind them. -/
lemma take_splitOnP_append (p : UInt8 → Bool) {n : Nat} {head : Bytes} (h : n ≤ head.countP p)
    (extra : Bytes) : ((head ++ extra).splitOnP p).take n = (head.splitOnP p).take n := by
  induction head generalizing n with
  | nil =>
      obtain rfl : n = 0 := by simpa using h
      rfl
  | cons b head ih =>
      rw [List.cons_append, List.splitOnP_cons_eq_if_modifyHead,
        List.splitOnP_cons_eq_if_modifyHead]
      cases hb : p b with
      | true =>
          cases n with
          | zero => rfl
          | succ n =>
              rw [List.countP_cons_of_pos hb] at h
              simp only [if_true, List.take_succ_cons, ih (Nat.le_of_succ_le_succ h)]
      | false =>
          rw [List.countP_cons_of_neg (by simp [hb])] at h
          simp only [Bool.false_eq_true, if_false, List.take_modifyHead, ih h]

/-- Bytes behind the line ends wanted are not searched. -/
lemma joinLines_append {head : Bytes} (h : headLines ≤ head.count lineFeed) (extra : Bytes) :
    joinLines (head ++ extra) = joinLines head := by
  rw [joinLines, joinLines, List.splitOn, List.splitOn, take_splitOnP_append _ h]

/-- What the test finds is in the head read byte by byte. -/
lemma test_eq (s : ByteStream) :
    ∃ s' : ByteStream, s'.byteAt = s.byteAt ∧
      test s = (s.headFrom 0 headLimit headLines).map
        fun head => (verdict (decodeText (joinLines head)), s') := by
  obtain ⟨s', extra, hs, he, hx⟩ := readHead_eq (s.seek 0) headLimit headLines
  refine ⟨s', hs, ?_⟩
  have hseek : (s.seek 0).headFrom (s.seek 0).position headLimit headLines =
      s.headFrom 0 headLimit headLines := headFrom_congr rfl
  rw [hseek] at he hx
  rw [test, he]
  cases hh : s.headFrom 0 headLimit headLines with
  | error e => rfl
  | ok head =>
      have hj : joinLines (head ++ extra) = joinLines head := by
        rcases hx head hh with rfl | hl
        · rw [List.append_nil]
        · exact joinLines_append hl extra
      simp only [Except.map, bind, Except.bind, hj]
      rfl

lemma isSteady_test : IsSteady 0 Svg.test := by
  intro ends s t s' v h hs _ _
  obtain ⟨s₁, hs₁, hes⟩ := test_eq s
  obtain ⟨t₁, ht₁, het⟩ := test_eq t
  rw [hes] at hs
  cases hh : s.headFrom 0 headLimit headLines with
  | error e => rw [hh] at hs; cases hs
  | ok head =>
      rw [hh] at hs
      cases hs
      exact ⟨t₁, by rw [het, h.headFrom hh]; rfl, h.congr hs₁ ht₁⟩

end Svg

/-! ### The size of an image -/

/-- What steady tests recognize in a stream they recognize in every stream that continues it. -/
lemma firstRecognized_of_continues {ends : Nat → Prop} {n : Nat} {tests : List HeaderTest}
    (hsteady : ∀ test ∈ tests, IsSteady n test) {s t : ByteStream} (h : t.Continues ends s)
    {size : Option Size} (hs : firstRecognized s tests = .ok size) (hn : ∀ k < n, ends k)
    (hsize : size = none → ∀ k, ends k) : firstRecognized t tests = .ok size := by
  induction tests generalizing s t with
  | nil => exact hs
  | cons test tests ih =>
      rw [firstRecognized] at hs ⊢
      obtain ⟨⟨v, s₁⟩, hr, hs⟩ := Except.bind_eq_ok_iff.mp hs
      cases v with
      | recognized found =>
          cases hs
          obtain ⟨t₁, ht, -⟩ := hsteady test List.mem_cons_self h hr hn fun hv =>
            hsize (Verdict.recognized.inj hv)
          rw [ht]
          rfl
      | other =>
          obtain ⟨t₁, ht, h₁⟩ := hsteady test List.mem_cons_self h hr hn nofun
          rw [ht]
          exact ih (fun u hu => hsteady u (List.mem_cons_of_mem _ hu)) h₁ hs

/-- The number of bytes by which the tests know their formats. -/
def signatureLimit : Nat := 8

lemma isSteady_of_mem_headerTests : ∀ test ∈ headerTests, IsSteady signatureLimit test := by
  simp only [headerTests, List.forall_mem_cons, List.not_mem_nil, false_imp_iff, implies_true,
    and_true]
  exact ⟨pngHeader.isSteady_test, gifHeader.isSteady_test.mono (by decide),
    bmpHeader.isSteady_test.mono (by decide), Jpeg.isSteady_test.mono (by decide),
    Svg.isSteady_test.mono (by decide)⟩

lemma probe_eq_some_iff {s : ByteStream} {size : Size} :
    probe s = some size ↔ firstRecognized s headerTests = .ok (some size) := by
  rw [probe]
  cases firstRecognized s headerTests <;> simp

/-- A size found in a stream is found in every stream that continues it, if the two end alike among
the first bytes. -/
lemma probe_of_continues {ends : Nat → Prop} {s t : ByteStream} (h : t.Continues ends s)
    (hn : ∀ k < signatureLimit, ends k) {size : Size} (hs : probe s = some size) :
    probe t = some size := by
  rw [probe_eq_some_iff] at hs ⊢
  exact firstRecognized_of_continues isSteady_of_mem_headerTests h hs hn nofun

/-- Two streams that have the same have the same size. -/
lemma probe_congr {s t : ByteStream} (h : t.byteAt = s.byteAt) : probe t = probe s := by
  have hst : s.Continues (fun _ => True) t := .of_byteAt_eq h.symm
  have hts : t.Continues (fun _ => True) s := .of_byteAt_eq h
  refine Option.ext fun size => ⟨fun ht => ?_, fun hs => ?_⟩
  · exact probe_of_continues hst (fun _ _ => trivial) ht
  · exact probe_of_continues hts (fun _ _ => trivial) hs

/-- What a stream that does not fail has are its bytes. -/
lemma byteAt_of_failAt_eq_none {s : ByteStream} (hf : s.failAt = none) (hl : s.limit ≠ 0) :
    s.byteAt = fun pos => .ok s.data[pos]? := by
  funext pos
  rw [byteAt, hf, if_neg hl]
  rfl

/-- It has no more and no less than the stream over its bytes. -/
lemma byteAt_ofBytes {s : ByteStream} (hf : s.failAt = none) (hl : s.limit ≠ 0) :
    (ofBytes s.data.toList).byteAt = s.byteAt := by
  rw [byteAt_of_failAt_eq_none hf hl, byteAt_of_failAt_eq_none rfl (Nat.succ_ne_zero _), ofBytes]

/-- **The size of an image does not depend on the delivery of its bytes.** A stream that does not
fail may begin anywhere, deliver as little as one byte at a time and be interrupted before that: it
has the size that its bytes tell, and so has a file with these bytes. -/
theorem probe_eq_probeBytes (s : ByteStream) (hf : s.failAt = none) (hl : 1 ≤ s.limit) :
    probe s = probeBytes s.data.toList ∧
      ∀ (tree : FileTree) (path : Path), tree.read path = .ok s.data.toList →
        probePath tree path = probe s ∧ probePath tree path = probeBytes s.data.toList := by
  have hlimit : s.limit ≠ 0 := Nat.one_le_iff_ne_zero.mp hl
  have hfile : (ofFile s.data.toList).byteAt = s.byteAt := by
    rw [byteAt_of_failAt_eq_none hf hlimit,
      byteAt_of_failAt_eq_none rfl (show fileBuffer ≠ 0 by decide), ofFile]
  have hprobe : probe s = probeBytes s.data.toList :=
    (probe_congr (byteAt_ofBytes hf hlimit)).symm
  refine ⟨hprobe, fun tree path hr => ?_⟩
  have hpath : probePath tree path = probe s := by
    rw [probePath, hr]
    exact probe_congr hfile
  exact ⟨hpath, hpath.trans hprobe⟩

/-- A GIF that is read from behind its end, at most three bytes at a time, with more and more
interruptions. -/
theorem probe_eq_probeBytes_interrupted :
    ∃ (s : ByteStream) (tree : FileTree),
      s.data = #[0x47, 0x49, 0x46, 0x38, 0x39, 0x61, 0x40, 0x01, 0xF0, 0x00] ∧
      s.failAt = none ∧ s.limit = 3 ∧ s.data.size < s.position ∧ (∀ n, s.delays n = n) ∧
      tree.read [Path.slash, 0x61] = .ok s.data.toList ∧
      probe s = some ⟨320, 240⟩ ∧ probePath tree [Path.slash, 0x61] = some ⟨320, 240⟩ := by
  let data : Bytes := [0x47, 0x49, 0x46, 0x38, 0x39, 0x61, 0x40, 0x01, 0xF0, 0x00]
  let s : ByteStream :=
    { data := data.toArray, position := 99, limit := 3, shortfall := id, delays := id }
  let tree : FileTree := { root := .directory [([0x61], .file data .epoch)] .epoch }
  have hsize : probeBytes data = some ⟨320, 240⟩ := by cbv
  have hread : tree.read [Path.slash, 0x61] = .ok data := by cbv
  obtain ⟨hs, hfile⟩ := probe_eq_probeBytes s rfl (by decide)
  exact ⟨s, tree, rfl, rfl, rfl, by decide, fun _ => rfl, hread, hs.trans hsize,
    (hfile tree _ hread).2.trans hsize⟩

end DocImage
