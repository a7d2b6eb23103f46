import Mathlib.Tactic
import DocImage.Proofs.Image.Numbers
import DocImage.Proofs.Image.Recognition

/-!
The segments of a JPEG, and the walk along them to the first frame header.

* `Jpeg.Reaches` are the places to which the segments lead, and `Jpeg.FrameAt` are the frame
  headers; `sizeFrom?_eq_some_iff` says that the walk finds the size of the frame header at such a
  place.
* `Jpeg.visit` is what is done at one place. A place is at least four bytes behind the one before
  (`of_visit_passed`), so that a walk is over after a quarter as many places as there are bytes
  (`segmentsWithin_eq`).
* `Jpeg.write` writes segments and a frame header behind them, to which they lead
  (`Reaches.of_drop`).
* `probeBytes_jpeg`: the size of a JPEG is that of the frame header to which its segments lead.
-/

namespace DocImage

/-- The number that two bytes write at a position, the more significant one first. -/
def word? (bytes : Bytes) (pos : Nat) : Option Nat :=
  (slice? bytes pos 2).map bigEndian

lemma word?_eq_some_iff {bytes : Bytes} {pos n : Nat} :
    word? bytes pos = some n ↔
      ∃ high low, slice? bytes pos 2 = some [high, low] ∧ bigEndian [high, low] = n := by
  rw [word?, Option.map_eq_some_iff]
  constructor
  · rintro ⟨part, hpart, rfl⟩
    obtain ⟨high, low, rfl⟩ := List.length_eq_two.mp (length_of_slice? hpart)
    exact ⟨high, low, hpart, rfl⟩
  · rintro ⟨high, low, hpart, hn⟩
    exact ⟨_, hpart, hn⟩

namespace Jpeg

/-! ### Segments at a place -/

/-- The markers at which the headers end. -/
def lastMarkers : List UInt8 := [0xD9, 0xDA]

/-- The markers of the segments that hold the size of a frame. -/
def frameMarkers : List UInt8 :=
  [0xC0, 0xC1, 0xC2, 0xC3, 0xC5, 0xC6, 0xC7, 0xC9, 0xCA, 0xCB, 0xCD, 0xCE, 0xCF]

lemma isLast_iff {marker : UInt8} : isLast marker = true ↔ marker ∈ lastMarkers := by
  simp [isLast, lastMarkers]

lemma isFrame_iff {marker : UInt8} : isFrame marker = true ↔ marker ∈ frameMarkers := by
  simp only [isFrame, frameMarkers, Bool.and_eq_true, decide_eq_true_eq, bne_iff_ne, ne_eq,
    UInt8.le_iff_toNat_le, ← UInt8.toNat_inj, List.mem_cons, List.not_mem_nil, or_false,
    UInt8.reduceToNat]
  omega

/-- At the position stand a marker and behind it the length of its segment, which counts the two
bytes that it takes itself. -/
structure SegmentAt (bytes : Bytes) (pos : Nat) (marker : UInt8) (length : Nat) : Prop where
  slice?_eq : slice? bytes pos 2 = some [0xFF, marker]
  word?_eq : word? bytes (pos + 2) = some length
  two_le : 2 ≤ length

/-- The places to which the segments lead, with the number of those in front. -/
inductive Reaches (bytes : Bytes) : Nat → Nat → Prop
  | start : Reaches bytes 0 2
  | next {n pos length : Nat} {marker : UInt8} : Reaches bytes n pos →
      SegmentAt bytes pos marker length → marker ∉ lastMarkers → marker ∉ frameMarkers →
      Reaches bytes (n + 1) (pos + 2 + length)

/-- At the position stands a frame header with the size: behind the length are one byte, the height
and the width, neither of them zero. -/
structure FrameAt (bytes : Bytes) (pos : Nat) (size : Size) : Prop where
  segment : ∃ marker ∈ frameMarkers, ∃ length, SegmentAt bytes pos marker length
  height : word? bytes (pos + 5) = some size.height
  width : word? bytes (pos + 7) = some size.width
  height_pos : 0 < size.height
  width_pos : 0 < size.width

section Places

variable {bytes : Bytes} {pos length : Nat} {marker : UInt8} {size : Size}

lemma segmentAt_iff :
    SegmentAt bytes pos marker length ↔ ∃ high low,
      slice? bytes pos 4 = some [0xFF, marker, high, low] ∧ bigEndian [high, low] = length ∧
        2 ≤ length := by
  have hadd := slice?_add bytes pos 2 2
  constructor
  · rintro ⟨hm, hl, h2⟩
    obtain ⟨high, low, hs, hn⟩ := word?_eq_some_iff.mp hl
    rw [hm, hs] at hadd
    exact ⟨high, low, hadd, hn, h2⟩
  · rintro ⟨high, low, hs, hn, h2⟩
    rw [hadd] at hs
    obtain ⟨front, hfront, hs⟩ := Option.bind_eq_some_iff.mp hs
    obtain ⟨back, hback, hs⟩ := Option.map_eq_some_iff.mp hs
    obtain ⟨_, _, rfl⟩ := List.length_eq_two.mp (length_of_slice? hfront)
    obtain ⟨_, _, rfl⟩ := List.length_eq_two.mp (length_of_slice? hback)
    cases hs
    exact ⟨hfront, word?_eq_some_iff.mpr ⟨_, _, hback, hn⟩, h2⟩

/-- The walk goes on behind a segment that is none of the last and no frame header. -/
lemma sizeFrom?_of_passed (h : SegmentAt bytes pos marker length) (hlast : marker ∉ lastMarkers)
    (hframe : marker ∉ frameMarkers) :
    sizeFrom? bytes pos = sizeFrom? bytes (pos + 2 + length) := by
  obtain ⟨high, low, hs, rfl, h2⟩ := segmentAt_iff.mp h
  have hgo : ¬ ((0xFF : UInt8) ≠ 0xFF ∨ isLast marker = true) := by
    simpa using mt isLast_iff.mp hlast
  rw [sizeFrom?_of_slice? hs, if_neg hgo, if_neg (not_lt.mpr h2), if_neg (mt isFrame_iff.mp hframe)]

lemma sizeFrom?_of_frame (h : SegmentAt bytes pos marker length) (hframe : marker ∈ frameMarkers) :
    sizeFrom? bytes pos = (slice? bytes (pos + 4) 5).bind frameSize? := by
  obtain ⟨high, low, hs, rfl, h2⟩ := segmentAt_iff.mp h
  have hlast : ∀ m ∈ frameMarkers, isLast m = false := by decide +kernel
  have hgo : ¬ ((0xFF : UInt8) ≠ 0xFF ∨ isLast marker = true) := by
    simp [hlast marker hframe]
  rw [sizeFrom?_of_slice? hs, if_neg hgo, if_neg (not_lt.mpr h2), if_pos (isFrame_iff.mpr hframe)]

lemma frameSize?_eq_some_iff :
    (slice? bytes (pos + 4) 5).bind frameSize? = some size ↔
      word? bytes (pos + 5) = some size.height ∧ word? bytes (pos + 7) = some size.width ∧
        0 < size.height ∧ 0 < size.width := by
  have hedges : ∀ w h : Nat, Size.ofEdges? w h = some size ↔
      h = size.height ∧ w = size.width ∧ 0 < size.height ∧ 0 < size.width := fun w h => by
    rw [Size.ofEdges?_eq_some_iff]
    omega
  have hhead := slice?_add bytes (pos + 4) 1 4
  have hwords := slice?_add bytes (pos + 5) 2 2
  rw [hhead, hwords, word?, word?]
  cases hp : slice? bytes (pos + 4) 1 with
  | none =>
      have hnone : slice? bytes (pos + 5) 2 = none := by
        rw [slice?_eq_none_iff] at hp ⊢
        omega
      simp [hnone]
  | some precision =>
      obtain ⟨p, rfl⟩ := List.length_eq_one_iff.mp (length_of_slice? hp)
      cases hh : slice? bytes (pos + 5) 2 with
      | none => simp
      | some height =>
          obtain ⟨h₀, h₁, rfl⟩ := List.length_eq_two.mp (length_of_slice? hh)
          cases hw : slice? bytes (pos + 7) 2 with
          | none => simp
          | some width =>
              obtain ⟨w₀, w₁, rfl⟩ := List.length_eq_two.mp (length_of_slice? hw)
              simp [frameSize?, hedges]

lemma Reaches.sizeFrom?_eq {n : Nat} (h : Reaches bytes n pos) :
    sizeFrom? bytes 2 = sizeFrom? bytes pos := by
  induction h with
  | start => rfl
  | next _ hs hlast hframe ih => exact ih.trans (sizeFrom?_of_passed hs hlast hframe)

/-- **The walk finds the size of the frame header to which the segments lead.** -/
lemma sizeFrom?_eq_some_iff :
    sizeFrom? bytes 2 = some size ↔ ∃ n pos, Reaches bytes n pos ∧ FrameAt bytes pos size := by
  constructor
  · intro h
    have hwalk : ∀ n pos, Reaches bytes n pos → sizeFrom? bytes pos = some size →
        ∃ n' pos', Reaches bytes n' pos' ∧ FrameAt bytes pos' size := by
      clear h
      intro n pos hr h
      fun_induction sizeFrom? bytes pos generalizing n with
      | case1 => cases h
      | case2 => cases h
      | case3 pos start marker high low hs hgo hlen hframe =>
          push Not at hgo
          obtain ⟨rfl, -⟩ := hgo
          obtain ⟨hh, hw, hh', hw'⟩ := frameSize?_eq_some_iff.mp h
          exact ⟨n, pos, hr, ⟨marker, isFrame_iff.mp hframe, _,
            segmentAt_iff.mpr ⟨high, low, hs, rfl, not_lt.mp hlen⟩⟩, hh, hw, hh', hw'⟩
      | case4 pos start marker high low hs hgo hlen hframe ih =>
          push Not at hgo
          obtain ⟨rfl, hlast⟩ := hgo
          exact ih _ (hr.next (segmentAt_iff.mpr ⟨high, low, hs, rfl, not_lt.mp hlen⟩)
            (mt isLast_iff.mpr hlast) (mt isFrame_iff.mpr hframe)) h
      | case5 => cases h
    exact hwalk 0 2 .start h
  · rintro ⟨n, pos, hr, ⟨⟨marker, hframe, length, hs⟩, hh, hw, hh', hw'⟩⟩
    rw [hr.sizeFrom?_eq, sizeFrom?_of_frame hs hframe]
    exact frameSize?_eq_some_iff.mpr ⟨hh, hw, hh', hw'⟩

/-- The places are at least four bytes apart. -/
lemma Reaches.four_mul_le {n : Nat} (h : Reaches bytes n pos) : 4 * n + 2 ≤ pos := by
  induction h with
  | start => exact le_rfl
  | next _ hs _ _ ih =>
      have := hs.two_le
      omega

/-- All but the last of the places have four bytes behind them. -/
lemma Reaches.four_mul_le_length {n : Nat} (h : Reaches bytes n pos) (hb : 2 ≤ bytes.length) :
    4 * n + 2 ≤ bytes.length := by
  cases h with
  | start => exact hb
  | next hr hs _ _ =>
      obtain ⟨high, low, hs, -⟩ := segmentAt_iff.mp hs
      have hlen := (slice?_eq_some_iff.mp hs).1
      have hpos := hr.four_mul_le
      rw [List.length_drop] at hlen
      omega

end Places

/-! ### One place after the other -/

/-- What the walk does at one place. -/
inductive Visit where
  /-- It ends there, with this size and the stream at this position. -/
  | ended (size : Option Size) (s : ByteStream)
  /-- It goes on to another place. -/
  | passed (next : ByteStream)

/-- The walk at one place. -/
def visit (s : ByteStream) : Except ReadFailure Visit :=
  match s.readExact 2 with
  | .error e => .error e
  | .ok (some [start, marker], s₁) =>
    if start ≠ 0xFF ∨ isLast marker then .ok (.ended none s₁)
    else
      match s₁.readExact 2 with
      | .error e => .error e
      | .ok (none, s₂) => .ok (.ended none s₂)
      | .ok (some length, s₂) =>
        if bigEndian length < 2 then .ok (.ended none s₂)
        else if isFrame marker then
          (s₂.readExact 5).map fun r => .ended (r.1.bind frameSize?) r.2
        else .ok (.passed (s₂.skip (bigEndian length - 2)))
  | .ok (_, s₁) => .ok (.ended none s₁)

/-- The walk, given up where it would come to more than `n` places. -/
def segmentsWithin : Nat → ByteStream → Option (Except ReadFailure (Option Size × ByteStream))
  | 0, _ => none
  | n + 1, s =>
    match visit s with
    | .error e => some (.error e)
    | .ok (.ended size s') => some (.ok (size, s'))
    | .ok (.passed next) => segmentsWithin n next

/-- The walk visits one place after the other. -/
lemma segments_eq_visit (s : ByteStream) :
    segments s =
      match visit s with
      | .error e => .error e
      | .ok (.ended size s') => .ok (size, s')
      | .ok (.passed next) => segments next := by
  rw [visit]
  cases hr : s.readExact 2 with
  | error e => rw [segments.eq_def, hr]
  | ok r =>
      obtain ⟨_ | part, s₁⟩ := r
      · rw [segments.eq_def, hr]
      obtain ⟨start, marker, rfl⟩ := List.length_eq_two.mp (ByteStream.readExact_spec hr).2.2.1
      by_cases hend : start ≠ 0xFF ∨ isLast marker
      · simp only [segments_of_end hr hend, if_pos hend]
      rw [segments_of_segment hr hend]
      simp only [if_neg hend]
      cases s₁.readExact 2 with
      | error e => rfl
      | ok r₂ =>
          obtain ⟨_ | length, s₂⟩ := r₂
          · rfl
          dsimp only
          split_ifs with hlen hframe
          · rfl
          · cases s₂.readExact 5 <;> rfl
          · rfl

/-- A place that is passed has four bytes, and the next one is behind them. -/
lemma of_visit_passed {s next : ByteStream} (h : visit s = .ok (.passed next)) :
    next.data = s.data ∧ s.position + 4 ≤ s.data.size ∧ s.position + 4 ≤ next.position := by
  rw [visit] at h
  cases hr : s.readExact 2 with
  | error e => simp [hr] at h
  | ok r =>
      obtain ⟨_ | part, s₁⟩ := r
      · simp [hr] at h
      obtain ⟨hd, hp, hlen, -⟩ := ByteStream.readExact_spec hr
      obtain ⟨start, marker, rfl⟩ := List.length_eq_two.mp hlen
      simp only [hr] at h
      split at h
      · cases h
      cases hr₂ : s₁.readExact 2 with
      | error e => simp [hr₂] at h
      | ok r₂ =>
          obtain ⟨_ | length, s₂⟩ := r₂
          · simp [hr₂] at h
          obtain ⟨hd', hp', -, hsize⟩ := ByteStream.readExact_spec hr₂
          simp only [hr₂] at h
          by_cases hlen : bigEndian length < 2
          · rw [if_pos hlen] at h
            cases h
          rw [if_neg hlen] at h
          by_cases hframe : isFrame marker = true
          · rw [if_pos hframe] at h
            obtain ⟨_, -, hv⟩ := Except.map_eq_ok_iff.mp h
            cases hv
          rw [if_neg hframe] at h
          cases h
          have := hsize (by decide)
          rw [hd] at this
          refine ⟨hd'.trans hd, by omega, ?_⟩
          change s.position + 4 ≤ s₂.position + (bigEndian length - 2)
          omega

/-- **A walk is over after a quarter as many places as there are bytes.** The induction is on the
places that may still be visited; each one that is passed takes four of the bytes that are left. -/
lemma segmentsWithin_eq {n : Nat} {s : ByteStream} (hn : 0 < n)
    (h : s.data.size < s.position + 4 * n) : segmentsWithin n s = some (segments s) := by
  induction n generalizing s with
  | zero => cases hn
  | succ n ih =>
      rw [segmentsWithin, segments_eq_visit]
      cases hv : visit s with
      | error e => rfl
      | ok v =>
          cases v with
          | ended size s' => rfl
          | passed next =>
              obtain ⟨hd, hs, hp⟩ := of_visit_passed hv
              exact ih (by omega) (by rw [hd]; omega)

/-! ### Written segments -/

/-- The two bytes that write a number. -/
def writeWord (n : Nat) : Bytes :=
  [UInt8.ofNat (n / 256), UInt8.ofNat n]

/-- A segment that is passed over. -/
structure Segment where
  marker : UInt8
  payload : Bytes
  notMem_last : marker ∉ lastMarkers
  notMem_frame : marker ∉ frameMarkers
  length_payload_le : payload.length ≤ 65533

/-- A segment begins with its marker and its length, which counts its own two bytes. -/
def Segment.write (segment : Segment) : Bytes :=
  [0xFF, segment.marker] ++ writeWord (segment.payload.length + 2) ++ segment.payload

/-- A frame header that tells a size. Its length may be any that a segment may have. -/
structure Frame where
  marker : UInt8
  length : Nat
  precision : UInt8
  size : Size
  marker_mem : marker ∈ frameMarkers
  length_bounds : 2 ≤ length ∧ length ≤ 65535
  width_bounds : 1 ≤ size.width ∧ size.width ≤ 65535
  height_bounds : 1 ≤ size.height ∧ size.height ≤ 65535

/-- The bytes of a frame header up to the width. -/
def Frame.write (frame : Frame) : Bytes :=
  [0xFF, frame.marker] ++ writeWord frame.length ++ [frame.precision] ++
    writeWord frame.size.height ++ writeWord frame.size.width

/-- The beginning of a JPEG, up to the size in its first frame header. -/
def write (segments : List Segment) (frame : Frame) : Bytes :=
  [0xFF, 0xD8] ++ segments.flatMap Segment.write ++ frame.write

lemma bigEndian_writeWord {n : Nat} (h : n ≤ 65535) : bigEndian (writeWord n) = n := by
  simp only [bigEndian, writeWord, List.foldl_cons, List.foldl_nil, UInt8.toNat_ofNat']
  omega

section Written

variable {bytes rest : Bytes} {pos : Nat}

lemma word?_of_drop {n : Nat} (hn : n ≤ 65535) (h : bytes.drop pos = writeWord n ++ rest) :
    word? bytes pos = some n := by
  have hs := slice?_of_drop h
  rw [word?, show 2 = (writeWord n).length from rfl, hs, Option.map_some, bigEndian_writeWord hn]

lemma segmentAt_of_drop {marker : UInt8} {length : Nat} (h2 : 2 ≤ length) (hl : length ≤ 65535)
    (h : bytes.drop pos = [0xFF, marker] ++ (writeWord length ++ rest)) :
    SegmentAt bytes pos marker length where
  slice?_eq := slice?_of_drop h
  word?_eq := word?_of_drop hl (by rw [← List.drop_drop, h]; rfl)
  two_le := h2

/-- Written segments lead to what is written behind them. -/
lemma Reaches.of_drop {n : Nat} (hr : Reaches bytes n pos) {segments : List Segment}
    (h : bytes.drop pos = segments.flatMap Segment.write ++ rest) :
    ∃ n' pos', Reaches bytes n' pos' ∧ bytes.drop pos' = rest := by
  induction segments generalizing n pos with
  | nil => exact ⟨n, pos, hr, h⟩
  | cons segment segments ih =>
      rw [List.flatMap_cons, Segment.write, List.append_assoc, List.append_assoc,
        List.append_assoc] at h
      have hlen := segment.length_payload_le
      have hs := segmentAt_of_drop (by omega) (by omega) h
      refine ih (hr.next hs segment.notMem_last segment.notMem_frame) ?_
      have hnext : pos + 2 + (segment.payload.length + 2) =
          pos + (2 + (2 + segment.payload.length)) := by omega
      rw [hnext, ← List.drop_drop, h, ← List.drop_drop, ← List.drop_drop]
      exact List.drop_left

lemma Frame.frameAt (frame : Frame) (h : bytes.drop pos = frame.write ++ rest) :
    FrameAt bytes pos frame.size := by
  simp only [Frame.write, List.append_assoc] at h
  refine ⟨⟨frame.marker, frame.marker_mem, frame.length,
    segmentAt_of_drop frame.length_bounds.1 frame.length_bounds.2 h⟩, ?_, ?_,
    frame.height_bounds.1, frame.width_bounds.1⟩
  · exact word?_of_drop frame.height_bounds.2 (by rw [← List.drop_drop, h]; rfl)
  · exact word?_of_drop frame.width_bounds.2 (by rw [← List.drop_drop, h]; rfl)

end Written

end Jpeg

open Jpeg in
/-- **The size of a JPEG is that of the frame header to which its segments lead.** Bytes that begin
with the signature have a size exactly if the segments behind it lead to a frame header, and it is
the one that stands there; otherwise they have none, whatever another format would find in them. So
the size that is written behind any segments is told, whatever follows. No walk, whatever the stream
does, comes to more places than a quarter of the bytes and one more, and neither do the segments,
also where the last of them is longer than what is left. -/
theorem probeBytes_jpeg (bytes : Bytes) (h : [0xFF, 0xD8] <+: bytes) :
    (∀ size, probeBytes bytes = some size ↔
      ∃ n pos, Reaches bytes n pos ∧ FrameAt bytes pos size) ∧
    (probeBytes bytes = none ↔ ¬ ∃ n pos size, Reaches bytes n pos ∧ FrameAt bytes pos size) ∧
    (∀ segments frame tail, bytes = write segments frame ++ tail →
      probeBytes bytes = some frame.size) ∧
    (∀ s : ByteStream, s.data.toList = bytes →
      segmentsWithin (bytes.length / 4 + 1) s = some (segments s)) ∧
    ∀ n pos, Reaches bytes n pos → n + 1 ≤ bytes.length / 4 + 1 := by
  have hsize : ∀ size, probeBytes bytes = some size ↔
      ∃ n pos, Reaches bytes n pos ∧ FrameAt bytes pos size := fun size => by
    rw [probeBytes_of_jpeg h, sizeFrom?_eq_some_iff]
  refine ⟨hsize, ?_, ?_, ?_, ?_⟩
  · rw [Option.eq_none_iff_forall_ne_some]
    constructor
    · rintro hnone ⟨n, pos, size, hr, hf⟩
      exact hnone size ((hsize size).mpr ⟨n, pos, hr, hf⟩)
    · intro hno size hs
      obtain ⟨n, pos, hr, hf⟩ := (hsize size).mp hs
      exact hno ⟨n, pos, size, hr, hf⟩
  · intro segments frame tail hbytes
    have hdrop : bytes.drop 2 = segments.flatMap Segment.write ++ (frame.write ++ tail) := by
      rw [hbytes, write]
      simp
    obtain ⟨n, pos, hr, hrest⟩ := Reaches.start.of_drop hdrop
    exact (hsize frame.size).mpr ⟨n, pos, hr, frame.frameAt hrest⟩
  · intro s hs
    refine segmentsWithin_eq (Nat.succ_pos _) ?_
    rw [← hs, Array.length_toList]
    omega
  · intro n pos hr
    have := hr.four_mul_le_length h.length_le
    omega

open Jpeg in
/-- A segment that holds what looks like a frame header, the frame header, and an SVG behind it. -/
theorem probeBytes_jpeg_behind_lookalike :
    ∃ bytes : Bytes, [0xFF, 0xD8] <+: bytes ∧ [0x3C, 0x73, 0x76, 0x67] <:+ bytes ∧
      slice? bytes 6 2 = some [0xFF, 0xC0] ∧ probeBytes bytes = some ⟨64, 32⟩ ∧
      ∃ n pos, Reaches bytes n pos ∧ FrameAt bytes pos ⟨64, 32⟩ ∧ n + 1 ≤ bytes.length / 4 + 1 := by
  let segment : Segment :=
    ⟨0xE0, [0xFF, 0xC0, 0x00, 0x11, 0x08, 0x00, 0x01, 0x00, 0x01], by decide, by decide, by decide⟩
  let frame : Frame :=
    ⟨0xC2, 17, 8, ⟨64, 32⟩, by decide, by decide, by decide, by decide⟩
  let tail : Bytes := [0x3C, 0x73, 0x76, 0x67]
  have hstart : [0xFF, 0xD8] <+: write [segment] frame ++ tail := ⟨_, rfl⟩
  obtain ⟨hsize, -, hwritten, -, hbound⟩ := probeBytes_jpeg (write [segment] frame ++ tail) hstart
  have hprobe := hwritten [segment] frame tail rfl
  obtain ⟨n, pos, hr, hf⟩ := (hsize ⟨64, 32⟩).mp hprobe
  exact ⟨_, hstart, ⟨_, rfl⟩, rfl, hprobe, n, pos, hr, hf, hbound n pos hr⟩

end DocImage
