import Mathlib.Tactic
import DocImage.Image.Stream
import DocImage.Files.Error

/-!
What a stream delivers, apart from how it delivers it. `byteAt` is what stands at a position,
`bytesFrom` and `headFrom` are a fixed number of bytes and some lines read one byte at a time. A
failure that says that the stream has ended is an end for `bytesFrom` and a failure for `headFrom`.

* `readExact_eq` and `readHead_eq`: reading in deliveries gives what reading byte by byte gives,
  whatever the deliveries are. The last delivery of `readHead` may hold more than the lines wanted.
* `Continues`: one stream has all that another has as far as that one does not fail, and at some
  positions it ends where the other is said to have ended. Readings that succeed on the one succeed
  on the other, with the same outcome, if they meet such an end at these positions only.
-/

namespace DocImage

namespace ByteStream

/-! ### One byte at a time -/

/-- What stands at a position of a stream: a byte, the end, or a failure. -/
def byteAt (s : ByteStream) (pos : Nat) : Except ReadFailure (Option UInt8) :=
  if s.failAt.any (· ≤ pos) then .error s.failure
  else .ok (if s.limit = 0 then none else s.data[pos]?)

/-- The bytes stand in a stream from a position on. -/
def Has (s : ByteStream) (pos : Nat) (bytes : Bytes) : Prop :=
  ∀ i b, bytes[i]? = some b → s.byteAt (pos + i) = .ok (some b)

section Has

variable {s : ByteStream} {pos : Nat} {b : UInt8} {bytes : Bytes}

lemma Has.head (h : s.Has pos (b :: bytes)) : s.byteAt pos = .ok (some b) :=
  h 0 b rfl

lemma Has.tail (h : s.Has pos (b :: bytes)) : s.Has (pos + 1) bytes := by
  intro i c hc
  have := h (i + 1) c (by simpa using hc)
  rwa [show pos + (i + 1) = pos + 1 + i by omega] at this

end Has

/-- The `n` bytes from a position on, or `none` if the stream ends before that, or is said to. -/
def bytesFrom (s : ByteStream) : Nat → Nat → Except ReadFailure (Option Bytes)
  | _, 0 => .ok (some [])
  | pos, n + 1 =>
    match s.byteAt pos with
    | .error .failed => .error .failed
    | .error .unexpectedEnd | .ok none => .ok none
    | .ok (some b) => (s.bytesFrom (pos + 1) n).map (Option.map (b :: ·))

/-- The bytes from a position on up to the last of `lines` line ends, at most `room` bytes. -/
def headFrom (s : ByteStream) : Nat → Nat → Nat → Except ReadFailure Bytes
  | _, 0, _ => .ok []
  | _, _ + 1, 0 => .ok []
  | pos, room + 1, lines + 1 =>
    match s.byteAt pos with
    | .error e => .error e
    | .ok none => .ok []
    | .ok (some b) =>
      (s.headFrom (pos + 1) room (if b = lineFeed then lines else lines + 1)).map (b :: ·)

variable {s s' t : ByteStream} {pos n room lines : Nat} {bytes : Bytes}

lemma bytesFrom_congr (h : s'.byteAt = s.byteAt) : s'.bytesFrom pos n = s.bytesFrom pos n := by
  induction n generalizing pos with
  | zero => rfl
  | succ n ih => rw [bytesFrom, bytesFrom, h]; simp only [ih]

lemma headFrom_congr (h : s'.byteAt = s.byteAt) :
    s'.headFrom pos room lines = s.headFrom pos room lines := by
  induction room generalizing pos lines with
  | zero => rw [headFrom, headFrom]
  | succ room ih =>
      cases lines with
      | zero => rw [headFrom, headFrom]
      | succ lines => rw [headFrom, headFrom, h]; simp only [ih]

lemma headFrom_lines_zero : s.headFrom pos room 0 = .ok [] := by
  cases room <;> rw [headFrom]

/-- Bytes that stand in the stream come first. -/
lemma bytesFrom_append (h : s.Has pos bytes) (n : Nat) :
    s.bytesFrom pos (bytes.length + n) =
      (s.bytesFrom (pos + bytes.length) n).map (Option.map (bytes ++ ·)) := by
  induction bytes generalizing pos with
  | nil =>
      rw [List.length_nil, Nat.zero_add, Nat.add_zero]
      cases s.bytesFrom pos n with
      | error e => rfl
      | ok r => cases r <;> rfl
  | cons b bytes ih =>
      rw [List.length_cons, show bytes.length + 1 + n = bytes.length + n + 1 by omega, bytesFrom,
        h.head]
      simp only [ih h.tail]
      rw [show pos + 1 + bytes.length = pos + (bytes.length + 1) by omega]
      cases s.bytesFrom (pos + (bytes.length + 1)) n with
      | error e => rfl
      | ok r => cases r <;> rfl

/-- Bytes with fewer line ends than are wanted come first. -/
lemma headFrom_append (h : s.Has pos bytes) (hl : bytes.count lineFeed < lines) (room : Nat) :
    s.headFrom pos (bytes.length + room) lines =
      (s.headFrom (pos + bytes.length) room (lines - bytes.count lineFeed)).map (bytes ++ ·) := by
  induction bytes generalizing pos lines with
  | nil =>
      rw [List.length_nil, Nat.zero_add, Nat.add_zero, List.count_nil, Nat.sub_zero]
      cases s.headFrom pos room lines <;> rfl
  | cons b bytes ih =>
      obtain ⟨lines, rfl⟩ : ∃ k, lines = k + 1 := ⟨lines - 1, by omega⟩
      rw [List.length_cons, show bytes.length + 1 + room = bytes.length + room + 1 by omega,
        headFrom, h.head]
      have hrest : lines + 1 - (b :: bytes).count lineFeed =
          (if b = lineFeed then lines else lines + 1) - bytes.count lineFeed := by
        rw [List.count_cons]
        by_cases hb : b = lineFeed <;> simp [hb]
      have hlt : bytes.count lineFeed < if b = lineFeed then lines else lines + 1 := by
        rw [List.count_cons] at hl
        by_cases hb : b = lineFeed
        · simp only [hb, beq_self_eq_true, if_true] at hl ⊢; omega
        · simp only [hb, beq_eq_false_iff_ne.mpr hb, if_false] at hl ⊢; simpa using hl
      simp only [ih h.tail hlt]
      rw [hrest, show pos + 1 + bytes.length = pos + (bytes.length + 1) by omega]
      cases s.headFrom (pos + (bytes.length + 1)) room _ <;> rfl

/-- Bytes with all the line ends that are wanted begin with the head. -/
lemma headFrom_of_le_count (h : s.Has pos bytes) (hl : lines ≤ bytes.count lineFeed) (room : Nat) :
    ∃ head extra, bytes = head ++ extra ∧ lines ≤ head.count lineFeed ∧
      s.headFrom pos (bytes.length + room) lines = .ok head := by
  induction bytes generalizing pos lines with
  | nil =>
      obtain rfl : lines = 0 := by simpa using hl
      exact ⟨[], [], rfl, le_refl _, headFrom_lines_zero⟩
  | cons b bytes ih =>
      cases lines with
      | zero => exact ⟨[], b :: bytes, rfl, Nat.zero_le _, headFrom_lines_zero⟩
      | succ lines =>
          have hle : (if b = lineFeed then lines else lines + 1) ≤ bytes.count lineFeed := by
            rw [List.count_cons] at hl
            by_cases hb : b = lineFeed
            · simp only [hb, beq_self_eq_true, if_true] at hl ⊢; omega
            · simpa [hb] using hl
          obtain ⟨head, extra, rfl, hc, hh⟩ := ih h.tail hle
          refine ⟨b :: head, extra, rfl, ?_, ?_⟩
          · rw [List.count_cons]
            by_cases hb : b = lineFeed
            · simp only [hb, beq_self_eq_true, if_true] at hc ⊢; omega
            · simpa [hb] using hc
          · rw [List.length_cons,
              show (head ++ extra).length + 1 + room = (head ++ extra).length + room + 1 by omega,
              headFrom, h.head]
            simp only [hh]
            rfl

/-! ### Reading in deliveries -/

/-- Reading changes nothing in what a stream has. -/
lemma byteAt_read (s : ByteStream) (n : Nat) : (s.read n).2.byteAt = s.byteAt := by
  rw [read]
  split
  · rfl
  · split <;> rfl

lemma byteAt_of_read {r : ReadResult} (h : s.read n = (r, s')) : s'.byteAt = s.byteAt := by
  rw [← byteAt_read s n, h]

/-- A reading fails only where a failure stands. -/
lemma byteAt_of_failed {failure : ReadFailure} (h : s.read n = (.failed failure, s')) :
    s.byteAt s.position = .error failure := by
  rw [read] at h
  split at h
  · cases h
  · split at h
    · next hk =>
        obtain rfl := ReadResult.failed.inj (Prod.mk.inj h).1
        rw [reach?] at hk
        split at hk
        · cases hk
        · next f hf =>
            have hle : f ≤ s.position := by
              by_contra hn
              rw [if_neg hn] at hk
              cases hk
            rw [byteAt, hf, if_pos (by simpa using hle)]
    · cases h

/-- Where a read reaches there is no failure, and it reaches somewhere if the stream has a limit. -/
lemma of_reach? {k : Nat} (h : s.reach? n = some k) :
    (∀ i, i < max k 1 → s.failAt.any (· ≤ s.position + i) = false) ∧ (k = 0 → 0 < n → s.limit = 0) ∧
      (s.limit = 0 → k = 0) := by
  rw [reach?] at h
  have hb : s.limit = 0 ↔ s.batch = 0 := by rw [batch]; omega
  split at h
  · next hf =>
      cases h
      refine ⟨fun i _ => by rw [hf]; rfl, ?_, ?_⟩ <;> omega
  · next f hf =>
      split at h
      · cases h
      · cases h
        refine ⟨fun i hi => ?_, ?_, ?_⟩
        · rw [hf]
          simp only [Option.any_some, decide_eq_false_iff_not]
          omega
        · omega
        · omega

/-- A delivery holds what stands in the stream. -/
lemma has_of_delivered (h : s.read n = (.delivered bytes, s')) : s.Has s.position bytes := by
  rw [read] at h
  split at h
  · cases h
  · split at h
    · cases h
    · next k hk =>
        obtain ⟨hf, -, hl⟩ := of_reach? hk
        cases h
        intro i b hb
        rw [peek, Array.getElem?_toList, Array.getElem?_extract] at hb
        have hik : i < k := by
          by_contra hn
          rw [if_neg (by omega)] at hb
          cases hb
        have hlim : s.limit ≠ 0 := fun h0 => by have := hl h0; omega
        have hd : s.data[s.position + i]? = some b := by
          split at hb
          · exact hb
          · cases hb
        rw [byteAt, hf i (by omega), if_neg hlim, hd]
        rfl

/-- An empty delivery is the end of the stream. -/
lemma byteAt_of_delivered_nil (hn : 0 < n) (h : s.read n = (.delivered [], s')) :
    s.byteAt s.position = .ok none := by
  rw [read] at h
  split at h
  · cases h
  · split at h
    · cases h
    · next k hk =>
        obtain ⟨hf, h0, -⟩ := of_reach? hk
        rw [byteAt, ← Nat.add_zero s.position, hf 0 (by omega), Nat.add_zero]
        by_cases hl : s.limit = 0
        · rw [if_pos hl]; rfl
        · have hnil : s.peek k = [] := by
            simp only [Prod.mk.injEq, ReadResult.delivered.injEq] at h
            exact h.1
          have hk0 : k ≠ 0 := fun hk0 => hl (h0 hk0 hn)
          have hlen := congrArg List.length hnil
          simp only [peek, Array.length_toList, Array.size_extract, List.length_nil] at hlen
          rw [if_neg hl, Array.getElem?_eq_none (by omega)]
          rfl

/-- Reading `n` bytes in deliveries, after `got`. -/
lemma readExactFrom_eq (s : ByteStream) (n : Nat) (got : Bytes) :
    ∃ s' : ByteStream, s'.byteAt = s.byteAt ∧
      s.readExactFrom n got =
        (s.bytesFrom s.position n).map (fun r => (r.map (got ++ ·), s')) ∧
      ∀ bytes, s.bytesFrom s.position n = .ok (some bytes) → s'.position = s.position + n := by
  fun_induction readExactFrom s n got with
  | case1 s got =>
      exact ⟨s, rfl, by simp [bytesFrom, Except.map], fun _ _ => rfl⟩
  | case2 s n got hn s₁ hr ih =>
      obtain ⟨s', hs, he, hp⟩ := ih
      have hb := byteAt_of_read hr
      rw [bytesFrom_congr hb, (data_of_interrupted hr).2] at he hp
      exact ⟨s', hs.trans hb, he, hp⟩
  | case3 s n got hn s₁ hr =>
      have hb : s.bytesFrom s.position n = .ok none := by
        obtain ⟨m, rfl⟩ := Nat.exists_eq_succ_of_ne_zero hn
        rw [bytesFrom, byteAt_of_failed hr]
      refine ⟨s₁, byteAt_of_read hr, ?_, fun bytes h => ?_⟩
      · rw [hb]; rfl
      · rw [hb] at h; cases h
  | case4 s n got hn s₁ hr =>
      have hb : s.bytesFrom s.position n = .ok none := by
        obtain ⟨m, rfl⟩ := Nat.exists_eq_succ_of_ne_zero hn
        rw [bytesFrom, byteAt_of_delivered_nil (Nat.succ_pos m) hr]
      refine ⟨s₁, byteAt_of_read hr, ?_, fun bytes h => ?_⟩
      · rw [hb]; rfl
      · rw [hb] at h; cases h
  | case5 s n got hn s₁ hr =>
      have hb : s.bytesFrom s.position n = .error .failed := by
        obtain ⟨m, rfl⟩ := Nat.exists_eq_succ_of_ne_zero hn
        rw [bytesFrom, byteAt_of_failed hr]
      refine ⟨s, rfl, ?_, fun bytes h => ?_⟩
      · rw [hb]; rfl
      · rw [hb] at h; cases h
  | case6 s n got hn b l s₁ hr ih =>
      obtain ⟨s', hs, he, hp⟩ := ih
      have hb := byteAt_of_read hr
      obtain ⟨-, hpos, hlen, -⟩ := of_delivered hr
      have happ := bytesFrom_append (has_of_delivered hr) (n - (b :: l).length)
      rw [Nat.add_sub_cancel' hlen, ← hpos] at happ
      rw [bytesFrom_congr hb] at he hp
      refine ⟨s', hs.trans hb, ?_, fun bytes h => ?_⟩
      · rw [he, happ]
        cases s.bytesFrom s₁.position (n - (b :: l).length) with
        | error e => rfl
        | ok r => cases r <;> simp [Except.map]
      · rw [happ] at h
        obtain ⟨r, hr', hb'⟩ := Except.map_eq_ok_iff.mp h
        obtain ⟨rest, rfl, -⟩ := Option.map_eq_some_iff.mp hb'
        have := hp rest hr'
        omega

/-- Reading a fixed number of bytes in deliveries is reading them one by one. -/
lemma readExact_eq (s : ByteStream) (n : Nat) :
    ∃ s' : ByteStream, s'.byteAt = s.byteAt ∧
      s.readExact n = (s.bytesFrom s.position n).map (fun r => (r, s')) ∧
      ∀ bytes, s.bytesFrom s.position n = .ok (some bytes) → s'.position = s.position + n := by
  simpa [readExact] using readExactFrom_eq s n []

/-- Reading lines in deliveries, after `got`. -/
lemma readHeadFrom_eq (s : ByteStream) (room lines : Nat) (got : Array UInt8) :
    ∃ (s' : ByteStream) (extra : Bytes), s'.byteAt = s.byteAt ∧
      s.readHeadFrom room lines got =
        (s.headFrom s.position room lines).map (fun head => (got.toList ++ (head ++ extra), s')) ∧
      ∀ head, s.headFrom s.position room lines = .ok head →
        extra = [] ∨ lines ≤ head.count lineFeed := by
  fun_induction readHeadFrom s room lines got with
  | case1 s room lines got h =>
      have hh : s.headFrom s.position room lines = .ok [] := by
        rcases h with rfl | rfl
        · rw [headFrom]
        · exact headFrom_lines_zero
      exact ⟨s, [], rfl, by simp [hh, Except.map], fun _ _ => .inl rfl⟩
  | case2 s room lines got h s₁ hr ih =>
      obtain ⟨s', extra, hs, he, hx⟩ := ih
      have hb := byteAt_of_read hr
      rw [headFrom_congr hb, (data_of_interrupted hr).2] at he hx
      exact ⟨s', extra, hs.trans hb, he, hx⟩
  | case3 s room lines got h failure s₁ hr =>
      have hh : s.headFrom s.position room lines = .error failure := by
        obtain ⟨room, rfl⟩ := Nat.exists_eq_succ_of_ne_zero (not_or.mp h).1
        obtain ⟨lines, rfl⟩ := Nat.exists_eq_succ_of_ne_zero (not_or.mp h).2
        rw [headFrom, byteAt_of_failed hr]
      refine ⟨s, [], rfl, ?_, fun _ _ => .inl rfl⟩
      rw [hh]; rfl
  | case4 s room lines got h s₁ hr =>
      have hh : s.headFrom s.position room lines = .ok [] := by
        obtain ⟨room, rfl⟩ := Nat.exists_eq_succ_of_ne_zero (not_or.mp h).1
        obtain ⟨lines, rfl⟩ := Nat.exists_eq_succ_of_ne_zero (not_or.mp h).2
        rw [headFrom, byteAt_of_delivered_nil (by rw [lineBuffer]; omega) hr]
      exact ⟨s₁, [], byteAt_of_read hr, by simp [hh, Except.map], fun _ _ => .inl rfl⟩
  | case5 s room lines got h b l s₁ hr ih =>
      obtain ⟨s', extra, hs, he, hx⟩ := ih
      have hb := byteAt_of_read hr
      obtain ⟨-, hpos, hlen, -⟩ := of_delivered hr
      have hroom : (b :: l).length + (room - (b :: l).length) = room := by omega
      have hhas := has_of_delivered hr
      by_cases hl : (b :: l).count lineFeed < lines
      · have happ := headFrom_append hhas hl (room - (b :: l).length)
        rw [hroom, ← hpos] at happ
        rw [headFrom_congr hb] at he hx
        refine ⟨s', extra, hs.trans hb, ?_, fun head hh => ?_⟩
        · rw [he, happ]
          cases s.headFrom s₁.position _ _ <;> simp [Except.map]
        · rw [happ] at hh
          obtain ⟨rest, hr', rfl⟩ := Except.map_eq_ok_iff.mp hh
          refine (hx rest hr').imp_right fun hle => ?_
          rw [List.count_append]
          omega
      · -- all the line ends wanted are in this delivery, and the reading stops after it
        obtain ⟨head, more, hhm, hc, hh⟩ :=
          headFrom_of_le_count hhas (not_lt.mp hl) (room - (b :: l).length)
        rw [hroom] at hh
        have hstop : s₁.readHeadFrom (room - (b :: l).length) (lines - (b :: l).count lineFeed)
            (got ++ b :: l) = .ok ((got ++ b :: l).toList, s₁) := by
          rw [readHeadFrom, if_pos (.inr (by omega))]
        refine ⟨s₁, more, hb, ?_, fun head' hh' => ?_⟩
        · rw [hstop, hh, hhm]
          simp [Except.map]
        · rw [hh] at hh'
          cases hh'
          exact .inr hc

/-- Reading lines in deliveries is reading them byte by byte, up to bytes behind the last of the
line ends wanted. -/
lemma readHead_eq (s : ByteStream) (room lines : Nat) :
    ∃ (s' : ByteStream) (extra : Bytes), s'.byteAt = s.byteAt ∧
      s.readHead room lines =
        (s.headFrom s.position room lines).map (fun head => (head ++ extra, s')) ∧
      ∀ head, s.headFrom s.position room lines = .ok head →
        extra = [] ∨ lines ≤ head.count lineFeed := by
  simpa [readHead] using readHeadFrom_eq s room lines #[]

/-! ### Streams that go on where another one fails -/

/-- `t` has all that `s` has, as far as `s` does not fail; and at the positions where it must, it
ends where `s` is said to have ended, or is said to end there, too. -/
structure Continues (ends : Nat → Prop) (t s : ByteStream) : Prop where
  goesOn : ∀ {pos x}, s.byteAt pos = .ok x → t.byteAt pos = .ok x
  ends : ∀ {pos}, ends pos → s.byteAt pos = .error .unexpectedEnd →
    t.byteAt pos = .ok none ∨ t.byteAt pos = .error .unexpectedEnd

namespace Continues

variable {ends : Nat → Prop}

lemma of_byteAt_eq (h : t.byteAt = s.byteAt) : t.Continues ends s :=
  ⟨fun hx => h ▸ hx, fun _ hx => .inr (h ▸ hx)⟩

lemma congr (h : t.Continues ends s) {s' t' : ByteStream} (hs : s'.byteAt = s.byteAt)
    (ht : t'.byteAt = t.byteAt) : t'.Continues ends s' := by
  refine ⟨fun hx => ?_, fun hp hx => ?_⟩
  · rw [hs] at hx
    rw [ht]
    exact h.goesOn hx
  · rw [hs] at hx
    rw [ht]
    exact h.ends hp hx

/-- What is there is there in both. An end that is only said must be one for both. -/
lemma bytesFrom (h : t.Continues ends s) {r : Option Bytes} (hr : s.bytesFrom pos n = .ok r)
    (hends : r = none → ∀ k, pos ≤ k → k < pos + n → ends k) : t.bytesFrom pos n = .ok r := by
  induction n generalizing pos r with
  | zero => exact hr
  | succ n ih =>
      rw [ByteStream.bytesFrom] at hr ⊢
      cases hb : s.byteAt pos with
      | error e =>
          rw [hb] at hr
          cases e with
          | failed => cases hr
          | unexpectedEnd =>
              cases hr
              rcases h.ends (hends rfl pos (le_refl _) (by omega)) hb with ht | ht <;> rw [ht]
      | ok x =>
          rw [hb] at hr
          rw [h.goesOn hb]
          cases x with
          | none => exact hr
          | some b =>
              obtain ⟨r', hn, rfl⟩ := Except.map_eq_ok_iff.mp hr
              refine Except.map_eq_ok_iff.mpr ⟨r', ih hn fun hnone k hk hk' => ?_, rfl⟩
              exact hends (by rw [hnone]; rfl) k (by omega) (by omega)

lemma headFrom (h : t.Continues ends s) {head : Bytes} (hh : s.headFrom pos room lines = .ok head) :
    t.headFrom pos room lines = .ok head := by
  induction room generalizing pos lines head with
  | zero => rw [ByteStream.headFrom] at hh ⊢; exact hh
  | succ room ih =>
      cases lines with
      | zero => rw [headFrom_lines_zero] at hh ⊢; exact hh
      | succ lines =>
          rw [ByteStream.headFrom] at hh ⊢
          cases hb : s.byteAt pos with
          | error e => rw [hb] at hh; cases hh
          | ok x =>
              rw [hb] at hh
              rw [h.goesOn hb]
              cases x with
              | none => exact hh
              | some b =>
                  obtain ⟨head', hn, hh'⟩ := Except.map_eq_ok_iff.mp hh
                  exact Except.map_eq_ok_iff.mpr ⟨head', ih hn, hh'⟩

/-- What is read from a stream is read from one that continues it, if an end that is only said is
met where it is one for both. -/
lemma readExact (h : t.Continues ends s) (hp : t.position = s.position) {r : Option Bytes}
    (hr : s.readExact n = .ok (r, s'))
    (hends : r = none → ∀ k, s.position ≤ k → k < s.position + n → ends k) :
    ∃ t', t.readExact n = .ok (r, t') ∧ t'.Continues ends s' ∧
      (∀ bytes, r = some bytes → t'.position = s'.position) := by
  obtain ⟨s₁, hs, hse, hsp⟩ := readExact_eq s n
  obtain ⟨t₁, ht, hte, htp⟩ := readExact_eq t n
  rw [hse] at hr
  obtain ⟨r, hb, hrs⟩ := Except.map_eq_ok_iff.mp hr
  cases hrs
  have hbt := h.bytesFrom hb hends
  rw [← hp] at hbt
  refine ⟨t₁, by rw [hte, hbt]; rfl, h.congr hs ht, ?_⟩
  rintro bytes rfl
  rw [hsp bytes hb, htp bytes hbt, hp]

end Continues

end ByteStream

end DocImage
