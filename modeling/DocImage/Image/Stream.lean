import DocImage.Text.Basic

/-!
Streams of bytes as a reader meets them. A read delivers at most a fixed number of bytes, and
some reads fewer; it may be interrupted some times before that, and it may fail from some
position on, also where the stream would otherwise have ended. `readExact` asks again until it
has all the bytes wanted or meets the end, and `readHead` until it has seen enough lines; both
pass over interruptions and stop at a failure. A failure may say that the stream has ended too
early: `readExact` takes that for the end, and `readHead` for a failure like others.

`readExact_spec` says where a successful `readExact` leaves the stream.
-/

namespace DocImage

/-- A read that failed. -/
inductive ReadFailure where
  /-- The stream is said to have ended before it should. -/
  | unexpectedEnd
  | failed
deriving DecidableEq

/-- A stream of bytes. -/
structure ByteStream where
  data : Array UInt8
  position : Nat := 0
  /-- The most bytes that one read delivers. If there are none, the stream seems to be at its end
  everywhere. -/
  limit : Nat := data.size + 1
  /-- How far each delivery falls short of the limit, as long as it still holds one byte. -/
  shortfall : Nat → Nat := fun _ => 0
  /-- The position from which on reads fail. -/
  failAt : Option Nat := none
  /-- How they fail. -/
  failure : ReadFailure := .failed
  /-- How often each delivery is interrupted before it happens. -/
  delays : Nat → Nat := fun _ => 0
  /-- The number of deliveries so far. -/
  delivered : Nat := 0
  /-- The number of interruptions since the last delivery. -/
  waited : Nat := 0

/-- What one read gives. -/
inductive ReadResult where
  | interrupted
  | failed (failure : ReadFailure)
  | delivered (bytes : Bytes)

namespace ByteStream

/-- A stream over the bytes that delivers all that is asked for. -/
def ofBytes (bytes : Bytes) : ByteStream where
  data := bytes.toArray

/-- The stream at another position. -/
def seek (s : ByteStream) (position : Nat) : ByteStream :=
  { s with position }

/-- The stream further on. -/
def skip (s : ByteStream) (n : Nat) : ByteStream :=
  s.seek (s.position + n)

/-- The next bytes, at most `n` of them; none at the end. -/
def peek (s : ByteStream) (n : Nat) : Bytes :=
  (s.data.extract s.position (s.position + n)).toList

/-- The most bytes that the next delivery holds. -/
def batch (s : ByteStream) : Nat :=
  max (min 1 s.limit) (s.limit - s.shortfall s.delivered)

/-- The most bytes that a read of `n` bytes delivers; none where reads fail. -/
def reach? (s : ByteStream) (n : Nat) : Option Nat :=
  match s.failAt with
  | none => some (min n s.batch)
  | some f => if f ≤ s.position then none else some (min n (min s.batch (f - s.position)))

/-- The interruptions still to come before the next delivery. -/
def patience (s : ByteStream) : Nat :=
  s.delays s.delivered - s.waited

/-- One read of at most `n` bytes. -/
def read (s : ByteStream) (n : Nat) : ReadResult × ByteStream :=
  if s.waited < s.delays s.delivered then (.interrupted, { s with waited := s.waited + 1 })
  else
    match s.reach? n with
    | none => (.failed s.failure, s)
    | some k =>
      let bytes := s.peek k
      (.delivered bytes,
        { s with position := s.position + bytes.length, delivered := s.delivered + 1, waited := 0 })

theorem patience_lt_of_interrupted {s s' : ByteStream} {n : Nat}
    (h : s.read n = (.interrupted, s')) : s'.patience < s.patience := by
  rw [read] at h
  split at h
  · cases h; simp only [patience]; omega
  · split at h <;> cases h

/-- A read moves the stream by what it delivers, at most to the end, and changes no data. -/
theorem of_delivered {s s' : ByteStream} {n : Nat} {bytes : Bytes}
    (h : s.read n = (.delivered bytes, s')) :
    s'.data = s.data ∧ s'.position = s.position + bytes.length ∧ bytes.length ≤ n ∧
      (bytes ≠ [] → s'.position ≤ s.data.size) := by
  rw [read] at h
  split at h
  · cases h
  · split at h
    · cases h
    · next k hk =>
        cases h
        have hlen : (s.peek k).length = min (s.position + k) s.data.size - s.position := by
          simp only [peek, Array.length_toList, Array.size_extract]
        have hkn : k ≤ n := by
          rw [reach?] at hk
          split at hk
          · cases hk; omega
          · split at hk
            · cases hk
            · cases hk; omega
        refine ⟨rfl, rfl, by omega, fun hne => ?_⟩
        have := List.length_pos_iff.2 hne
        show s.position + (s.peek k).length ≤ _
        omega

theorem data_of_interrupted {s s' : ByteStream} {n : Nat} (h : s.read n = (.interrupted, s')) :
    s'.data = s.data ∧ s'.position = s.position := by
  rw [read] at h
  split at h
  · cases h; exact ⟨rfl, rfl⟩
  · split at h <;> cases h

/-! ### Reading a fixed number of bytes -/

/-- `readExact` in the middle: `n` bytes are still wanted, and `got` has been read. -/
def readExactFrom (s : ByteStream) (n : Nat) (got : Bytes) :
    Except ReadFailure (Option Bytes × ByteStream) :=
  if n = 0 then .ok (some got, s)
  else
    match _h : s.read n with
    | (.interrupted, s') => s'.readExactFrom n got
    | (.failed .unexpectedEnd, s') | (.delivered [], s') => .ok (none, s')
    | (.failed .failed, _) => .error .failed
    | (.delivered (b :: bytes), s') =>
      s'.readExactFrom (n - (b :: bytes).length) (got ++ b :: bytes)
termination_by (n, s.patience)
decreasing_by
  · exact Prod.Lex.right _ (patience_lt_of_interrupted _h)
  · exact Prod.Lex.left _ _ (by rw [List.length_cons]; omega)

/-- The next `n` bytes, or `none` if the stream ends before that. -/
def readExact (s : ByteStream) (n : Nat) : Except ReadFailure (Option Bytes × ByteStream) :=
  s.readExactFrom n []

theorem readExactFrom_spec {s s' : ByteStream} {n : Nat} {got bytes : Bytes}
    (h : s.readExactFrom n got = .ok (some bytes, s')) :
    s'.data = s.data ∧ s'.position = s.position + n ∧ bytes.length = got.length + n ∧
      (0 < n → s'.position ≤ s.data.size) := by
  fun_induction readExactFrom s n got with
  | case1 s got => cases h; simp
  | case2 s n got hn s₁ hr ih =>
      obtain ⟨hd, hp⟩ := data_of_interrupted hr
      have := ih h
      rwa [hd, hp] at this
  | case3 => cases h
  | case4 => cases h
  | case5 => cases h
  | case6 s n got hn b l s₁ hr ih =>
      obtain ⟨hd, hp, hl, he⟩ := of_delivered hr
      obtain ⟨h1, h2, h3, h4⟩ := ih h
      have := he (by simp)
      rw [hd] at h1 h4
      simp only [List.length_append, List.length_cons] at *
      exact ⟨h1, by omega, by omega, fun _ => by
        by_cases hz : n - (l.length + 1) = 0
        · omega
        · exact h4 (by omega)⟩

/-- A successful reading moves the stream by the bytes wanted, at most to the end. -/
theorem readExact_spec {s s' : ByteStream} {n : Nat} {bytes : Bytes}
    (h : s.readExact n = .ok (some bytes, s')) :
    s'.data = s.data ∧ s'.position = s.position + n ∧ bytes.length = n ∧
      (0 < n → s'.position ≤ s.data.size) := by
  simpa using readExactFrom_spec h

/-! ### Reading lines -/

/-- The byte at the end of a line. -/
def lineFeed : UInt8 := 0x0A

/-- The most bytes that are asked for at once when lines are read. -/
def lineBuffer : Nat := 8 * 1024

/-- `readHead` in the middle: `room` bytes and `lines` line ends are still wanted, and `got`
has been read. -/
def readHeadFrom (s : ByteStream) (room lines : Nat) (got : Array UInt8) :
    Except ReadFailure (Bytes × ByteStream) :=
  if room = 0 ∨ lines = 0 then .ok (got.toList, s)
  else
    match _h : s.read (min lineBuffer room) with
    | (.interrupted, s') => s'.readHeadFrom room lines got
    | (.failed failure, _) => .error failure
    | (.delivered [], s') => .ok (got.toList, s')
    | (.delivered (b :: bytes), s') =>
      s'.readHeadFrom (room - (b :: bytes).length) (lines - (b :: bytes).count lineFeed)
        (got ++ b :: bytes)
termination_by (room, s.patience)
decreasing_by
  · exact Prod.Lex.right _ (patience_lt_of_interrupted _h)
  · exact Prod.Lex.left _ _ (by rw [List.length_cons]; omega)

/-- The bytes of the next lines: it is read on until `lines` line ends have come, or `room`
bytes, or the end of the stream. The last delivery may hold more than the lines wanted. -/
def readHead (s : ByteStream) (room lines : Nat) : Except ReadFailure (Bytes × ByteStream) :=
  s.readHeadFrom room lines #[]

end ByteStream

end DocImage
