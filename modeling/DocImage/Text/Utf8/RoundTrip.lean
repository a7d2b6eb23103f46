import DocImage.Text.Utf8

/-!
Reading back what UTF-8 writes. `leading_encodeChar` says that the bytes of a character are read
as that character, whatever follows them, and `decodeLossy_encode_append` that a written text is
read back in front of any bytes. `decode?_encode` is the same for the reader that accepts no
fault.
-/

namespace DocImage.Utf8

/-! ### The shape of a character -/

theorem trailCount_eq_some_iff {first : UInt8} {n : Nat} :
    trailCount first = some n ↔
      n = 0 ∧ first.toNat < 0x80 ∨ n = 1 ∧ 0xC2 ≤ first.toNat ∧ first.toNat < 0xE0 ∨
        n = 2 ∧ 0xE0 ≤ first.toNat ∧ first.toNat < 0xF0 ∨
        n = 3 ∧ 0xF0 ≤ first.toNat ∧ first.toNat < 0xF5 := by
  simp only [trailCount, UInt8.lt_iff_toNat_lt, UInt8.reduceToNat]
  grind

theorem isTrail_iff {b : UInt8} : isTrail b = true ↔ 0x80 ≤ b.toNat ∧ b.toNat < 0xC0 := by
  simp [isTrail, UInt8.lt_iff_toNat_lt, UInt8.le_iff_toNat_le]

theorem isSecond_iff {first b : UInt8} :
    isSecond first b = true ↔ (0x80 ≤ b.toNat ∧ b.toNat < 0xC0) ∧
      (first.toNat = 0xE0 → 0xA0 ≤ b.toNat) ∧ (first.toNat = 0xED → b.toNat < 0xA0) ∧
      (first.toNat = 0xF0 → 0x90 ≤ b.toNat) ∧ (first.toNat = 0xF4 → b.toNat < 0x90) := by
  simp only [isSecond, Bool.and_eq_true, isTrail_iff, UInt8.lt_iff_toNat_lt,
    UInt8.le_iff_toNat_le, beq_iff_eq, ← UInt8.toNat_inj, UInt8.reduceToNat]
  grind

theorem trail_append {first : UInt8} {bytes : Bytes}
    (h : ∀ b ∈ bytes.head?, isSecond first b = true) (ht : ∀ b ∈ bytes.tail, isTrail b = true)
    (l : Bytes) : trail first bytes.length (bytes ++ l) = bytes := by
  cases bytes with
  | nil => cases l <;> simp [trail]
  | cons b bytes =>
      have hw : bytes.takeWhile isTrail = bytes := by
        simpa using @List.takeWhile_append_of_pos _ isTrail bytes [] ht
      rw [List.cons_append, trail, if_pos ⟨by simp, h b rfl⟩]
      simp [hw]

/-- Bytes of the right shape are a whole character. -/
theorem leading_cons_append {first : UInt8} {bytes : Bytes}
    (hn : trailCount first = some bytes.length)
    (h : ∀ b ∈ bytes.head?, isSecond first b = true) (ht : ∀ b ∈ bytes.tail, isTrail b = true)
    (l : Bytes) :
    leading (first :: (bytes ++ l)) =
      (some (Char.ofNat (scalarValue first bytes)), bytes.length + 1) := by
  simp only [leading, hn, trail_append h ht, if_true]

/-! ### Round trips -/

/-- A character is read back from its bytes, whatever follows them. -/
theorem leading_encodeChar (c : Char) (l : Bytes) :
    leading (String.utf8EncodeChar c ++ l) = (some c, (String.utf8EncodeChar c).length) := by
  have hv : c.val.toNat < 0xD800 ∨ 0xDFFF < c.val.toNat ∧ c.val.toNat < 0x110000 := c.valid
  have hc : ∀ n, n = c.val.toNat → Char.ofNat n = c := fun n h => h ▸ Char.ofNat_toNat c
  have hb : ∀ n : Nat, (UInt8.ofNat n).toNat = n % 256 := fun n => UInt8.toNat_ofNat'
  rw [String.utf8EncodeChar]
  generalize c.val.toNat = v at hv hc
  have key : ∀ {first : UInt8} {bytes : Bytes}, trailCount first = some bytes.length →
      (∀ b ∈ bytes.head?, isSecond first b = true) → (∀ b ∈ bytes.tail, isTrail b = true) →
      scalarValue first bytes = v →
      leading (first :: bytes ++ l) = (some c, (first :: bytes).length) := by
    intro first bytes hn h ht hs
    rw [List.cons_append, leading_cons_append hn h ht, hc _ hs, List.length_cons]
  -- one, two, three and four bytes
  split
  · refine key ?_ ?_ ?_ ?_
    · simp [trailCount_eq_some_iff, hb]; omega
    · simp
    · simp
    · simp [scalarValue]; omega
  · split
    · refine key ?_ ?_ ?_ ?_
      · simp [trailCount_eq_some_iff, hb]; omega
      · simp [isSecond_iff, hb]; omega
      · simp
      · simp [scalarValue]; omega
    · split
      · refine key ?_ ?_ ?_ ?_
        · simp [trailCount_eq_some_iff, hb]; omega
        · simp [isSecond_iff, hb]; omega
        · simp [isTrail_iff, hb]; omega
        · simp [scalarValue]; omega
      · refine key ?_ ?_ ?_ ?_
        · simp [trailCount_eq_some_iff, hb]; omega
        · simp [isSecond_iff, hb]; omega
        · simp [isTrail_iff, hb]; omega
        · simp [scalarValue]; omega

theorem encode_append (s t : Text) : encode (s ++ t) = encode s ++ encode t :=
  List.flatMap_append

theorem encodeChar_ne_nil (c : Char) : String.utf8EncodeChar c ≠ [] := by
  intro h
  have hpos := c.utf8Size_pos
  rw [← String.length_utf8EncodeChar, h] at hpos
  simp at hpos

theorem chop_leading_encode_append (s : Text) (l : Bytes) :
    chop leading (encode s ++ l) = s.map some ++ chop leading l := by
  induction s with
  | nil => rfl
  | cons c s ih =>
      rw [encode, List.flatMap_cons, List.append_assoc,
        chop_append leading (encodeChar_ne_nil c) (leading_encodeChar c _), ← encode, ih]
      rfl

/-- A text is read back from its bytes, whatever follows them. -/
theorem decodeLossy_encode_append (s : Text) (l : Bytes) :
    decodeLossy (encode s ++ l) = s ++ decodeLossy l := by
  simp [decodeLossy, chop_leading_encode_append, Function.comp_def]

/-- The bytes of a text have no fault. -/
theorem decode?_encode (s : Text) : decode? (encode s) = some s := by
  have h := chop_leading_encode_append s []
  simp only [List.append_nil, chop_nil] at h
  rw [decode?, h, List.mapM_map]
  clear h
  induction s with
  | nil => rfl
  | cons c s ih => simp_all

end DocImage.Utf8
