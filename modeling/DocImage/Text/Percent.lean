import DocImage.Text.Numeral

/-!
Percent coding: a byte is kept as the character with its number or written as `%` and two
upper-case hexadecimal digits. Which bytes are kept is the writer's choice; the two choices
used here are `isUnreserved` for text inside a data URI and `isPathByte` for the components of
a file URI. `decode_encode_append` says that either way the bytes are read back.
-/

namespace DocImage.Percent

/-- A byte as `%` and two digits. -/
def escapeByte (b : UInt8) : Text :=
  ['%', Hexadecimal.digit (b.toNat / 16), Hexadecimal.digit (b.toNat % 16)]

/-- The bytes with all but those in `keep` escaped. -/
def encode (keep : UInt8 → Bool) (bytes : Bytes) : Text :=
  bytes.flatMap fun b => if keep b then [Char.ofNat b.toNat] else escapeByte b

/-- The bytes that a text stands for: an escape stands for its byte, and every other character
for itself in UTF-8. -/
def decode : Text → Bytes
  | [] => []
  | '%' :: x :: y :: s =>
    match Hexadecimal.digitValue? x, Hexadecimal.digitValue? y with
    | some m, some n => UInt8.ofNat (16 * m + n) :: decode s
    | _, _ => String.utf8EncodeChar '%' ++ decode (x :: y :: s)
  | c :: s => String.utf8EncodeChar c ++ decode s

/-! ### Choices of bytes to keep -/

/-- ASCII letters, digits and `-`, `.`, `_`, `~`. -/
def isUnreserved (b : UInt8) : Bool :=
  let c := Char.ofNat b.toNat
  c.isAlphanum || c == '-' || c == '.' || c == '_' || c == '~'

/-- The bytes that stand for themselves in a component of a URI's path: visible ASCII other
than the characters that would end or change the path. -/
def isPathByte (b : UInt8) : Bool :=
  let c := Char.ofNat b.toNat
  0x20 < b && b < 0x7F &&
    !(c == '"' || c == '#' || c == '%' || c == '/' || c == '<' || c == '>' || c == '?' ||
      c == '\\' || c == '\x60' || c == '\x7b' || c == '\x7d')

/-- A choice is readable if it keeps nothing but ASCII characters that begin no escape. -/
def IsReadable (keep : UInt8 → Bool) : Prop :=
  ∀ b, keep b = true → b.toNat < 0x80 ∧ b.toNat ≠ '%'.toNat

theorem isReadable_of_forall_lt {keep : UInt8 → Bool}
    (h : ∀ n, n < 256 → keep (UInt8.ofNat n) = true → n < 0x80 ∧ n ≠ '%'.toNat) :
    IsReadable keep := by
  intro b hb
  exact h b.toNat b.toNat_lt (by rwa [UInt8.ofNat_toNat])

theorem isReadable_isUnreserved : IsReadable isUnreserved :=
  isReadable_of_forall_lt (by decide +kernel)

theorem isReadable_isPathByte : IsReadable isPathByte :=
  isReadable_of_forall_lt (by decide +kernel)

/-! ### Reading back -/

theorem decode_escapeByte_append (b : UInt8) (s : Text) :
    decode (escapeByte b ++ s) = b :: decode s := by
  have hb := b.toNat_lt
  simp only [escapeByte, List.cons_append, List.nil_append, decode]
  rw [Hexadecimal.digitValue?_digit (by omega), Hexadecimal.digitValue?_digit (by omega)]
  simp only [List.cons.injEq, and_true]
  rw [Nat.div_add_mod, UInt8.ofNat_toNat]

theorem decode_char_append {b : UInt8} (h : b.toNat < 0x80) (hp : b.toNat ≠ '%'.toNat) (s : Text) :
    decode (Char.ofNat b.toNat :: s) = b :: decode s := by
  have hv : (Char.ofNat b.toNat).toNat = b.toNat := by
    rw [Char.ofNat, dif_pos (.inl (by omega))]; rfl
  have hc : Char.ofNat b.toNat ≠ '%' := fun he => hp (by rw [← hv, he])
  have he : String.utf8EncodeChar (Char.ofNat b.toNat) = [b] := by
    rw [String.utf8EncodeChar]
    change (if (Char.ofNat b.toNat).toNat ≤ 127 then
      [UInt8.ofNat (Char.ofNat b.toNat).toNat] else _) = _
    rw [hv, if_pos (by omega), UInt8.ofNat_toNat]
  rw [decode, he]
  · rfl
  · intro _ _ _ h; exact absurd h hc

/-- Bytes are read back from their percent coding, whatever follows it. -/
theorem decode_encode_append {keep : UInt8 → Bool} (h : IsReadable keep) (bytes : Bytes)
    (s : Text) : decode (encode keep bytes ++ s) = bytes ++ decode s := by
  induction bytes with
  | nil => rfl
  | cons b bytes ih =>
      rw [encode, List.flatMap_cons, List.append_assoc, ← encode]
      split
      · next hb =>
          rw [List.singleton_append, decode_char_append (h b hb).1 (h b hb).2, ih]
          rfl
      · rw [decode_escapeByte_append, ih]; rfl

end DocImage.Percent
