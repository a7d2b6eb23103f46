import Mathlib
import DocImage.Text.Base64
import DocImage.Text.Encoding
import DocImage.Text.Percent
import DocImage.Text.Utf8.RoundTrip

/-!
What coded bytes look like and what decoded bytes are.

* `Percent.escaped_encode`: percent coding consists of the characters that are kept and of escapes,
  and `Percent.decode_cons` reads it from the left.
* `Base64.isLiteral_of_mem_encode`: base64 can stand anywhere in an element.
* `encode_decodeText_encode`: UTF-8 is decoded to the text that it is, without one mark at its
  beginning.
-/

namespace DocImage

/-! ### Characters -/

/-- What is evaluated for every character of a text holds of them. -/
lemma forall_mem_of_all {p : Char → Prop} [DecidablePred p] {s : Text}
    (h : (s.all fun c => decide (p c)) = true) : ∀ c ∈ s, p c := by
  simpa using h

/-- Visible ASCII that may stand in an attribute of an element. -/
def IsPlain (c : Char) : Prop :=
  0x20 < c.toNat ∧ c.toNat < 0x7F ∧ c ≠ '<' ∧ c ≠ '>' ∧ c ≠ '"'

instance (c : Char) : Decidable (IsPlain c) :=
  inferInstanceAs (Decidable (_ ∧ _))

/-- A plain character that stands for itself in an attribute, whatever its quotes are. -/
def IsLiteral (c : Char) : Prop :=
  IsPlain c ∧ c ≠ '\'' ∧ c ≠ '&'

instance (c : Char) : Decidable (IsLiteral c) :=
  inferInstanceAs (Decidable (_ ∧ _))

/-- An ASCII letter or digit, or `-`, `.`, `_`, `~`. -/
def IsUnreserved (c : Char) : Prop :=
  c.isAlphanum = true ∨ c ∈ ['-', '.', '_', '~']

instance (c : Char) : Decidable (IsUnreserved c) :=
  inferInstanceAs (Decidable (_ ∨ _))

lemma isAlphanum_iff {c : Char} :
    c.isAlphanum = true ↔ (0x41 ≤ c.toNat ∧ c.toNat ≤ 0x5A ∨ 0x61 ≤ c.toNat ∧ c.toNat ≤ 0x7A) ∨
      0x30 ≤ c.toNat ∧ c.toNat ≤ 0x39 := by
  simp only [Char.isAlphanum, Char.isAlpha, Char.isUpper, Char.isLower, Char.isDigit,
    UInt32.le_iff_toNat_le, Bool.or_eq_true, Bool.and_eq_true, decide_eq_true_eq, ge_iff_le]
  rfl

/-- ASCII letters and digits stand for themselves everywhere. -/
lemma isLiteral_of_isAlphanum {c : Char} (h : c.isAlphanum = true) : IsLiteral c := by
  rw [isAlphanum_iff] at h
  have hne : ∀ d : Char, c.toNat ≠ d.toNat → c ≠ d := fun d => mt (congrArg Char.toNat)
  refine ⟨⟨by omega, by omega, hne _ ?_, hne _ ?_, hne _ ?_⟩, hne _ ?_, hne _ ?_⟩ <;>
    simp only [Char.reduceToNat] <;> omega

lemma isLiteral_of_isUnreserved {c : Char} (h : IsUnreserved c) : IsLiteral c := by
  obtain h | h := h
  · exact isLiteral_of_isAlphanum h
  · exact forall_mem_of_all (p := IsLiteral) (by decide) c h

/-! ### Percent coding -/

lemma isAlphanum_of_digitValue? {c : Char} (h : (Hexadecimal.digitValue? c).isSome) :
    c.isAlphanum = true := by
  rw [Hexadecimal.digitValue?] at h
  split_ifs at h with hd hl hu
  · rw [Char.isAlphanum, hd, Bool.or_true]
  · have hl' : 0x61 ≤ c.toNat ∧ c.toNat ≤ 0x66 := hl
    rw [isAlphanum_iff]
    omega
  · have hu' : 0x41 ≤ c.toNat ∧ c.toNat ≤ 0x46 := hu
    rw [isAlphanum_iff]
    omega
  · cases h

/-- What holds of the bytes up to 255 holds of all bytes. -/
lemma forall_byte {p : UInt8 → Prop} (h : ∀ n < 256, p (UInt8.ofNat n)) (b : UInt8) : p b := by
  have hb := h b.toNat b.toNat_lt
  rwa [UInt8.ofNat_toNat] at hb

/-- Every byte is the code of a character. -/
lemma toNat_ofNat_toNat (b : UInt8) : (Char.ofNat b.toNat).toNat = b.toNat := by
  have hb := b.toNat_lt
  rw [Char.ofNat, dif_pos (.inl (by omega))]
  rfl

lemma isPlain_of_isPathByte (b : UInt8) (h : Percent.isPathByte b = true) :
    IsPlain (Char.ofNat b.toNat) :=
  forall_byte (p := fun b => Percent.isPathByte b = true → IsPlain (Char.ofNat b.toNat))
    (by decide +kernel) b h

lemma isUnreserved_ofNat (b : UInt8) (h : Percent.isUnreserved b = true) :
    IsUnreserved (Char.ofNat b.toNat) :=
  forall_byte (p := fun b => Percent.isUnreserved b = true → IsUnreserved (Char.ofNat b.toNat))
    (by decide +kernel) b h

namespace Percent

/-- A row of escapes and of characters that satisfy `P`. -/
inductive Escaped (P : Char → Prop) : Text → Prop
  | nil : Escaped P []
  | kept {c : Char} {s : Text} : P c → Escaped P s → Escaped P (c :: s)
  | escape {x y : Char} {s : Text} : (Hexadecimal.digitValue? x).isSome →
      (Hexadecimal.digitValue? y).isSome → Escaped P s → Escaped P ('%' :: x :: y :: s)

lemma escaped_encode {keep : UInt8 → Bool} {P : Char → Prop}
    (h : ∀ b, keep b = true → P (Char.ofNat b.toNat)) (bytes : Bytes) :
    Escaped P (encode keep bytes) := by
  induction bytes with
  | nil => exact .nil
  | cons b bytes ih =>
      have hb := b.toNat_lt
      rw [encode, List.flatMap_cons, ← encode]
      split
      · next hk => exact .kept (h b hk) ih
      · refine .escape ?_ ?_ ih
        · rw [Hexadecimal.digitValue?_digit (by omega), Option.isSome_some]
        · rw [Hexadecimal.digitValue?_digit (by omega), Option.isSome_some]

/-- What holds of `%`, of the digits of escapes and of the characters that are kept holds of all. -/
lemma Escaped.forall_mem {P Q : Char → Prop} {s : Text} (h : Escaped P s) (hp : Q '%')
    (hd : ∀ c, (Hexadecimal.digitValue? c).isSome → Q c) (hk : ∀ c, P c → Q c) : ∀ c ∈ s, Q c := by
  induction h with
  | nil => exact List.forall_mem_nil _
  | kept hc _ ih => exact List.forall_mem_cons.mpr ⟨hk _ hc, ih⟩
  | escape hx hy _ ih =>
      simp only [List.forall_mem_cons]
      exact ⟨hp, hd _ hx, hd _ hy, ih⟩

/-- A character stands for itself unless it begins an escape. -/
lemma decode_cons {c : Char} {s : Text}
    (h : ∀ x y r, c = '%' → s = x :: y :: r →
      (Hexadecimal.digitValue? x).isSome → Hexadecimal.digitValue? y = none) :
    decode (c :: s) = String.utf8EncodeChar c ++ decode s := by
  rw [decode.eq_def]
  split
  · next heq => cases heq
  · next x y r heq =>
      obtain ⟨rfl, rfl⟩ := List.cons.inj heq
      cases hx : Hexadecimal.digitValue? x with
      | none => rfl
      | some m =>
          rw [h x y r rfl rfl (by rw [hx, Option.isSome_some])]
  · next c' s' hne heq =>
      obtain ⟨rfl, rfl⟩ := List.cons.inj heq
      rfl

end Percent

/-! ### Base64 -/

namespace Base64

lemma isLiteral_digit (n : Nat) : IsLiteral (digit n) := by
  by_cases h : n < 64
  · exact (by decide +kernel : ∀ n < 64, IsLiteral (digit n)) n h
  · rw [digit, if_neg (by omega), if_neg (by omega), if_neg (by omega), if_neg (by omega)]
    decide

lemma isLiteral_of_mem_group (bytes : Bytes) : ∀ c ∈ group bytes, IsLiteral c := by
  have hfill : IsLiteral '=' := by decide
  fun_cases group bytes <;> simp [isLiteral_digit, hfill]

lemma isLiteral_of_mem_encode : ∀ (bytes : Bytes), ∀ c ∈ encode bytes, IsLiteral c
  | [] => by simp
  | [a] => by
      rw [encode_of_length_le (by simp)]
      exact isLiteral_of_mem_group _
  | [a, b] => by
      rw [encode_of_length_le (by simp)]
      exact isLiteral_of_mem_group _
  | a :: b :: c :: l => by
      rw [encode_cons_cons_cons]
      exact List.forall_mem_append.mpr ⟨isLiteral_of_mem_group _, isLiteral_of_mem_encode l⟩

end Base64

/-! ### UTF-8 -/

/-- The bytes of a byte-order mark. -/
def markBytes : Bytes := [0xEF, 0xBB, 0xBF]

/-- No text begins with a byte that begins no character. -/
lemma Utf8.encode_ne_cons {b : UInt8} (hb : trailCount b = none) (s : Text) (l : Bytes) :
    encode s ≠ b :: l := by
  intro h
  cases s with
  | nil => cases h
  | cons c s =>
      have hc := chop_leading_encode_append (c :: s) []
      rw [List.append_nil, h, chop_cons, leading, hb] at hc
      cases hc

/-- What begins with the bytes of a text is a text that begins with it. -/
lemma Utf8.exists_of_encode_eq_append {s p : Text} {l : Bytes} (h : encode s = encode p ++ l) :
    ∃ s', s = p ++ s' ∧ l = encode s' := by
  have hchop : s.map some = p.map some ++ chop leading l := by
    rw [← chop_leading_encode_append p l, ← h]
    simpa using (chop_leading_encode_append s []).symm
  obtain ⟨p', s', rfl, hp, -⟩ := List.map_eq_append_iff.mp hchop
  obtain rfl := List.map_injective_iff.mpr (Option.some_injective Char) hp
  rw [encode_append] at h
  exact ⟨s', rfl, (List.append_cancel_left h).symm⟩

lemma Utf8.decodeLossy_encode (s : Text) : decodeLossy (encode s) = s := by
  simpa [decodeLossy] using decodeLossy_encode_append s []

/-- UTF-8 is decoded to the text that it is, without one mark at its beginning. -/
lemma encode_decodeText_encode (s : Text) :
    Utf8.encode (decodeText (Utf8.encode s)) =
      (after? markBytes (Utf8.encode s)).getD (Utf8.encode s) := by
  rw [decodeText.eq_def]
  split
  · next l h =>
      obtain ⟨s', rfl, rfl⟩ := Utf8.exists_of_encode_eq_append (p := [byteOrderMark]) h
      have ha : after? markBytes (Utf8.encode ([byteOrderMark] ++ s')) = some (Utf8.encode s') :=
        after?_eq_some_iff.mpr (Utf8.encode_append _ _)
      rw [Utf8.decodeLossy_encode, ha, Option.getD_some]
  · next l h => exact absurd h (Utf8.encode_ne_cons rfl s _)
  · next l h => exact absurd h (Utf8.encode_ne_cons rfl s _)
  · next hmark _ _ =>
      rw [Utf8.decodeLossy_encode]
      cases ha : after? markBytes (Utf8.encode s) with
      | none => rfl
      | some l => exact absurd (after?_eq_some_iff.mp ha) (hmark l)

end DocImage
