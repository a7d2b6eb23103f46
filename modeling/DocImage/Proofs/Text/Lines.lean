import Mathlib.Tactic
import DocImage.Proofs.Text.Faults
import DocImage.Proofs.Text.Occurrence

/-!
Cutting a text and cutting its bytes.

* `Utf8.mem_encode_iff`: the byte of an ASCII character stands only where that character stands.
* `Utf8.splitOn_encode` and `Utf8.dropEnd_encode`: so a text may be split at such a character, and
  such characters may be dropped at its end, before or after it is encoded.
* `eq_decodeText_encode_or`: the bytes of a text are decoded to it, but for a mark at its beginning.
-/

namespace DocImage

namespace Utf8

section Ascii

variable {d : Char} (hd : d.toNat < 0x80)
include hd

lemma encode_singleton_of_ascii : encode [d] = [UInt8.ofNat d.toNat] :=
  encode_of_isAscii (List.forall_mem_singleton.mpr hd)

/-- The byte of an ASCII character is part of no other character. -/
lemma mem_encode_iff {s : Text} : UInt8.ofNat d.toNat ∈ encode s ↔ d ∈ s := by
  have hword := infix_decodeLossy_iff (List.forall_mem_singleton.mpr hd : IsAscii [d]) (encode s)
  rw [decodeLossy_encode, encode_singleton_of_ascii hd, List.singleton_infix_iff,
    List.singleton_infix_iff] at hword
  exact hword.symm

/-- The pieces between ASCII characters may be taken before or after encoding. -/
lemma splitOn_encode (s : Text) :
    (encode s).splitOn (UInt8.ofNat d.toNat) = (s.splitOn d).map encode := by
  induction s using induction_on_separator d with
  | piece piece h =>
      rw [List.splitOn_eq_singleton h, List.map_singleton,
        List.splitOn_eq_singleton (mt (mem_encode_iff hd).mp h)]
  | separated piece rest h ih =>
      have hbytes : encode (piece ++ d :: rest) =
          encode piece ++ UInt8.ofNat d.toNat :: encode rest := by
        rw [encode_append, ← List.singleton_append, encode_append, encode_singleton_of_ascii hd]
        rfl
      rw [hbytes, List.splitOn_append_cons_self_of_not_mem (mt (mem_encode_iff hd).mp h),
        List.splitOn_append_cons_self_of_not_mem h, List.map_cons, ih]

/-- ASCII characters at the end may be dropped before or after encoding. -/
lemma dropEnd_encode (s : Text) :
    dropEnd (· == UInt8.ofNat d.toNat) (encode s) = encode (dropEnd (· == d) s) := by
  induction s using List.reverseRecOn with
  | nil => rfl
  | append_singleton s c ih =>
      by_cases hc : c = d
      · subst hc
        rw [encode_append, encode_singleton_of_ascii hd, dropEnd_append (by simp),
          dropEnd_append (by simp), ih]
      · have hlast : ∀ b ∈ (encode (s ++ [c])).getLast?, (b == UInt8.ofNat d.toNat) = false := by
          intro b hb
          have hne : encode [c] ≠ [] := by simp [encode]
          rw [encode_append, List.getLast?_append_of_ne_nil _ hne] at hb
          have hmem := List.mem_of_getLast? hb
          refine beq_eq_false_iff_ne.mpr fun he => ?_
          rw [he, mem_encode_iff hd, List.mem_singleton] at hmem
          exact hc hmem.symm
        rw [dropEnd_eq_self hlast, dropEnd_eq_self (by simpa using hc)]

end Ascii

lemma encode_injective : Function.Injective encode :=
  Function.LeftInverse.injective decodeLossy_encode

end Utf8

/-- A text is decoded from its bytes, but a mark at its beginning is not part of what is decoded. -/
lemma eq_decodeText_encode_or (s : Text) :
    s = decodeText (Utf8.encode s) ∨ s = byteOrderMark :: decodeText (Utf8.encode s) := by
  have hdecoded := encode_decodeText_encode s
  cases ha : after? markBytes (Utf8.encode s) with
  | none =>
      rw [ha, Option.getD_none] at hdecoded
      exact .inl (Utf8.encode_injective hdecoded).symm
  | some l =>
      rw [ha, Option.getD_some] at hdecoded
      have hs := after?_eq_some_iff.mp ha
      rw [← hdecoded] at hs
      exact .inr (Utf8.encode_injective hs)

/-- A mark in front of a text is not part of what is decoded. -/
lemma decodeText_markBytes_append (s : Text) : decodeText (markBytes ++ Utf8.encode s) = s :=
  Utf8.decodeLossy_encode s

end DocImage
