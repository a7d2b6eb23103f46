import Mathlib.Tactic
import DocImage.Proofs.Text.Coding

/-!
What a reader of UTF-8 makes of bytes that need not be a text.

* `Utf8.encodeChar_ofNat`: bytes of the right shape are those that write their character, so a
  character is read from exactly these bytes (`Utf8.eq_append_of_leading`).
* `Utf8.decode?_eq_some_iff`: bytes without a fault are those of one text.
* `Utf8.infix_decodeLossy_iff`: a word in ASCII stands in the text that is read exactly where its
  bytes stand. Faults neither make such a word nor hide one.
-/

namespace DocImage

/-- What is chopped off behind some values comes from an end of the list. -/
lemma exists_of_chop_eq_append {α β : Type} {f : List α → β × Nat} {l : List α} {u v : List β}
    (h : chop f l = u ++ v) : ∃ x y, l = x ++ y ∧ chop f y = v := by
  induction u generalizing l with
  | nil => exact ⟨[], l, rfl, h⟩
  | cons b u ih =>
      cases l with
      | nil =>
          rw [chop_nil] at h
          cases h
      | cons a l =>
          rw [chop_cons, List.cons_append] at h
          obtain ⟨x, y, hxy, hy⟩ := ih (List.cons.inj h).2
          refine ⟨a :: (l.take ((f (a :: l)).2 - 1) ++ x), y, ?_, hy⟩
          rw [List.cons_append, List.append_assoc, ← hxy, List.take_append_drop]

namespace Utf8

/-! ### The shape of a character -/

/-- What is found behind a first byte stands there and has the shape of the rest of a character. -/
lemma trail_spec (first : UInt8) (n : Nat) (l : Bytes) :
    trail first n l <+: l ∧ (∀ b ∈ (trail first n l).head?, isSecond first b = true) ∧
      ∀ b ∈ (trail first n l).tail, isTrail b = true := by
  cases l with
  | nil => simp [trail]
  | cons b l =>
      rw [trail]
      split
      · next h =>
          have hp : (l.take (n - 1)).takeWhile isTrail <+: l :=
            (List.takeWhile_prefix isTrail).trans (List.take_prefix (n - 1) l)
          exact ⟨(List.prefix_cons_inj b).mpr hp, by simpa using h.2,
            List.all_eq_true.mp List.all_takeWhile⟩
      · simp

/-- Bytes of the right shape are those that write their character. -/
lemma encodeChar_ofNat {first : UInt8} {bytes : Bytes}
    (hn : trailCount first = some bytes.length)
    (h : ∀ b ∈ bytes.head?, isSecond first b = true) (ht : ∀ b ∈ bytes.tail, isTrail b = true) :
    String.utf8EncodeChar (Char.ofNat (scalarValue first bytes)) = first :: bytes := by
  have hv : ∀ v, Nat.isValidChar v → (Char.ofNat v).val.toNat = v := fun v hv => by
    rw [Char.ofNat, dif_pos hv]
    rfl
  have hb : ∀ n : Nat, (UInt8.ofNat n).toNat = n % 256 := fun n => UInt8.toNat_ofNat'
  rw [trailCount_eq_some_iff] at hn
  -- one, two, three and four bytes; the shape keeps the number within the range for its length
  match bytes, hn, h, ht with
  | [], hn, _, _ =>
      simp only [List.length_nil] at hn
      have hs : scalarValue first [] = first.toNat := rfl
      rw [hs, String.utf8EncodeChar, hv _ (by unfold Nat.isValidChar; omega), if_pos (by omega),
        UInt8.ofNat_toNat]
  | [b], hn, h, _ =>
      simp [isSecond_iff] at hn h
      have hs : scalarValue first [b] = 64 * (first.toNat - 0xC0) + (b.toNat - 0x80) := rfl
      rw [hs, String.utf8EncodeChar, hv _ (by unfold Nat.isValidChar; omega), if_neg (by omega),
        if_pos (by omega)]
      simp only [List.cons.injEq, ← UInt8.toNat_inj, hb, and_true]
      omega
  | [b, c], hn, h, ht =>
      simp [isSecond_iff, isTrail_iff] at hn h ht
      have hs : scalarValue first [b, c] =
          64 * (64 * (first.toNat - 0xE0) + (b.toNat - 0x80)) + (c.toNat - 0x80) := rfl
      rw [hs, String.utf8EncodeChar, hv _ (by unfold Nat.isValidChar; omega), if_neg (by omega),
        if_neg (by omega), if_pos (by omega)]
      simp only [List.cons.injEq, ← UInt8.toNat_inj, hb, and_true]
      omega
  | [b, c, d], hn, h, ht =>
      simp [isSecond_iff, isTrail_iff] at hn h ht
      have hs : scalarValue first [b, c, d] =
          64 * (64 * (64 * (first.toNat - 0xF0) + (b.toNat - 0x80)) + (c.toNat - 0x80)) +
            (d.toNat - 0x80) := rfl
      rw [hs, String.utf8EncodeChar, hv _ (by unfold Nat.isValidChar; omega), if_neg (by omega),
        if_neg (by omega), if_neg (by omega)]
      simp only [List.cons.injEq, ← UInt8.toNat_inj, hb, and_true]
      omega
  | _ :: _ :: _ :: _ :: _, hn, _, _ =>
      simp at hn

/-- A character is read from exactly the bytes that write it. -/
lemma eq_append_of_leading {l : Bytes} {c : Char} {n : Nat} (h : leading l = (some c, n)) :
    ∃ rest, l = String.utf8EncodeChar c ++ rest ∧ n = (String.utf8EncodeChar c).length := by
  cases l with
  | nil => cases h
  | cons first l =>
      obtain ⟨⟨rest, hrest⟩, hs, ht⟩ := trail_spec first ((trailCount first).getD 0) l
      rw [leading] at h
      cases hn : trailCount first with
      | none =>
          rw [hn] at h
          cases h
      | some m =>
          rw [hn, Option.getD_some] at hrest hs ht
          simp only [hn] at h
          split at h
          · next hl =>
              obtain ⟨hc, rfl⟩ := Prod.mk.inj h
              obtain rfl := Option.some.inj hc
              rw [encodeChar_ofNat (by rw [hn, hl]) hs ht]
              exact ⟨rest, by rw [List.cons_append, hrest], by rw [List.length_cons, hl]⟩
          · cases (Prod.mk.inj h).1

/-! ### Bytes without a fault -/

/-- Characters that are read in front are written in front. -/
lemma exists_of_chop_leading_eq_append {l : Bytes} {s : Text} {r : List (Option Char)}
    (h : chop leading l = s.map some ++ r) : ∃ l', l = encode s ++ l' ∧ chop leading l' = r := by
  induction s generalizing l with
  | nil => exact ⟨l, rfl, h⟩
  | cons c s ih =>
      cases l with
      | nil =>
          rw [chop_nil] at h
          cases h
      | cons a l =>
          rw [chop_cons, List.map_cons, List.cons_append] at h
          obtain ⟨hc, hr⟩ := List.cons.inj h
          have hlead : leading (a :: l) = (some c, (leading (a :: l)).2) := Prod.ext hc rfl
          obtain ⟨rest, hl, hn⟩ := eq_append_of_leading hlead
          obtain ⟨l', hl', hr'⟩ := ih hr
          refine ⟨l', ?_, hr'⟩
          have hpos : 0 < (leading (a :: l)).2 := by
            rw [hn]
            exact List.length_pos_iff.mpr (encodeChar_ne_nil c)
          have hdrop : l.drop ((leading (a :: l)).2 - 1) = rest :=
            calc l.drop ((leading (a :: l)).2 - 1)
                = (a :: l).drop ((leading (a :: l)).2 - 1 + 1) := List.drop_succ_cons.symm
              _ = (String.utf8EncodeChar c ++ rest).drop (String.utf8EncodeChar c).length := by
                  rw [Nat.sub_add_cancel hpos, hn, hl]
              _ = rest := List.drop_left
          rw [encode, List.flatMap_cons, ← encode, List.append_assoc, ← hl', hdrop, hl]

lemma mapM_id_eq_some_iff {α : Type} {l : List (Option α)} {s : List α} :
    l.mapM id = some s ↔ l = s.map some := by
  induction l generalizing s with
  | nil =>
      cases s <;> simp
  | cons a l ih =>
      rw [List.mapM_cons, id_eq]
      cases a with
      | none => cases s <;> simp
      | some a =>
          cases s with
          | nil => simp [Option.bind_eq_some_iff]
          | cons b s => simp [Option.bind_eq_some_iff, ih, and_comm]

/-- Bytes without a fault are those of one text. -/
lemma decode?_eq_some_iff {bytes : Bytes} {s : Text} :
    decode? bytes = some s ↔ bytes = encode s := by
  constructor
  · intro h
    rw [decode?, mapM_id_eq_some_iff, ← List.append_nil (s.map some)] at h
    obtain ⟨l, rfl, hl⟩ := exists_of_chop_leading_eq_append h
    cases l with
    | nil => rw [List.append_nil]
    | cons a l =>
        rw [chop_cons] at hl
        cases hl
  · rintro rfl
    exact decode?_encode s

/-! ### Words in ASCII -/

/-- A word in ASCII. -/
def IsAscii (word : Text) : Prop :=
  ∀ c ∈ word, c.toNat < 0x80

/-- No fault is read as an ASCII character. -/
lemma eq_map_some_of_isAscii {word : Text} (h : IsAscii word) {found : List (Option Char)}
    (hfound : found.map (fun c => c.getD replacement) = word) : found = word.map some := by
  subst hfound
  induction found with
  | nil => rfl
  | cons c found ih =>
      obtain ⟨hc, ht⟩ := List.forall_mem_cons.mp h
      cases c with
      | none => exact absurd hc (by decide)
      | some c => exact congrArg (some c :: ·) (ih ht)

/-- A text in ASCII has one byte for each character. -/
lemma encode_of_isAscii {word : Text} (h : IsAscii word) :
    encode word = word.map fun c => UInt8.ofNat c.toNat := by
  induction word with
  | nil => rfl
  | cons c word ih =>
      obtain ⟨hc, hw⟩ := List.forall_mem_cons.mp h
      have hbytes : String.utf8EncodeChar c = [UInt8.ofNat c.toNat] := by
        rw [String.utf8EncodeChar]
        exact if_pos (Nat.le_of_lt_succ hc)
      rw [encode, List.flatMap_cons, ← encode, ih hw, hbytes]
      rfl

lemma toNat_ofNat_of_isAscii {c : Char} (h : c.toNat < 0x80) :
    (UInt8.ofNat c.toNat).toNat = c.toNat := by
  rw [UInt8.toNat_ofNat']
  omega

/-- A text in ASCII is read from its bytes one by one. -/
lemma eq_encode_iff_of_isAscii {word : Text} (h : IsAscii word) {bytes : Bytes} :
    bytes = encode word ↔ bytes.map (fun b => Char.ofNat b.toNat) = word := by
  rw [encode_of_isAscii h]
  constructor
  · rintro rfl
    rw [List.map_map]
    refine (List.map_congr_left fun c hc => ?_).trans (List.map_id' word)
    rw [Function.comp_apply, toNat_ofNat_of_isAscii (h c hc), Char.ofNat_toNat]
  · rintro rfl
    rw [List.map_map]
    refine (List.map_id' bytes).symm.trans (List.map_congr_left fun b _ => ?_)
    rw [Function.comp_apply, toNat_ofNat_toNat, UInt8.ofNat_toNat]

/-- The byte of an ASCII character continues no other one. -/
lemma isTrail_of_isAscii {c : Char} (h : c.toNat < 0x80) :
    isTrail (UInt8.ofNat c.toNat) = false := by
  rw [Bool.eq_false_iff, ne_eq, isTrail_iff, toNat_ofNat_of_isAscii h]
  omega

/-- A byte that continues no character ends the one before it. -/
lemma trail_append_cons {b : UInt8} (hb : isTrail b = false) (first : UInt8) (n : Nat)
    (x y : Bytes) : trail first n (x ++ b :: y) = trail first n x := by
  have hstop : ∀ m x, ((x ++ b :: y).take m).takeWhile isTrail = (x.take m).takeWhile isTrail := by
    intro m x
    induction x generalizing m with
    | nil => cases m <;> simp [hb]
    | cons a x ih =>
        cases m with
        | zero => rfl
        | succ m =>
            rw [List.cons_append, List.take_succ_cons, List.take_succ_cons, List.takeWhile_cons,
              List.takeWhile_cons, ih]
  cases x with
  | nil => simp [trail, isSecond, hb]
  | cons a x => rw [List.cons_append, trail, trail, hstop]

lemma leading_append_cons {b : UInt8} (hb : isTrail b = false) (a : UInt8) (x y : Bytes) :
    leading (a :: (x ++ b :: y)) = leading (a :: x) ∧ (leading (a :: x)).2 ≤ x.length + 1 := by
  rw [leading, leading]
  cases trailCount a with
  | none => simp
  | some n =>
      have hl := (trail_spec a n x).1.length_le
      simp only [trail_append_cons hb]
      refine ⟨trivial, ?_⟩
      split <;> simp only <;> omega

/-- Reading begins anew at a byte that continues no character. -/
lemma chop_leading_append_cons {b : UInt8} (hb : isTrail b = false) (x y : Bytes) :
    chop leading (x ++ b :: y) = chop leading x ++ chop leading (b :: y) := by
  induction hn : x.length using Nat.strong_induction_on generalizing x with
  | _ n ih =>
      cases x with
      | nil => rw [chop_nil, List.nil_append, List.nil_append]
      | cons a x =>
          obtain ⟨heq, hle⟩ := leading_append_cons hb a x y
          rw [List.length_cons] at hn
          have hlen : (x.drop ((leading (a :: x)).2 - 1)).length < n := by
            rw [List.length_drop]
            omega
          rw [List.cons_append, chop_cons, heq, chop_cons, List.drop_append_of_le_length (by omega),
            ih _ hlen _ rfl, List.cons_append]

/-- **A word in ASCII stands in the text that is read exactly where its bytes stand.** -/
lemma infix_decodeLossy_iff {word : Text} (h : IsAscii word) (bytes : Bytes) :
    word <:+: decodeLossy bytes ↔ encode word <:+: bytes := by
  constructor
  · rintro ⟨u, v, huv⟩
    obtain ⟨cs, cs', hchop, hword, -⟩ := List.map_eq_append_iff.mp huv.symm
    obtain ⟨before, found, rfl, -, hfound⟩ := List.map_eq_append_iff.mp hword
    rw [eq_map_some_of_isAscii h hfound, List.append_assoc] at hchop
    obtain ⟨x, l, rfl, hl⟩ := exists_of_chop_eq_append hchop
    obtain ⟨y, rfl, -⟩ := exists_of_chop_leading_eq_append hl
    exact ⟨x, y, List.append_assoc x _ y⟩
  · rintro ⟨x, y, rfl⟩
    cases word with
    | nil => exact List.nil_infix
    | cons c word =>
        have hread : decodeLossy (x ++ encode (c :: word) ++ y) =
            decodeLossy x ++ (c :: word) ++ decodeLossy y := by
          rw [List.append_assoc, List.append_assoc, ← decodeLossy_encode_append,
            encode_of_isAscii h, List.map_cons, List.cons_append, decodeLossy,
            chop_leading_append_cons (isTrail_of_isAscii (h c List.mem_cons_self)), List.map_append]
          rfl
        exact ⟨decodeLossy x, decodeLossy y, hread.symm⟩

end Utf8

end DocImage
