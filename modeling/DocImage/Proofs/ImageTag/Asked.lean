import Mathlib.Tactic
import DocImage.ImageTag.Basic
import DocImage.Proofs.Text.Units

/-!
What the attributes of an image tag ask for, in whatever way they are written.

* `PixelText` is a number of pixels as it may be written, `pixels?_write` says which of them are
  read.
* `ImageTag.Asks` says of some attributes that they ask for an image with an address and bounds:
  which attributes there must be, which ones there must not be, and nothing of their order or of
  other attributes. `ImageTag.Asks.ofAttributes?_eq` says that such attributes are read so.
-/

namespace DocImage

open Markup

/-! ### Numbers of pixels -/

/-- A number of pixels as it may be written: digits, any units behind them, and blanks around both.
-/
structure PixelText where
  left : Text
  digits : Text
  gap : Text
  units : Text
  right : Text
  digits_ne_nil : digits ≠ []
  isDigit_of_mem : ∀ c ∈ digits, c.isDigit = true
  isBlank_of_mem : ∀ c ∈ left ++ (gap ++ right), isBlank c = true
  mem_of_mem_units : ∀ c ∈ units, c ∈ ['p', 'x', 'P', 'X']

namespace PixelText

variable (t : PixelText)

/-- The text itself. -/
def write : Text :=
  t.left ++ (t.digits ++ (t.gap ++ (t.units ++ t.right)))

/-- The number that is written. -/
def count : Nat :=
  Numeral.value 10 (t.digits.map Numeral.digitValue)

/-- The number with the letters of `px` as its units, and without a sign. -/
def toUnitText : UnitText ['p', 'x', 'P', 'X'] where
  left := t.left
  plus := false
  digits := t.digits
  gap := t.gap
  run := t.units
  right := t.right
  digits_ne_nil := t.digits_ne_nil
  isDigit_of_mem := t.isDigit_of_mem
  isBlank_of_mem := t.isBlank_of_mem
  mem_of_mem_run := t.mem_of_mem_units

/-- A written number of pixels is read if it is positive and below `2 ^ 31`. -/
lemma pixels?_write :
    pixels? t.write = if 0 < t.count ∧ t.count < 2 ^ 31 then some t.count else none := by
  have hwrite : t.write = t.toUnitText.write := rfl
  rw [pixels?, hwrite, t.toUnitText.withoutUnits_write (by decide),
    t.toUnitText.readPositive?_number]
  rfl

lemma amp_notMem_write : '&' ∉ t.write := by
  intro h
  simp only [write, List.mem_append] at h
  rcases h with h | h | h | h | h
  · exact absurd (t.toUnitText.isBlank_of_mem_left _ h) (by decide)
  · exact absurd (t.isDigit_of_mem _ h) (by decide)
  · exact absurd (t.toUnitText.isBlank_of_mem_gap _ h) (by decide)
  · exact absurd (t.mem_of_mem_units _ h) (by decide)
  · exact absurd (t.toUnitText.isBlank_of_mem_right _ h) (by decide)

end PixelText

/-! ### Looking attributes up -/

/-- A text without `&` stands for itself. -/
lemma Markup.unescape?_eq_self {v : Text} (h : '&' ∉ v) : unescape? v = some v := by
  have key : ∀ (v read : Text), '&' ∉ v →
      Reference.unescapeFrom? read v = some (read.reverse ++ v) := by
    intro v
    induction v with
    | nil => intro read _; simp [Reference.unescapeFrom?]
    | cons c v ih =>
        intro read hv
        rw [List.mem_cons, not_or] at hv
        rw [Reference.unescapeFrom?.eq_3 _ _ _ (Ne.symm hv.1), ih _ hv.2]
        simp
  exact key v [] h

namespace ImageTag

lemma valueOf_eq {a : Attribute} (h : '&' ∉ a.value) : valueOf a = a.value := by
  rw [valueOf, unescape?_eq_self h, Option.getD_some]

/-- The attributes with one of the given names. -/
def under (attributes : List Attribute) (names : List Text) : List Attribute :=
  attributes.filter fun a => names.contains a.name

/-- Some attributes set a bound under one of the names and say nothing under the others, or they
set none. -/
def SetsUnder (attributes : List Attribute) (names : List Text) : Option Nat → Prop
  | none => under attributes names = []
  | some n =>
    (0 < n ∧ n < 2 ^ 31) ∧
      ∃ a, under attributes names = [a] ∧ ∃ t : PixelText, a.value = t.write ∧ t.count = n

/-- Some attributes ask for the image at the address `s`, within some bounds. -/
structure Asks (attributes : List Attribute) (s : Text) (bounds : Bounds) : Prop where
  src : ∃ a ∈ attributes, a.name = ['s', 'r', 'c'] ∧ a.value = escape s
  minEdge : SetsUnder attributes [['m', 'i', 'n'], ['m', 'i', 'n', '-', 's', 'i', 'z', 'e']]
    bounds.minEdge
  maxEdge : SetsUnder attributes [['m', 'a', 'x'], ['m', 'a', 'x', '-', 's', 'i', 'z', 'e']]
    bounds.maxEdge
  minWidth : SetsUnder attributes [['m', 'i', 'n', '-', 'w', 'i', 'd', 't', 'h']] bounds.minWidth
  minHeight : SetsUnder attributes [['m', 'i', 'n', '-', 'h', 'e', 'i', 'g', 'h', 't']]
    bounds.minHeight
  maxWidth : SetsUnder attributes [['m', 'a', 'x', '-', 'w', 'i', 'd', 't', 'h']] bounds.maxWidth
  maxHeight : SetsUnder attributes [['m', 'a', 'x', '-', 'h', 'e', 'i', 'g', 'h', 't']]
    bounds.maxHeight
  upscale : if bounds.allowUpscale then
      ∃ a ∈ attributes, a.name = ['u', 'p', 's', 'c', 'a', 'l', 'e'] ∧
        sameUpToCase a.value ['t', 'r', 'u', 'e'] = true
    else under attributes [['u', 'p', 's', 'c', 'a', 'l', 'e']] = []

lemma mem_under {attributes : List Attribute} {names : List Text} {a : Attribute} :
    a ∈ under attributes names ↔ a ∈ attributes ∧ a.name ∈ names := by
  rw [under, List.mem_filter, List.contains_iff_mem]

/-- A name without an attribute has no value. -/
lemma value?_eq_none {attributes : List Attribute} {names : List Text} {name : Text}
    (h : ∀ a ∈ under attributes names, a.name ≠ name) (hn : name ∈ names) :
    value? attributes name = none := by
  have hnone : ∀ a ∈ attributes, a.name ≠ name := fun a ha he =>
    h a (mem_under.mpr ⟨ha, he ▸ hn⟩) he
  rw [value?, List.find?_eq_none.mpr (by simpa using hnone), Option.map_none]

section Asks

variable {attributes : List Attribute} (hd : (attributes.map Attribute.name).Nodup)
include hd

lemma value?_of_mem {a : Attribute} (h : a ∈ attributes) :
    value? attributes a.name = some (valueOf a) := by
  rw [value?]
  cases hf : attributes.find? fun b => b.name = a.name with
  | none => exact absurd (decide_eq_true rfl) (List.find?_eq_none.mp hf a h)
  | some b =>
      have hname : b.name = a.name := by simpa using List.find?_some hf
      rw [List.inj_on_of_nodup_map hd (List.mem_of_find?_eq_some hf) h hname, Option.map_some]

/-- A bound is read under the one name that is used for it. -/
lemma pixelsUnder?_eq {names : List Text} {bound : Option Nat}
    (h : SetsUnder attributes names bound) : pixelsUnder? attributes names = bound := by
  cases bound with
  | none =>
      refine List.findSome?_eq_none_iff.mpr fun name hn => ?_
      have hnone : under attributes names = [] := h
      rw [value?_eq_none (by simp [hnone]) hn, Option.bind_none]
  | some n =>
      obtain ⟨hn, a, ha, t, hv, rfl⟩ := h
      obtain ⟨hmem, hname⟩ := mem_under.mp (ha ▸ List.mem_singleton_self a)
      obtain ⟨l₁, l₂, rfl, hl⟩ := List.eq_append_cons_of_mem hname
      refine List.findSome?_eq_some_iff.mpr ⟨l₁, a.name, l₂, rfl, ?_, fun name hm => ?_⟩
      · rw [value?_of_mem hd hmem, Option.bind_some, valueOf_eq (hv ▸ t.amp_notMem_write), hv,
          t.pixels?_write, if_pos hn]
      · -- the only attribute has a later name
        have hne : ∀ b ∈ under attributes (l₁ ++ a.name :: l₂), b.name ≠ name := by
          rw [ha]
          rintro b hb rfl
          exact hl (List.mem_singleton.mp hb ▸ hm)
        rw [value?_eq_none hne (List.mem_append_left _ hm), Option.bind_none]

/-- The flag is set by its own attribute, in any case of the letters. -/
lemma Asks.allowUpscale_eq {s : Text} {bounds : Bounds} (h : Asks attributes s bounds) :
    (boundsOf attributes).allowUpscale = bounds.allowUpscale := by
  have hu := h.upscale
  rw [boundsOf]
  cases hb : bounds.allowUpscale with
  | false =>
      have hnone : under attributes [['u', 'p', 's', 'c', 'a', 'l', 'e']] = [] := by
        simpa [hb] using hu
      have hv := value?_eq_none (by rw [hnone]; exact List.forall_mem_nil _)
        (List.mem_singleton_self ['u', 'p', 's', 'c', 'a', 'l', 'e'])
      simp only [hv]
  | true =>
      rw [hb, if_pos rfl] at hu
      obtain ⟨a, ha, hname, hcase⟩ := hu
      have hamp : '&' ∉ a.value := by
        intro hm
        have hfold : foldCase a.value = ['t', 'r', 'u', 'e'] := eq_of_beq hcase
        have hmem : '&' ∈ foldCase a.value := List.mem_map_of_mem (f := Char.toLower) hm
        rw [hfold] at hmem
        revert hmem
        decide
      have hv := value?_of_mem hd ha
      rw [hname, valueOf_eq hamp] at hv
      simp only [hv, hcase]

/-- Attributes that ask for bounds set them. -/
lemma Asks.boundsOf_eq {s : Text} {bounds : Bounds} (h : Asks attributes s bounds) :
    boundsOf attributes = bounds := by
  have hup := h.allowUpscale_eq hd
  rw [boundsOf] at hup ⊢
  simp only at hup
  rw [hup, pixelsUnder?_eq hd h.minEdge, pixelsUnder?_eq hd h.maxEdge,
    pixelsUnder?_eq hd h.minWidth, pixelsUnder?_eq hd h.minHeight, pixelsUnder?_eq hd h.maxWidth,
    pixelsUnder?_eq hd h.maxHeight]

/-- Attributes that ask for an image are read so, and the address is trimmed. -/
lemma Asks.ofAttributes?_eq {s : Text} {bounds : Bounds} (h : Asks attributes s bounds)
    (hs : trim s ≠ []) : ofAttributes? attributes = some ⟨trim s, bounds⟩ := by
  obtain ⟨a, ha, hname, hv⟩ := h.src
  refine ofAttributes?_eq_some_iff.mpr ⟨s, ?_, hs, by rw [h.boundsOf_eq hd]⟩
  rw [← hname, value?_of_mem hd ha, valueOf, hv, unescape?_escape, Option.getD_some]

end Asks

end ImageTag

end DocImage
