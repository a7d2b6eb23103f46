import Mathlib.Tactic
import DocImage.Presentation.Plan
import DocImage.Proofs.Drawing.Factor
import DocImage.Proofs.ImageTag.Asked
import DocImage.Proofs.Markup.Written

/-!
The image element as it is read back. `imageTag` is what it says, and it is read as that whatever
its address is.

* `ImageTag.valueOf_eq_self_iff`: an attribute stands for its value as written exactly if there is
  no `&` in it or some `&` begins no reference.
* `startTag?_imageBlock`: the element is read as one start tag, with nothing before or behind it.
* `isImage_imageBlock`: it is an empty `img` with an address, a width and a height (`IsImage`).
* `elementValue?_src_eq_iff`: its address is read as it is written unless its `&` are read as
  references.
-/

namespace DocImage

open Markup

/-! ### References -/

namespace Markup

/-- Replacing references makes a text shorter. -/
lemma Reference.length_unescapeFrom? {read s r : Text} (h : unescapeFrom? read s = some r) :
    r.length ≤ read.length + s.length ∧ ('&' ∈ s → r.length < read.length + s.length) := by
  fun_induction unescapeFrom? read s with
  | case1 read =>
      cases h
      simp
  | case2 read s inName rest hd c hc ih =>
      have hl := length_dropWhile_le inName s
      rw [hd, List.length_cons] at hl
      obtain ⟨hle, -⟩ := ih h
      simp only [List.length_cons] at *
      omega
  | case3 => cases h
  | case4 => cases h
  | case5 read c s hc ih =>
      obtain ⟨hle, hlt⟩ := ih h
      simp only [List.length_cons] at *
      refine ⟨by omega, fun ha => ?_⟩
      rcases List.mem_cons.mp ha with rfl | ha
      · exact absurd rfl hc
      · have := hlt ha
        omega

end Markup

/-- An attribute stands for its value as written exactly if there is no reference in it or one that
cannot be read. -/
lemma ImageTag.valueOf_eq_self_iff {a : Attribute} :
    valueOf a = a.value ↔ '&' ∉ a.value ∨ unescape? a.value = none := by
  constructor
  · intro h
    rw [or_iff_not_imp_left, not_not]
    intro ha
    rw [valueOf] at h
    cases hu : unescape? a.value with
    | none => rfl
    | some r =>
        rw [hu, Option.getD_some] at h
        have := (Reference.length_unescapeFrom? hu).2 ha
        rw [h, List.length_nil, Nat.zero_add] at this
        exact absurd this (lt_irrefl _)
  · rintro (ha | hu)
    · exact valueOf_eq ha
    · rw [valueOf, hu, Option.getD_none]

/-! ### The element -/

/-- The digits of a number. -/
lemma Numeral.isDigit_of_mem_write {n : Nat} {c : Char} (h : c ∈ write n) : c.isDigit = true :=
  Nat.isDigit_of_mem_toDigits (by decide) (by decide) h

/-- An address with its quotes coded has its other characters, and those of the code for a quote. -/
lemma mem_quoteSafe_iff {uri : Text} {c : Char} :
    c ∈ quoteSafe uri ↔ (c ∈ uri ∧ c ≠ '\'') ∨ ('\'' ∈ uri ∧ c ∈ ['%', '2', '7']) := by
  rw [quoteSafe, List.mem_flatMap]
  constructor
  · rintro ⟨d, hd, hm⟩
    split at hm
    · next hq => exact .inr ⟨hq ▸ hd, hm⟩
    · next hne =>
        obtain rfl := List.mem_singleton.mp hm
        exact .inl ⟨hd, hne⟩
  · rintro (⟨hc, hne⟩ | ⟨hq, hc⟩)
    · exact ⟨c, hc, by rw [if_neg hne, List.mem_singleton]⟩
    · exact ⟨'\'', hq, hc⟩

lemma quote_notMem_quoteSafe (uri : Text) : '\'' ∉ quoteSafe uri := by
  simp [mem_quoteSafe_iff]

lemma amp_mem_quoteSafe_iff {uri : Text} : '&' ∈ quoteSafe uri ↔ '&' ∈ uri := by
  simp [mem_quoteSafe_iff]

/-- An attribute of the image element, in single quotes. -/
def quotedAttribute (name : Name) (value : Text) (h : '\'' ∉ value) : QuotedAttribute :=
  ⟨name, value, '\'', rfl, h⟩

lemma quote_notMem_write (n : Nat) : '\'' ∉ Numeral.write n :=
  fun h => absurd (Numeral.isDigit_of_mem_write h) (by decide)

lemma amp_notMem_write (n : Nat) : '&' ∉ Numeral.write n :=
  fun h => absurd (Numeral.isDigit_of_mem_write h) (by decide)

/-- What the image element says. -/
def imageTag (uri : Text) (size : Size) : ElementTag where
  name := .ofText ['i', 'm', 'g'] (by decide)
  quoted :=
    [quotedAttribute (.ofText ['s', 'r', 'c'] (by decide)) (quoteSafe uri)
        (quote_notMem_quoteSafe uri),
      quotedAttribute (.ofText ['w', 'i', 'd', 't', 'h'] (by decide)) (Numeral.write size.width)
        (quote_notMem_write _),
      quotedAttribute (.ofText ['h', 'e', 'i', 'g', 'h', 't'] (by decide))
        (Numeral.write size.height) (quote_notMem_write _)]
  nodup_names := by
    change [['s', 'r', 'c'], ['w', 'i', 'd', 't', 'h'], ['h', 'e', 'i', 'g', 'h', 't']].Nodup
    decide

lemma write_quotedAttribute (name : Name) {value : Text} (h : '\'' ∉ value) :
    (quotedAttribute name value h).write = ' ' :: (name.text ++ '=' :: '\'' :: (value ++ ['\''])) :=
  rfl

lemma imageBlock_eq_lexeme (uri : Text) (size : Size) :
    imageBlock uri size = (imageTag uri size).emptyTag.lexeme := by
  have hblock : imageBlock uri size =
      ['<', 'i', 'm', 'g', ' ', 's', 'r', 'c', '=', '\''] ++ quoteSafe uri ++
        ['\'', ' ', 'w', 'i', 'd', 't', 'h', '=', '\''] ++ Numeral.write size.width ++
        ['\'', ' ', 'h', 'e', 'i', 'g', 'h', 't', '=', '\''] ++ Numeral.write size.height ++
        ['\'', '/', '>'] := rfl
  rw [hblock, ElementTag.emptyTag, Token.lexeme, ElementTag.content, ElementTag.attributeText]
  simp [imageTag, write_quotedAttribute, Name.ofText]

/-- The start tag that a text consists of. -/
def startTag? (s : Text) : Option StartTag :=
  match Token.next? s with
  | some (.tag content, []) => some (.ofContent content)
  | _ => none

/-- **The element is read as what it says**, whatever its address is. -/
lemma startTag?_imageBlock (uri : Text) (size : Size) :
    startTag? (imageBlock uri size) =
      some ⟨['i', 'm', 'g'], (imageTag uri size).attributeText, true⟩ := by
  have hr := (imageTag uri size).isReadable_emptyTag []
  rw [List.append_nil, ← imageBlock_eq_lexeme] at hr
  rw [startTag?, hr, ElementTag.emptyTag]
  exact congrArg some (imageTag uri size).ofContent_slash

/-- The text is one start tag with nothing before or behind it: an empty `img` with a source, a
width and a height, which are no zero, and no other attribute. -/
def IsImage (block src : Text) (size : Size) : Prop :=
  (1 ≤ size.width ∧ 1 ≤ size.height) ∧ ∃ tag, startTag? block = some tag ∧
    tag.name = ['i', 'm', 'g'] ∧ tag.isEmpty = true ∧
    Attribute.readAll tag.attributes = [⟨['s', 'r', 'c'], src⟩,
      ⟨['w', 'i', 'd', 't', 'h'], Numeral.write size.width⟩,
      ⟨['h', 'e', 'i', 'g', 'h', 't'], Numeral.write size.height⟩]

lemma IsImage.ne_nil {block src : Text} {size : Size} (h : IsImage block src size) :
    block ≠ [] := by
  rintro rfl
  obtain ⟨-, tag, ht, -⟩ := h
  cases ht

/-- The element is an image that can be drawn, with its quotes coded. -/
lemma isImage_imageBlock (uri : Text) {size : Size} (h : size.isPositive = true) :
    IsImage (imageBlock uri size) (quoteSafe uri) size :=
  ⟨Drawing.isPositive_iff.mp h, _, startTag?_imageBlock uri size, rfl, rfl,
    (imageTag uri size).readAll_attributeText⟩

/-- The value of an attribute of the image element. -/
def elementValue? (block name : Text) : Option Text :=
  (startTag? block).bind fun tag => ImageTag.value? (Attribute.readAll tag.attributes) name

lemma elementValue?_eq {uri name value : Text} {size : Size}
    (h : ⟨name, value⟩ ∈ (imageTag uri size).attributes) :
    elementValue? (imageBlock uri size) name = some (ImageTag.valueOf ⟨name, value⟩) := by
  have hd : ((imageTag uri size).attributes.map Attribute.name).Nodup := by
    have hn := (imageTag uri size).nodup_names
    rwa [ElementTag.attributes, List.map_map]
  rw [elementValue?, startTag?_imageBlock, Option.bind_some]
  simp only [ElementTag.readAll_attributeText]
  exact ImageTag.value?_of_mem hd h

lemma elementValue?_src (uri : Text) (size : Size) :
    elementValue? (imageBlock uri size) ['s', 'r', 'c'] =
      some (ImageTag.valueOf ⟨['s', 'r', 'c'], quoteSafe uri⟩) :=
  elementValue?_eq List.mem_cons_self

lemma valueOf_write (name : Text) (n : Nat) :
    ImageTag.valueOf ⟨name, Numeral.write n⟩ = Numeral.write n :=
  ImageTag.valueOf_eq (amp_notMem_write n)

lemma elementValue?_width (uri : Text) (size : Size) :
    elementValue? (imageBlock uri size) ['w', 'i', 'd', 't', 'h'] =
      some (Numeral.write size.width) :=
  (elementValue?_eq (List.mem_cons_of_mem _ List.mem_cons_self)).trans
    (congrArg some (valueOf_write _ _))

lemma elementValue?_height (uri : Text) (size : Size) :
    elementValue? (imageBlock uri size) ['h', 'e', 'i', 'g', 'h', 't'] =
      some (Numeral.write size.height) :=
  (elementValue?_eq (List.mem_cons_of_mem _ (List.mem_cons_of_mem _ List.mem_cons_self))).trans
    (congrArg some (valueOf_write _ _))

/-- The address is intact exactly if it has no `&` or one that begins no known reference. -/
lemma elementValue?_src_eq_iff (uri : Text) (size : Size) :
    elementValue? (imageBlock uri size) ['s', 'r', 'c'] = some (quoteSafe uri) ↔
      '&' ∉ uri ∨ unescape? (quoteSafe uri) = none := by
  rw [elementValue?_src, Option.some.injEq, ← amp_mem_quoteSafe_iff]
  exact ImageTag.valueOf_eq_self_iff

end DocImage
