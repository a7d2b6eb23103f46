import DocImage.Proofs.Markup.Spaced
import DocImage.Proofs.Text.Occurrence

/-!
Markup as it is written, and its reading. A tag is written with one space before each attribute;
`ElementTag.spaced` is it among all ways of writing tags, so it is read back as they are. `Leaf` is
markup without tags: running text, a comment, a literal section and an instruction are rows of
tokens that are no tags (`Leaf.isPlainRow`).
-/

namespace DocImage.Markup

/-! ### Names, attributes and tags -/

/-- An attribute as it is written in a tag, with the space before it. -/
def QuotedAttribute.write (a : QuotedAttribute) : Text :=
  ' ' :: (a.name.text ++ '=' :: a.quote :: (a.value ++ [a.quote]))

/-- What the tag of an element says. -/
structure ElementTag where
  name : Name
  quoted : List QuotedAttribute
  nodup_names : (quoted.map fun a => a.name.text).Nodup

namespace ElementTag

/-- The attributes of a tag. -/
def attributes (tag : ElementTag) : List Attribute :=
  tag.quoted.map QuotedAttribute.toAttribute

/-- The attributes of a tag as they are written behind its name. -/
def attributeText (tag : ElementTag) : Text :=
  tag.quoted.flatMap QuotedAttribute.write

/-- What a start tag holds between `<` and `>`. -/
def content (tag : ElementTag) : Text :=
  tag.name.text ++ tag.attributeText

/-- The tag as the start tag of an element. -/
def openTag (tag : ElementTag) : Token :=
  .tag tag.content

/-- The tag as an element by itself. -/
def emptyTag (tag : ElementTag) : Token :=
  .tag (tag.content ++ ['/'])

/-- The end tag of the element. -/
def closeTag (tag : ElementTag) : Token :=
  .close tag.name.text

/-- The name of the element without its prefix. -/
def localName (tag : ElementTag) : Text :=
  Markup.localName tag.name.text

end ElementTag

/-! ### Reading tags -/

/-- An attribute with a space before it and none around its `=`. -/
def QuotedAttribute.spaced (a : QuotedAttribute) : SpacedAttribute where
  toQuotedAttribute := a
  before := [' ']
  left := []
  right := []
  before_ne_nil := List.cons_ne_nil _ _
  isSpace_of_mem := List.all_eq_true.mp rfl

lemma QuotedAttribute.write_spaced (a : QuotedAttribute) : a.spaced.write = a.write := rfl

namespace ElementTag

/-- A tag with a space before each attribute and none at its end. -/
def spaced (tag : ElementTag) : SpacedTag where
  name := tag.name
  spaced := tag.quoted.map QuotedAttribute.spaced
  nodup_names := by rw [List.map_map]; exact tag.nodup_names
  space := []
  isSpace_of_mem := by simp

variable (tag : ElementTag)

lemma attributeText_spaced : tag.spaced.attributeText = tag.attributeText := by
  simp [SpacedTag.attributeText, attributeText, spaced, List.flatMap_map,
    QuotedAttribute.write_spaced]

lemma content_spaced : tag.spaced.content = tag.content := by
  rw [SpacedTag.content, attributeText_spaced]
  rfl

/-- The attributes of a written tag are read back. -/
lemma readAll_attributeText : Attribute.readAll tag.attributeText = tag.attributes := by
  rw [← tag.attributeText_spaced, tag.spaced.readAll_attributeText]
  simp [SpacedTag.attributes, attributes, spaced, Function.comp_def, QuotedAttribute.spaced]

/-- A written start tag is read back. -/
lemma ofContent_content :
    StartTag.ofContent tag.content = ⟨tag.name.text, tag.attributeText, false⟩ := by
  rw [← tag.content_spaced, tag.spaced.ofContent_content, tag.attributeText_spaced]
  rfl

/-- A written empty tag is read back. -/
lemma ofContent_slash :
    StartTag.ofContent (tag.content ++ ['/']) = ⟨tag.name.text, tag.attributeText, true⟩ := by
  rw [← tag.content_spaced, tag.spaced.ofContent_slash, tag.attributeText_spaced]
  rfl

lemma isReadable_openTag : tag.openTag.IsReadable := by
  rw [openTag, ← tag.content_spaced]
  exact tag.spaced.isReadable_openTag

lemma isReadable_emptyTag : tag.emptyTag.IsReadable := by
  rw [emptyTag, ← tag.content_spaced]
  exact tag.spaced.isReadable_emptyTag

lemma isReadable_closeTag : tag.closeTag.IsReadable := by
  have h := tag.name.isReadable_close (List.forall_mem_nil _)
  rwa [List.append_nil] at h

/-- An end tag names the element that its start tag names. -/
lemma closedName_text : closedName tag.name.text = tag.name.text := by
  have h := tag.name.closedName_append (List.forall_mem_nil _)
  rwa [List.append_nil] at h

end ElementTag

/-! ### Markup without tags -/

/-- Running text: without `<`, and with a `;` behind every `&` before the next one. -/
def IsRunning (s : Text) : Prop :=
  '<' ∉ s ∧ ∀ t, '&' :: t <:+ s → ';' ∈ t.takeWhile (· != '&')

/-- A piece of markup that is not an element. -/
inductive Leaf where
  | text (s : Text) (isRunning : IsRunning s)
  | comment (body : Text) (noEnd : ¬ ['-', '-', '>'] <:+: body)
  /-- A literal section. -/
  | literal (body : Text) (noEnd : ¬ [']', ']', '>'] <:+: body)
  /-- A processing instruction. -/
  | instruction (body : Text) (ne_nil : body ≠ []) (head_ne : body.head? ≠ some '>')
      (noEnd : ¬ ['?', '>'] <:+: body)

/-- A piece of markup as it is written. -/
def Leaf.write : Leaf → Text
  | text s _ => s
  | comment body _ => (Token.comment body).lexeme
  | literal body _ => (Token.literal body).lexeme
  | instruction body .. => (Token.instruction body).lexeme

namespace Token

lemma isReadable_comment {body : Text} (h : ¬ ['-', '-', '>'] <:+: body) :
    (comment body).IsReadable := by
  intro rest
  have hs := splitAtFirst?_concat (q := ['-', '-']) (z := '>') (by decide) h rest
  simp only [List.cons_append, List.nil_append] at hs
  simp [lexeme, next?, declaration?, after?, hs]

lemma isReadable_literal {body : Text} (h : ¬ [']', ']', '>'] <:+: body) :
    (literal body).IsReadable := by
  intro rest
  have hs := splitAtFirst?_concat (q := [']', ']']) (z := '>') (by decide) h rest
  simp only [List.cons_append, List.nil_append] at hs
  simp [lexeme, next?, declaration?, after?, hs]

lemma isReadable_instruction {body : Text} (hne : body ≠ []) (hh : body.head? ≠ some '>')
    (h : ¬ ['?', '>'] <:+: body) : (instruction body).IsReadable := by
  intro rest
  have hs := splitAtFirst?_concat (q := ['?']) (z := '>') (by decide) h rest
  obtain ⟨c, s, rfl⟩ := List.exists_cons_of_ne_nil hne
  have hc : c ≠ '>' := by simpa using hh
  show instruction? (c :: s ++ ['?', '>'] ++ rest) = _
  rw [List.append_assoc, instruction?.eq_def]
  split
  · next he => exact absurd (List.cons.inj he).1 hc
  · exact congrArg (Option.map _) hs

lemma isReadable_char {c : Char} (hl : c ≠ '<') (ha : c ≠ '&') : (char c).IsReadable :=
  fun _ => next?.eq_6 _ _ (fun _ h => absurd h hl) (fun _ h => absurd h hl)
    (fun _ h => absurd h hl) hl ha

lemma isReadable_reference {name : Text} (h : ∀ c ∈ name, c ≠ ';' ∧ c ≠ '&' ∧ c ≠ '<') :
    (reference name).IsReadable := by
  intro rest
  have hall : ∀ c ∈ name, (c != ';' && c != '&' && c != '<') = true := fun c hc => by
    simp [h c hc]
  show reference? (name ++ [';'] ++ rest) = _
  simp only [reference?, List.append_assoc, List.singleton_append]
  rw [List.dropWhile_append_of_pos hall, List.takeWhile_append_of_pos hall]
  simp

/-- Whether a token is no tag and no end tag. -/
def IsPlain : Token → Prop
  | tag _ | close _ => False
  | _ => True

end Token

/-- A reference ends at the first `;`, which stands before the next `&`. -/
lemma exists_name_of_mem {s : Text} (hlt : '<' ∉ s) (h : ';' ∈ s.takeWhile (· != '&')) :
    ∃ name r, s = name ++ ';' :: r ∧ ∀ c ∈ name, c ≠ ';' ∧ c ≠ '&' ∧ c ≠ '<' := by
  obtain ⟨name, u, hw, hname⟩ := List.eq_append_cons_of_mem h
  refine ⟨name, u ++ s.dropWhile (· != '&'), ?_, fun c hc => ?_⟩
  · have := List.takeWhile_append_dropWhile (p := (· != '&')) (l := s)
    rw [hw] at this
    simpa using this.symm
  · have hcw : c ∈ s.takeWhile (· != '&') := by rw [hw]; exact List.mem_append_left _ hc
    exact ⟨fun h => hname (h ▸ hc), by simpa using List.all_eq_true.mp List.all_takeWhile c hcw,
      fun h => hlt (h ▸ (List.takeWhile_prefix _).subset hcw)⟩

/-- A text is a row of tokens that are no tags. -/
def IsPlainRow (s : Text) : Prop :=
  ∃ ts : List Token, (∀ t ∈ ts, t.IsReadable ∧ t.IsPlain) ∧ s = ts.flatMap Token.lexeme

lemma IsPlainRow.nil : IsPlainRow [] :=
  ⟨[], by simp, rfl⟩

lemma IsPlainRow.cons {t : Token} {s : Text} (ht : t.IsReadable) (hp : t.IsPlain)
    (h : IsPlainRow s) : IsPlainRow (t.lexeme ++ s) := by
  obtain ⟨ts, hts, rfl⟩ := h
  refine ⟨t :: ts, fun u hu => ?_, rfl⟩
  rcases List.mem_cons.mp hu with rfl | hu
  · exact ⟨ht, hp⟩
  · exact hts u hu

lemma IsPlainRow.single {t : Token} (ht : t.IsReadable) (hp : t.IsPlain) : IsPlainRow t.lexeme := by
  simpa using IsPlainRow.nil.cons ht hp

lemma IsRunning.suffix {s r : Text} (h : IsRunning s) (hr : r <:+ s) : IsRunning r :=
  ⟨fun hm => h.1 (hr.subset hm), fun _ hu => h.2 _ (hu.trans hr)⟩

open Token in
/-- Running text begins with a character or a reference. -/
lemma IsRunning.exists_token {s : Text} (h : IsRunning s) (hne : s ≠ []) :
    ∃ t r, s = lexeme t ++ r ∧ t.IsReadable ∧ t.IsPlain := by
  obtain ⟨c, s, rfl⟩ := List.exists_cons_of_ne_nil hne
  obtain ⟨hlt, hamp⟩ := h
  rw [List.mem_cons, not_or] at hlt
  by_cases hc : c = '&'
  · subst hc
    obtain ⟨name, r, rfl, hname⟩ := exists_name_of_mem hlt.2 (hamp s List.suffix_rfl)
    exact ⟨.reference name, r, by simp [lexeme], isReadable_reference hname, trivial⟩
  · exact ⟨.char c, s, rfl, isReadable_char (Ne.symm hlt.1) hc, trivial⟩

/-- Running text is a row of characters and references. -/
lemma IsRunning.isPlainRow {s : Text} (h : IsRunning s) : IsPlainRow s := by
  induction hl : s.length using Nat.strong_induction_on generalizing s with
  | _ n ih =>
      by_cases hne : s = []
      · rw [hne]
        exact IsPlainRow.nil
      · obtain ⟨t, r, rfl, ht, hp⟩ := h.exists_token hne
        have hlen : r.length < n := by
          have := t.lexeme_length_pos
          rw [← hl, List.length_append]
          omega
        exact (ih _ hlen (h.suffix (List.suffix_append _ _)) rfl).cons ht hp

open Token in
/-- A piece of markup that is not an element is a row of tokens that are no tags. -/
lemma Leaf.isPlainRow (l : Leaf) : IsPlainRow l.write := by
  cases l with
  | text s h => exact h.isPlainRow
  | comment body h => exact IsPlainRow.single (isReadable_comment h) trivial
  | literal body h => exact IsPlainRow.single (isReadable_literal h) trivial
  | instruction body hne hh h => exact IsPlainRow.single (isReadable_instruction hne hh h) trivial

end DocImage.Markup
