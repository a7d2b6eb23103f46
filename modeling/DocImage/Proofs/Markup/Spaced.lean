import Mathlib.Tactic
import DocImage.Markup.Attribute
import DocImage.Markup.Token.Local

/-!
Tags as they may be written: quoted attributes in any order, with white space before each of them,
around its `=` and at the end of the tag. Names and attributes are well formed by their types, so
whatever is put together from them is read back:

* `SpacedTag.readAll_attributeText`: the attributes of a written tag, in their order.
* `SpacedTag.ofContent_content`, `SpacedTag.ofContent_slash`: its name, and whether it is empty.
* `SpacedTag.isReadable_openTag`, `SpacedTag.isReadable_emptyTag`, `Name.isReadable_close`: the tags
  are tokens. `Token.IsReadable` says that a token is read from its own text, whatever follows it.
-/

namespace DocImage.Markup

/-! ### Names, attributes and tags -/

/-- Whether a character may stand in a name. -/
def isNameChar (c : Char) : Bool :=
  !isSpace c && !isQuote c && c != '<' && c != '>' && c != '/' && c != '='

/-- The name of an element or of an attribute, with its prefix. -/
structure Name where
  text : Text
  ne_nil : text ≠ []
  isNameChar_of_mem : ∀ c ∈ text, isNameChar c = true
  head_ne : text.head? ≠ some '!' ∧ text.head? ≠ some '?'

/-- The name with the given text. -/
def Name.ofText (text : Text) (h : text ≠ [] ∧ text.all isNameChar = true ∧
    text.head? ≠ some '!' ∧ text.head? ≠ some '?') : Name :=
  ⟨text, h.1, List.all_eq_true.mp h.2.1, h.2.2⟩

/-- An attribute with the quotes around its value. -/
structure QuotedAttribute where
  name : Name
  value : Text
  quote : Char
  isQuote_quote : isQuote quote = true
  quote_notMem : quote ∉ value

/-- An attribute without its quotes. -/
def QuotedAttribute.toAttribute (a : QuotedAttribute) : Attribute :=
  ⟨a.name.text, a.value⟩

/-- An attribute with the white space before it and around its `=`. -/
structure SpacedAttribute extends QuotedAttribute where
  before : Text
  left : Text
  right : Text
  before_ne_nil : before ≠ []
  isSpace_of_mem : ∀ c ∈ before ++ (left ++ right), isSpace c = true

/-- An attribute as it is written in a tag. -/
def SpacedAttribute.write (a : SpacedAttribute) : Text :=
  a.before ++ (a.name.text ++ (a.left ++ '=' :: (a.right ++ a.quote :: (a.value ++ [a.quote]))))

/-- What the tag of an element says, with the white space at its end. -/
structure SpacedTag where
  name : Name
  spaced : List SpacedAttribute
  nodup_names : (spaced.map fun a => a.name.text).Nodup
  space : Text
  isSpace_of_mem : ∀ c ∈ space, isSpace c = true

namespace SpacedTag

/-- The attributes of a tag. -/
def attributes (tag : SpacedTag) : List Attribute :=
  tag.spaced.map fun a => a.toAttribute

/-- What a tag holds behind its name. -/
def attributeText (tag : SpacedTag) : Text :=
  tag.spaced.flatMap SpacedAttribute.write ++ tag.space

/-- What a start tag holds between `<` and `>`. -/
def content (tag : SpacedTag) : Text :=
  tag.name.text ++ tag.attributeText

/-- The tag as the start tag of an element. -/
def openTag (tag : SpacedTag) : Token :=
  .tag tag.content

/-- The tag as an element by itself. -/
def emptyTag (tag : SpacedTag) : Token :=
  .tag (tag.content ++ ['/'])

end SpacedTag

/-! ### Reading attributes -/

lemma isNameChar_iff {c : Char} : isNameChar c = true ↔
    isSpace c = false ∧ isQuote c = false ∧ c ≠ '<' ∧ c ≠ '>' ∧ c ≠ '/' ∧ c ≠ '=' := by
  simp [isNameChar, and_assoc]

namespace Name

variable (n : Name)

lemma exists_eq_cons : ∃ c s, n.text = c :: s := List.exists_cons_of_ne_nil n.ne_nil

lemma isSpace_eq_false {c : Char} (h : c ∈ n.text) : isSpace c = false :=
  (isNameChar_iff.mp (n.isNameChar_of_mem c h)).1

lemma skipSpace_append (s : Text) : Attribute.skipSpace (n.text ++ s) = n.text ++ s := by
  obtain ⟨c, r, hn⟩ := n.exists_eq_cons
  have hc : isSpace c = false := n.isSpace_eq_false (by rw [hn]; exact List.mem_cons_self)
  rw [hn, List.cons_append, Attribute.skipSpace, List.dropWhile_cons_of_neg (by simp [hc])]

lemma inName_of_mem {c : Char} (h : c ∈ n.text) : Attribute.inName c = true := by
  obtain ⟨hs, -, -, -, -, he⟩ := isNameChar_iff.mp (n.isNameChar_of_mem c h)
  simp [Attribute.inName, hs, he]

end Name

namespace SpacedAttribute

variable (a : SpacedAttribute)

lemma isSpace_of_mem_before : ∀ c ∈ a.before, isSpace c = true :=
  (List.forall_mem_append.mp a.isSpace_of_mem).1

lemma isSpace_of_mem_left : ∀ c ∈ a.left, isSpace c = true :=
  (List.forall_mem_append.mp (List.forall_mem_append.mp a.isSpace_of_mem).2).1

lemma isSpace_of_mem_right : ∀ c ∈ a.right, isSpace c = true :=
  (List.forall_mem_append.mp (List.forall_mem_append.mp a.isSpace_of_mem).2).2

lemma isSpace_quote : isSpace a.quote = false := by
  have hq : a.quote = '"' ∨ a.quote = '\'' := by simpa [isQuote] using a.isQuote_quote
  rcases hq with h | h <;> rw [h] <;> rfl

end SpacedAttribute

namespace Attribute

lemma skipSpace_append {space : Text} (h : ∀ c ∈ space, isSpace c = true) (s : Text) :
    skipSpace (space ++ s) = skipSpace s :=
  List.dropWhile_append_of_pos h

lemma skipSpace_cons {c : Char} (h : isSpace c = false) (s : Text) : skipSpace (c :: s) = c :: s :=
  List.dropWhile_cons_of_neg (by simp [h])

/-- A name ends at the white space before its `=`. -/
lemma break_inName {space : Text} (h : ∀ c ∈ space, isSpace c = true) (s : Text) :
    (space ++ '=' :: s).takeWhile inName = [] ∧
      (space ++ '=' :: s).dropWhile inName = space ++ '=' :: s := by
  cases space with
  | nil => exact ⟨rfl, rfl⟩
  | cons c space => simp [inName, h c List.mem_cons_self]

/-- An attribute with a quoted value is read if its name is new. -/
lemma readFrom_of_quoted {used : List Text} {s s₁ s₂ s₃ s₄ : Text} {first quote : Char}
    (h₁ : skipSpace s = first :: s₁) (h₂ : skipSpace (s₁.dropWhile inName) = '=' :: s₂)
    (hu : first :: s₁.takeWhile inName ∉ used) (h₃ : skipSpace s₂ = quote :: s₃)
    (hq : isQuote quote = true) (h₄ : s₃.dropWhile (· != quote) = quote :: s₄) :
    readFrom used s = ⟨first :: s₁.takeWhile inName, s₃.takeWhile (· != quote)⟩ ::
      readFrom ((first :: s₁.takeWhile inName) :: used) s₄ := by
  rw [readFrom]
  split
  · next hk => rw [h₁] at hk; cases hk
  · next f u₁ hk =>
      rw [h₁] at hk
      obtain ⟨rfl, rfl⟩ := List.cons.inj hk
      simp only
      split
      · next hk => rw [h₂] at hk; cases hk
      · next e u₂ hk =>
          rw [h₂] at hk
          obtain ⟨rfl, rfl⟩ := List.cons.inj hk
          rw [if_neg (by simp), if_neg hu]
          split
          · next hk => rw [h₃] at hk; cases hk
          · next q u₃ hk =>
              rw [h₃] at hk
              obtain ⟨rfl, rfl⟩ := List.cons.inj hk
              rw [if_pos hq]
              split
              · next hk => rw [h₄] at hk; cases hk
              · next hk =>
                  rw [h₄] at hk
                  rw [(List.cons.inj hk).2]

/-- One written attribute is read, and reading goes on behind it. -/
lemma readFrom_write (a : SpacedAttribute) {used : List Text} (h : a.name.text ∉ used) (s : Text) :
    readFrom used (a.write ++ s) = a.toAttribute :: readFrom (a.name.text :: used) s := by
  obtain ⟨c, r, hn⟩ := a.name.exists_eq_cons
  have hin : ∀ d ∈ r, inName d = true := fun d hd =>
    a.name.inName_of_mem (by rw [hn]; exact List.mem_cons_of_mem c hd)
  have hv : ∀ d ∈ a.value, (d != a.quote) = true := fun d hd => by
    simpa using fun hd' : d = a.quote => a.quote_notMem (hd' ▸ hd)
  -- what stands behind the name
  let t := a.right ++ a.quote :: (a.value ++ a.quote :: s)
  have hbreak := break_inName a.isSpace_of_mem_left t
  have h₁ : skipSpace (a.write ++ s) = c :: (r ++ (a.left ++ '=' :: t)) := by
    have hw : a.write ++ s = a.before ++ (a.name.text ++ (a.left ++ '=' :: t)) := by
      simp [SpacedAttribute.write, t]
    rw [hw, skipSpace_append a.isSpace_of_mem_before, a.name.skipSpace_append, hn, List.cons_append]
  have hname : (r ++ (a.left ++ '=' :: t)).takeWhile inName = r := by
    rw [List.takeWhile_append_of_pos hin, hbreak.1, List.append_nil]
  have h₂ : skipSpace ((r ++ (a.left ++ '=' :: t)).dropWhile inName) = '=' :: t := by
    rw [List.dropWhile_append_of_pos hin, hbreak.2, skipSpace_append a.isSpace_of_mem_left]
    rfl
  have h₃ : skipSpace t = a.quote :: (a.value ++ a.quote :: s) := by
    rw [skipSpace_append a.isSpace_of_mem_right, skipSpace_cons a.isSpace_quote]
  have hvalue : (a.value ++ a.quote :: s).takeWhile (· != a.quote) = a.value := by
    rw [List.takeWhile_append_of_pos hv]
    simp
  have h₄ : (a.value ++ a.quote :: s).dropWhile (· != a.quote) = a.quote :: s := by
    rw [List.dropWhile_append_of_pos hv]
    simp
  have hread := readFrom_of_quoted h₁ h₂ (by rwa [hname, ← hn]) h₃ a.isQuote_quote h₄
  rwa [hname, hvalue, ← hn] at hread

lemma readFrom_space {space : Text} (h : ∀ c ∈ space, isSpace c = true) (used : List Text) :
    readFrom used space = [] := by
  have hs : skipSpace space = [] := by
    rw [← List.append_nil space, skipSpace_append h]
    rfl
  rw [readFrom]
  split
  · rfl
  · next hk =>
      rw [hs] at hk
      cases hk

/-- Written attributes of different names are all read. -/
lemma readFrom_flatMap_write {as : List SpacedAttribute} {used : List Text} {space : Text}
    (hd : (as.map fun a => a.name.text).Nodup) (hu : ∀ a ∈ as, a.name.text ∉ used)
    (hs : ∀ c ∈ space, isSpace c = true) :
    readFrom used (as.flatMap SpacedAttribute.write ++ space) =
      as.map fun a => a.toAttribute := by
  induction as generalizing used with
  | nil => exact readFrom_space hs used
  | cons a as ih =>
      rw [List.map_cons, List.nodup_cons] at hd
      rw [List.flatMap_cons, List.append_assoc, readFrom_write a (hu a List.mem_cons_self),
        List.map_cons, ih hd.2]
      intro b hb hmem
      rcases List.mem_cons.mp hmem with h | h
      · exact hd.1 (List.mem_map.mpr ⟨b, hb, h⟩)
      · exact hu b (List.mem_cons_of_mem a hb) h

end Attribute

namespace SpacedTag

variable (tag : SpacedTag)

lemma nodup_map_name_attributes : (tag.attributes.map Attribute.name).Nodup := by
  rw [attributes, List.map_map]
  exact tag.nodup_names

/-- The attributes of a written tag are read back. -/
lemma readAll_attributeText : Attribute.readAll tag.attributeText = tag.attributes :=
  Attribute.readFrom_flatMap_write tag.nodup_names (by simp) tag.isSpace_of_mem

lemma isSpace_head?_attributeText : ∀ c ∈ tag.attributeText.head?, isSpace c = true := by
  intro c hc
  rw [attributeText] at hc
  cases h : tag.spaced with
  | nil =>
      rw [h, List.flatMap_nil, List.nil_append] at hc
      exact tag.isSpace_of_mem c (List.mem_of_head? hc)
  | cons a as =>
      obtain ⟨d, s, hd⟩ := List.exists_cons_of_ne_nil a.before_ne_nil
      rw [h, List.flatMap_cons, SpacedAttribute.write, hd] at hc
      obtain rfl := Option.some.inj hc
      exact a.isSpace_of_mem_before _ (by rw [hd]; exact List.mem_cons_self)

/-- The name of a tag ends where its attributes begin. -/
lemma break_content :
    tag.content.takeWhile (fun c => !isSpace c) = tag.name.text ∧
      Attribute.skipWord tag.content = tag.attributeText := by
  have hn : ∀ c ∈ tag.name.text, (!isSpace c) = true := fun c hc => by
    rw [tag.name.isSpace_eq_false hc]; rfl
  have hh := tag.isSpace_head?_attributeText
  rw [content, Attribute.skipWord, List.takeWhile_append_of_pos hn, List.dropWhile_append_of_pos hn]
  cases ha : tag.attributeText with
  | nil => simp
  | cons c s =>
      rw [ha] at hh
      simp [hh c rfl]

/-- No start tag looks like an empty tag. -/
lemma getLast?_content_ne : tag.content.getLast? ≠ some '/' := by
  have happend : ∀ {s t : Text}, s.getLast? ≠ some '/' → t.getLast? ≠ some '/' →
      (s ++ t).getLast? ≠ some '/' := by
    intro s t hs ht h
    rw [List.getLast?_append, Option.or_eq_some_iff] at h
    exact h.elim ht fun h => hs h.2
  have hspace : ∀ {s : Text}, (∀ c ∈ s, isSpace c = true) → s.getLast? ≠ some '/' := by
    intro s hs h
    have := hs _ (List.mem_of_getLast? h)
    revert this; decide
  have hwrite : ∀ a : SpacedAttribute, a.write.getLast? ≠ some '/' := by
    intro a h
    have he : a.write = (a.before ++ (a.name.text ++ (a.left ++ '=' :: (a.right ++
        a.quote :: a.value)))) ++ [a.quote] := by
      simp [SpacedAttribute.write]
    rw [he, List.getLast?_concat] at h
    have hquote := a.isQuote_quote
    rw [Option.some.inj h] at hquote
    revert hquote; decide
  have hall : ∀ as : List SpacedAttribute,
      (as.flatMap SpacedAttribute.write).getLast? ≠ some '/' := by
    intro as
    induction as with
    | nil => nofun
    | cons a as ih => exact happend (hwrite a) ih
  refine happend (fun h => ?_) (happend (hall tag.spaced) (hspace tag.isSpace_of_mem))
  have := tag.name.isNameChar_of_mem '/' (List.mem_of_getLast? h)
  revert this; decide

/-- A written start tag is read back. -/
lemma ofContent_content :
    StartTag.ofContent tag.content = ⟨tag.name.text, tag.attributeText, false⟩ := by
  have hl : (tag.content.getLast? == some '/') = false := by
    simpa using tag.getLast?_content_ne
  rw [StartTag.ofContent, hl]
  simp [tag.break_content]

/-- A written empty tag is read back. -/
lemma ofContent_slash :
    StartTag.ofContent (tag.content ++ ['/']) = ⟨tag.name.text, tag.attributeText, true⟩ := by
  rw [StartTag.ofContent, List.getLast?_concat]
  simp [tag.break_content]

end SpacedTag

/-! ### Tokens that are read back -/

/-- A text in which quotes are closed and no `>` stands outside of them. -/
def IsBalanced (s : Text) : Prop :=
  ∀ passed rest, breakUnquotedFrom? (· == '>') none passed (s ++ rest) =
    breakUnquotedFrom? (· == '>') none (s.reverse ++ passed) rest

namespace IsBalanced

lemma nil : IsBalanced [] := fun _ _ => rfl

lemma append {s t : Text} (hs : IsBalanced s) (ht : IsBalanced t) : IsBalanced (s ++ t) := by
  intro passed rest
  rw [List.append_assoc, hs, ht, List.reverse_append, List.append_assoc]

lemma of_forall {s : Text} (h : ∀ c ∈ s, isQuote c = false ∧ c ≠ '>') : IsBalanced s := by
  induction s with
  | nil => exact nil
  | cons c s ih =>
      intro passed rest
      obtain ⟨hq, hc⟩ := h c List.mem_cons_self
      rw [List.cons_append, breakUnquotedFrom?, if_neg (by simpa using hc), quoteAfter, if_neg
        (by simp [hq]), ih fun d hd => h d (List.mem_cons_of_mem c hd)]
      simp

lemma singleton {c : Char} (hq : isQuote c = false) (hc : c ≠ '>') : IsBalanced [c] :=
  of_forall fun d hd => by
    rw [List.mem_singleton.mp hd]
    exact ⟨hq, hc⟩

/-- Anything but the quote itself may stand between quotes. -/
lemma quoted {q : Char} {v : Text} (hq : isQuote q = true) (hv : q ∉ v) :
    IsBalanced (q :: (v ++ [q])) := by
  have key : ∀ passed rest, breakUnquotedFrom? (· == '>') (some q) passed (v ++ q :: rest) =
      breakUnquotedFrom? (· == '>') none (q :: v.reverse ++ passed) rest := by
    induction v with
    | nil =>
        intro passed rest
        rw [List.nil_append, breakUnquotedFrom?, if_neg (by simp), quoteAfter, if_pos rfl]
        rfl
    | cons c v ih =>
        intro passed rest
        rw [List.mem_cons, not_or] at hv
        rw [List.cons_append, breakUnquotedFrom?, if_neg (by simp), quoteAfter,
          if_neg (Ne.symm hv.1), ih hv.2]
        simp
  intro passed rest
  have hne : q ≠ '>' := fun h => by rw [h] at hq; revert hq; decide
  rw [List.cons_append, breakUnquotedFrom?, if_neg (by simpa using hne), quoteAfter, if_pos hq,
    List.append_assoc, List.singleton_append, key]
  simp

lemma tagEnd?_append {s : Text} (h : IsBalanced s) (rest : Text) :
    tagEnd? (s ++ '>' :: rest) = some (s, rest) := by
  rw [tagEnd?, breakUnquoted?, h, breakUnquotedFrom?]
  simp

end IsBalanced

lemma Name.isBalanced (n : Name) : IsBalanced n.text :=
  IsBalanced.of_forall fun c hc =>
    let ⟨_, hq, _, hg, _⟩ := isNameChar_iff.mp (n.isNameChar_of_mem c hc)
    ⟨hq, hg⟩

lemma IsBalanced.of_isSpace {s : Text} (h : ∀ c ∈ s, isSpace c = true) : IsBalanced s := by
  refine of_forall fun c hc => ?_
  have hs : ((c = ' ' ∨ c = '\t') ∨ c = '\n') ∨ c = '\r' := by simpa [isSpace] using h c hc
  rcases hs with ((rfl | rfl) | rfl) | rfl <;> decide

lemma SpacedAttribute.isBalanced_write (a : SpacedAttribute) : IsBalanced a.write := by
  have heq : IsBalanced ['='] := IsBalanced.singleton rfl (by decide)
  have h := (IsBalanced.of_isSpace a.isSpace_of_mem_before).append (a.name.isBalanced.append
    ((IsBalanced.of_isSpace a.isSpace_of_mem_left).append (heq.append
      ((IsBalanced.of_isSpace a.isSpace_of_mem_right).append
        (IsBalanced.quoted a.isQuote_quote a.quote_notMem)))))
  simpa [SpacedAttribute.write] using h

lemma SpacedTag.isBalanced_content (tag : SpacedTag) : IsBalanced tag.content := by
  have h : ∀ as : List SpacedAttribute, IsBalanced (as.flatMap SpacedAttribute.write) := by
    intro as
    induction as with
    | nil => exact IsBalanced.nil
    | cons a as ih => exact a.isBalanced_write.append ih
  exact tag.name.isBalanced.append
    ((h tag.spaced).append (IsBalanced.of_isSpace tag.isSpace_of_mem))

namespace Token

/-- A token is read from its own text, whatever follows it. -/
def IsReadable (t : Token) : Prop :=
  ∀ rest, next? (t.lexeme ++ rest) = some (t, rest)

lemma isReadable_tag {content : Text} (hb : IsBalanced content)
    (hh : ∀ c ∈ content.head?, c ≠ '!' ∧ c ≠ '?' ∧ c ≠ '/') : (tag content).IsReadable := by
  intro rest
  have hc : ∀ d : Char, (d = '!' ∨ d = '?' ∨ d = '/') →
      ∀ l, ¬ content ++ '>' :: rest = d :: l := by
    intro d hd l he
    cases content with
    | nil =>
        have := (List.cons.inj he).1
        rcases hd with rfl | rfl | rfl <;> revert this <;> decide
    | cons c s =>
        have := hh c rfl
        rw [(List.cons.inj he).1] at this
        tauto
  show next? ('<' :: (content ++ ['>'] ++ rest)) = _
  rw [List.append_assoc, List.singleton_append,
    next?.eq_4 _ (hc '!' (.inl rfl)) (hc '?' (.inr (.inl rfl))) (hc '/' (.inr (.inr rfl))),
    hb.tagEnd?_append]
  rfl

lemma isReadable_close {content : Text} (hb : IsBalanced content) :
    (close content).IsReadable := by
  intro rest
  show (tagEnd? (content ++ ['>'] ++ rest)).map _ = _
  rw [List.append_assoc, List.singleton_append, hb.tagEnd?_append]
  rfl

end Token

lemma SpacedTag.head?_content (tag : SpacedTag) (s : Text) :
    ∀ c ∈ (tag.content ++ s).head?, c ≠ '!' ∧ c ≠ '?' ∧ c ≠ '/' := by
  obtain ⟨c, r, hn⟩ := tag.name.exists_eq_cons
  intro d hd
  rw [content, hn] at hd
  obtain rfl : c = d := by simpa using hd
  have hne := tag.name.head_ne
  have hc := isNameChar_iff.mp (tag.name.isNameChar_of_mem c (by rw [hn]; exact List.mem_cons_self))
  rw [hn] at hne
  simp only [List.head?_cons, ne_eq, Option.some.injEq] at hne
  exact ⟨hne.1, hne.2, hc.2.2.2.2.1⟩

lemma SpacedTag.isReadable_openTag (tag : SpacedTag) : tag.openTag.IsReadable :=
  Token.isReadable_tag tag.isBalanced_content (by simpa using tag.head?_content [])

lemma SpacedTag.isReadable_emptyTag (tag : SpacedTag) : tag.emptyTag.IsReadable :=
  Token.isReadable_tag (tag.isBalanced_content.append (IsBalanced.singleton rfl (by decide)))
    (tag.head?_content ['/'])

section EndTag

variable {space : Text} (h : ∀ c ∈ space, isSpace c = true)
include h

lemma Name.isReadable_close (n : Name) : (Token.close (n.text ++ space)).IsReadable :=
  Token.isReadable_close (n.isBalanced.append (IsBalanced.of_isSpace h))

/-- An end tag names its element, with any white space behind the name. -/
lemma Name.closedName_append (n : Name) : closedName (n.text ++ space) = n.text := by
  obtain ⟨c, r, hn⟩ := n.exists_eq_cons
  have hc : isSpace c = false := n.isSpace_eq_false (by rw [hn]; exact List.mem_cons_self)
  have hall : (n.text ++ space).all isSpace = false := by
    rw [hn, List.cons_append, List.all_cons, hc, Bool.false_and]
  rw [closedName, hall, if_neg Bool.false_ne_true]
  exact dropEnd_append_of_forall (fun _ hc => n.isSpace_eq_false hc) h

end EndTag

end DocImage.Markup
