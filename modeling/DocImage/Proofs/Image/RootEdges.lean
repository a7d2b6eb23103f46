import Mathlib.Tactic
import DocImage.Proofs.Image.QuotedEdges
import DocImage.Proofs.Markup.Written

/-!
The edges of an SVG whose root element begins its only line. A name is searched in the text and not
among the attributes, so it may be found in another attribute than the one that has it.

* `Svg.edge?_append`: the search for a name goes on from one part of a text to the next, if that one
  begins with a character that is no letter.
* `Svg.edge?_write_append`: so an attribute with the name in its own name ends the search with its
  value, and one with the name in its value only ends it behind the closing quote.
* `Svg.edge?_flatMap_write`: among attributes the first one in which the name stands counts.
* `probeBytes_rootEdges`: so the edges of the root element are its own where the names stand in none
  of the attributes in front of them. `not_forall_probeBytes_rootEdges` says why this is needed.
-/

namespace DocImage

open Markup

/-- A word that begins a list ends before an item that is not in it. -/
lemma prefix_append_iff_of_head? {α : Type} {word l rest : List α}
    (h : ∀ a ∈ rest.head?, a ∉ word) : word <+: l ++ rest ↔ word <+: l := by
  refine ⟨fun hp => ?_, fun hp => hp.trans (List.prefix_append l rest)⟩
  rcases List.prefix_or_prefix_of_prefix hp (List.prefix_append l rest) with hl | ⟨more, rfl⟩
  · exact hl
  · cases more with
    | nil => rw [List.append_nil]
    | cons a more =>
        obtain ⟨tail, htail⟩ := (List.prefix_append_right_inj l).mp hp
        refine absurd (List.mem_append_right l (.head more)) (h a ?_)
        rw [← htail]
        exact rfl

namespace Svg

/-! ### Searching one part after another -/

/-- A name that is a word of lower letters. -/
def IsWord (name : Text) : Prop :=
  name ≠ [] ∧ ∀ c ∈ name, c.isLower = true

lemma isWord_widthName : IsWord widthName :=
  ⟨List.cons_ne_nil _ _, List.all_eq_true.mp rfl⟩

lemma isWord_heightName : IsWord heightName :=
  ⟨List.cons_ne_nil _ _, List.all_eq_true.mp rfl⟩

/-- The number of pixels in a value. -/
def pixels? (value : Text) : Option Nat :=
  Numeral.readPositive? (withoutUnits ['p', 'x', '%'] value)

lemma edge?_eq (name s : Text) : edge? name s = ((fromName? name s).bind quoted?).bind pixels? :=
  (Option.bind_assoc _ _ _).symm

/-- What is found is an end of the text. -/
lemma suffix_of_fromName? {name s t : Text} (h : fromName? name s = some t) : t <:+ s := by
  induction s with
  | nil => cases h
  | cons c s ih =>
      rw [fromName?_cons_eq_ite] at h
      split at h
      · obtain rfl := Option.some.inj h
        exact List.suffix_refl _
      · exact (ih h).trans (List.suffix_cons c s)

section Parts

variable {name : Text} (hword : IsWord name)
include hword

/-- A character that is no letter is not in a name, in whatever case the text is taken. -/
lemma IsWord.toLower_notMem {c : Char} (hc : c.isAlpha = false) : c.toLower ∉ name := by
  intro hmem
  have hlower := hword.2 _ hmem
  rw [Char.isLower_toLower_eq_isAlpha, hc] at hlower
  cases hlower

/-- **A name is searched in one part of a text after the other**, if the second part begins with a
character that is no letter. -/
lemma fromName?_append {y : Text} (hy : ∀ c ∈ y.head?, c.isAlpha = false) (x : Text) :
    fromName? name (x ++ y) = ((fromName? name x).map (· ++ y)).or (fromName? name y) := by
  have hfold : ∀ c ∈ (foldCase y).head?, c ∉ name := by
    intro c hc
    rw [foldCase, List.head?_map] at hc
    obtain ⟨d, hd, rfl⟩ := Option.map_eq_some_iff.mp hc
    exact hword.toLower_notMem (hy d hd)
  induction x with
  | nil => rfl
  | cons c x ih =>
      have hbegin : name <+: foldCase (c :: (x ++ y)) ↔ name <+: foldCase (c :: x) := by
        have happend : foldCase (c :: (x ++ y)) = foldCase (c :: x) ++ foldCase y := by
          rw [← List.cons_append, foldCase, List.map_append]
          rfl
        rw [happend, prefix_append_iff_of_head? hfold]
      rw [List.cons_append, fromName?_cons_eq_ite, fromName?_cons_eq_ite, ih]
      by_cases hp : name <+: foldCase (c :: x)
      · rw [if_pos (hbegin.mpr hp), if_pos hp]
        rfl
      · rw [if_neg (mt hbegin.mp hp), if_neg hp]

/-- **The number under a name** is behind a part without quotes if the name stands in it, and is
searched in what follows it if not. -/
lemma edge?_append {x y : Text} (hx : '"' ∉ x) (hy : ∀ c ∈ y.head?, c.isAlpha = false) :
    edge? name (x ++ y) =
      if Mentions name x then (quoted? y).bind pixels? else edge? name y := by
  rw [edge?_eq, fromName?_append hword hy]
  by_cases hm : Mentions name x
  · rw [if_pos hm]
    cases hfound : fromName? name x with
    | none => exact absurd hm ((fromName?_eq_none_iff hword.1).mp hfound)
    | some t =>
        have ht : '"' ∉ t := fun hq => hx ((suffix_of_fromName? hfound).subset hq)
        rw [Option.map_some, Option.some_or, Option.bind_some, quoted?_append_of_notMem ht]
  · rw [if_neg hm, (fromName?_eq_none_iff hword.1).mpr hm, Option.map_none, Option.none_or,
      edge?_eq]

/-- No name is found among characters that are no letters. -/
lemma edge?_append_of_forall {x : Text} (hx : ∀ c ∈ x, c.isAlpha = false) (y : Text) :
    edge? name (x ++ y) = edge? name y := by
  induction x with
  | nil => rfl
  | cons c x ih =>
      have hc := hword.toLower_notMem (hx c List.mem_cons_self)
      rw [List.cons_append, edge?_eq, fromName?_cons hword.1 hc, ← edge?_eq,
        ih fun d hd => hx d (List.mem_cons_of_mem c hd)]

lemma edge?_cons {c : Char} (hc : c.isAlpha = false) (s : Text) :
    edge? name (c :: s) = edge? name s :=
  edge?_append_of_forall hword (List.forall_mem_singleton.mpr hc) s

end Parts

/-! ### Attributes -/

/-- No text with an equals sign is a number. -/
lemma pixels?_eq_none_of_mem {value : Text} (h : '=' ∈ value) : pixels? value = none := by
  refine Option.eq_none_iff_forall_ne_some.mpr fun n hn => ?_
  obtain ⟨-, t, rfl, -⟩ := tells_iff.mpr hn
  exact t.notMem_write (by decide) (by decide) (by decide) (by decide) h

/-- The name stands in the name or in the value of the attribute. -/
def Holds (name : Text) (a : Attribute) : Prop :=
  Mentions name a.name ∨ Mentions name a.value

instance (name : Text) (a : Attribute) : Decidable (Holds name a) :=
  inferInstanceAs (Decidable (_ ∨ _))

/-- The number under a name in some attributes: that of the first one in which the name stands, if
it stands in its name. -/
def edgeOf? (name : Text) (attributes : List Attribute) : Option Nat :=
  (attributes.find? fun a => Holds name a).bind fun a =>
    if Mentions name a.name then pixels? a.value else none

lemma edgeOf?_cons (name : Text) (a : Attribute) (as : List Attribute) :
    edgeOf? name (a :: as) =
      if Mentions name a.name then pixels? a.value
      else if Mentions name a.value then none else edgeOf? name as := by
  rw [edgeOf?, List.find?_cons]
  by_cases hname : Mentions name a.name
  · have hholds : Holds name a := .inl hname
    rw [decide_eq_true hholds, if_pos hname]
    exact if_pos hname
  · rw [if_neg hname]
    by_cases hvalue : Mentions name a.value
    · have hholds : Holds name a := .inr hvalue
      rw [decide_eq_true hholds, if_pos hvalue]
      exact if_neg hname
    · have hholds : ¬ Holds name a := not_or.mpr ⟨hname, hvalue⟩
      rw [decide_eq_false hholds, if_neg hvalue, edgeOf?]

lemma isAlpha_of_isSpace {c : Char} (h : isSpace c = true) : c.isAlpha = false := by
  have hc : ((c = ' ' ∨ c = '\t') ∨ c = '\n') ∨ c = '\r' := by simpa [isSpace] using h
  rcases hc with ((rfl | rfl) | rfl) | rfl <;> rfl

lemma quote_notMem_of_isSpace {s : Text} (h : ∀ c ∈ s, isSpace c = true) : '"' ∉ s := fun hq => by
  have hspace := h '"' hq
  revert hspace
  decide

lemma quote_notMem_name (n : Name) : '"' ∉ n.text := fun hq => by
  have hname := n.isNameChar_of_mem '"' hq
  revert hname
  decide

/-- What an attribute is written with in front of its value and the quote before it. -/
def opening (a : SpacedAttribute) : Text :=
  a.before ++ (a.name.text ++ (a.left ++ '=' :: a.right))

lemma quote_notMem_opening (a : SpacedAttribute) : '"' ∉ opening a := by
  simp only [opening, List.mem_append, List.mem_cons, not_or]
  exact ⟨quote_notMem_of_isSpace a.isSpace_of_mem_before, quote_notMem_name a.name,
    quote_notMem_of_isSpace a.isSpace_of_mem_left, by decide,
    quote_notMem_of_isSpace a.isSpace_of_mem_right⟩

section Attributes

variable {a : SpacedAttribute} (ha : a.quote = '"')
include ha

lemma write_append (t : Text) :
    a.write ++ t = opening a ++ '"' :: (a.value ++ '"' :: t) := by
  simp [SpacedAttribute.write, opening, ha]

lemma quote_notMem_value : '"' ∉ a.value :=
  ha ▸ a.quote_notMem

/-- The first quotes are those of the first attribute. -/
lemma quoted?_write_append (t : Text) : quoted? (a.write ++ t) = some a.value := by
  rw [write_append ha, quoted?_append (quote_notMem_opening a) (quote_notMem_value ha)]

/-- Between the quotes of two attributes there is no number. -/
lemma pixels?_between (t : Text) : (quoted? ('"' :: (a.write ++ t))).bind pixels? = none := by
  have hquoted : quoted? ('"' :: (a.write ++ t)) = some (opening a) := by
    rw [write_append ha]
    exact quoted?_append List.not_mem_nil (quote_notMem_opening a) _
  rw [hquoted]
  exact pixels?_eq_none_of_mem (by simp [opening])

/-- **An attribute ends the search for a name** with its value, if the name stands in its own name,
and behind the value if the name stands in that only. -/
lemma edge?_write_append {name : Text} (hword : IsWord name) (t : Text) :
    edge? name (a.write ++ t) =
      if Mentions name a.name.text then pixels? a.value
      else if Mentions name a.value then (quoted? ('"' :: t)).bind pixels? else edge? name t := by
  -- what stands behind the name
  let rest := a.left ++ '=' :: (a.right ++ '"' :: (a.value ++ '"' :: t))
  have hwrite : a.write ++ t = a.before ++ (a.name.text ++ rest) := by
    simp [SpacedAttribute.write, ha, rest]
  have hname := quote_notMem_name a.name
  have hquoted : quoted? rest = some a.value := by
    have hbefore := quote_notMem_of_isSpace a.isSpace_of_mem_before
    rw [← quoted?_write_append ha t, hwrite, quoted?_append_of_notMem hbefore,
      quoted?_append_of_notMem hname]
  have hhead : ∀ c ∈ rest.head?, c.isAlpha = false := by
    intro c hc
    rw [List.head?_append, Option.mem_def, Option.or_eq_some_iff] at hc
    rcases hc with hc | ⟨-, hc⟩
    · exact isAlpha_of_isSpace (a.isSpace_of_mem_left c (List.mem_of_head? hc))
    · obtain rfl : '=' = c := Option.some.inj hc
      rfl
  have hspace : ∀ {s : Text}, (∀ c ∈ s, isSpace c = true) → ∀ c ∈ s, c.isAlpha = false :=
    fun hs c hc => isAlpha_of_isSpace (hs c hc)
  rw [hwrite, edge?_append_of_forall hword (hspace a.isSpace_of_mem_before),
    edge?_append hword hname hhead, hquoted, Option.bind_some,
    edge?_append_of_forall hword (hspace a.isSpace_of_mem_left), edge?_cons hword (by decide),
    edge?_append_of_forall hword (hspace a.isSpace_of_mem_right), edge?_cons hword (by decide),
    edge?_append hword (quote_notMem_value ha) (by simp), edge?_cons hword (by decide)]

end Attributes

/-- **Among attributes the first one counts in which a name stands**, if the name is that of one of
them. -/
lemma edge?_flatMap_write {name : Text} (hword : IsWord name) {as : List SpacedAttribute}
    (hquote : ∀ a ∈ as, a.quote = '"') (hown : ∃ a ∈ as, Mentions name a.name.text) (t : Text) :
    edge? name (as.flatMap SpacedAttribute.write ++ t) =
      edgeOf? name (as.map fun a => a.toAttribute) := by
  induction as with
  | nil => simp at hown
  | cons a as ih =>
      obtain ⟨ha, has⟩ := List.forall_mem_cons.mp hquote
      rw [List.flatMap_cons, List.append_assoc, edge?_write_append ha hword, List.map_cons,
        edgeOf?_cons]
      by_cases hname : Mentions name a.name.text
      · rw [if_pos hname]
        exact (if_pos hname).symm
      · have hlater : ∃ b ∈ as, Mentions name b.name.text := by
          obtain ⟨b, hb, hm⟩ := hown
          rcases List.mem_cons.mp hb with rfl | hb
          · exact absurd hm hname
          · exact ⟨b, hb, hm⟩
        -- another attribute follows, so there are quotes behind this one
        cases as with
        | nil => simp at hlater
        | cons b as =>
            rw [if_neg hname, ih has hlater, List.flatMap_cons, List.append_assoc,
              pixels?_between (has b List.mem_cons_self)]
            exact (if_neg hname).symm

lemma IsWord.mentions_self {name : Text} (hword : IsWord name) : Mentions name name := by
  have hlower : ∀ c ∈ name, c.toLower = id c := fun c hc =>
    Char.toLower_eq_of_not_isUpper (Char.not_isUpper_of_isLower (hword.2 c hc))
  rw [Mentions, foldCase, List.map_congr_left hlower, List.map_id]

/-- The name stands in no attribute in front of the one that has it. -/
def LeadsIn (name : Text) (attributes : List Attribute) : Prop :=
  ∀ a ∈ attributes.takeWhile (·.name != name), ¬ Holds name a

instance (name : Text) (attributes : List Attribute) : Decidable (LeadsIn name attributes) :=
  inferInstanceAs (Decidable (∀ a ∈ _, _))

/-- The value of an attribute counts if its name leads. -/
lemma edgeOf?_of_leadsIn {name value : Text} (hword : IsWord name) {as : List Attribute}
    (hnodup : (as.map Attribute.name).Nodup) (hmem : ⟨name, value⟩ ∈ as) (h : LeadsIn name as) :
    edgeOf? name as = pixels? value := by
  induction as with
  | nil => cases hmem
  | cons a as ih =>
      rw [List.map_cons, List.nodup_cons] at hnodup
      rw [edgeOf?_cons]
      by_cases hname : a.name = name
      · -- it is the only one of its name
        rcases List.mem_cons.mp hmem with rfl | hmem
        · exact if_pos hword.mentions_self
        · exact absurd (hname ▸ List.mem_map_of_mem hmem) hnodup.1
      · rw [LeadsIn, List.takeWhile_cons_of_pos (by simpa using hname), List.forall_mem_cons] at h
        obtain ⟨hno, hleads⟩ := h
        have hlater := (List.mem_cons.mp hmem).resolve_left fun ha => hname (ha ▸ rfl)
        rw [if_neg (not_or.mp hno).1, if_neg (not_or.mp hno).2, ih hnodup.2 hlater hleads]

/-! ### Documents of one line -/

/-- The tag of the root element of an SVG, with its values in double quotes. -/
structure RootTag extends SpacedTag where
  isEmpty : Bool
  svg_prefix : ['s', 'v', 'g'] <+: name.text
  quote_eq : ∀ a ∈ spaced, a.quote = '"'

namespace RootTag

variable (r : RootTag)

/-- The tag as it is written. -/
def write : Text :=
  (if r.isEmpty then r.emptyTag else r.openTag).lexeme

/-- The number that is found under a name. -/
def found? (name : Text) : Option Nat :=
  if Mentions name r.name.text then r.attributes.head?.bind fun a => pixels? a.value
  else edgeOf? name r.attributes

/-- The name stands in nothing in front of the attribute that has it. -/
def Leads (name : Text) : Prop :=
  ¬ Mentions name r.name.text ∧ LeadsIn name r.attributes

instance (name : Text) : Decidable (r.Leads name) :=
  inferInstanceAs (Decidable (_ ∧ _))

lemma exists_write_append (t : Text) : ∃ ending, r.write ++ t =
    '<' :: (r.name.text ++ (r.spaced.flatMap SpacedAttribute.write ++ ending)) := by
  rw [write]
  cases r.isEmpty with
  | true => exact ⟨r.space ++ '/' :: '>' :: t, by
      simp [SpacedTag.emptyTag, Token.lexeme, SpacedTag.content, SpacedTag.attributeText]⟩
  | false => exact ⟨r.space ++ '>' :: t, by
      simp [SpacedTag.openTag, Token.lexeme, SpacedTag.content, SpacedTag.attributeText]⟩

/-- **What is read under the name of an attribute** is read in the tag. -/
lemma edge?_write_append {name value : Text} (hword : IsWord name)
    (hown : ⟨name, value⟩ ∈ r.attributes) (t : Text) :
    edge? name (r.write ++ t) = r.found? name := by
  obtain ⟨ending, hwrite⟩ := r.exists_write_append t
  obtain ⟨own, hmem, hattribute⟩ := List.mem_map.mp hown
  have hname : own.name.text = name := congrArg Attribute.name hattribute
  have hedge := edge?_flatMap_write hword r.quote_eq
    ⟨own, hmem, by rw [hname]; exact hword.mentions_self⟩ ending
  obtain ⟨a, as, hspaced⟩ := List.exists_cons_of_ne_nil (List.ne_nil_of_mem hmem)
  have ha : a.quote = '"' := r.quote_eq a (by rw [hspaced]; exact .head as)
  have hhead : ∀ c ∈ (r.spaced.flatMap SpacedAttribute.write ++ ending).head?,
      c.isAlpha = false := by
    obtain ⟨d, before, hbefore⟩ := List.exists_cons_of_ne_nil a.before_ne_nil
    have hd : d.isAlpha = false :=
      isAlpha_of_isSpace (a.isSpace_of_mem_before d (by rw [hbefore]; exact .head before))
    rw [hspaced, List.flatMap_cons, SpacedAttribute.write, hbefore]
    simpa using hd
  have hquoted : quoted? (r.spaced.flatMap SpacedAttribute.write ++ ending) = some a.value := by
    rw [hspaced, List.flatMap_cons, List.append_assoc, quoted?_write_append ha]
  have hfirst : r.attributes.head? = some a.toAttribute := by
    rw [SpacedTag.attributes, hspaced]
    rfl
  rw [hwrite, edge?_cons hword (by decide), edge?_append hword (quote_notMem_name r.name) hhead,
    hquoted, hedge, found?, hfirst]
  rfl

lemma found?_of_leads {name value : Text} (hword : IsWord name)
    (hown : ⟨name, value⟩ ∈ r.attributes) (h : r.Leads name) : r.found? name = pixels? value := by
  rw [found?, if_neg h.1, edgeOf?_of_leadsIn hword r.nodup_map_name_attributes hown h.2]

end RootTag

/-- A document of one line that begins with the tag of its root element, with anything behind it. -/
structure Document where
  root : RootTag
  rest : Bytes
  isLine : ByteStream.lineFeed ∉ Utf8.encode root.write ++ rest ∧
    carriageReturn ∉ Utf8.encode root.write ++ rest
  length_le : (Utf8.encode root.write ++ rest).length ≤ headLimit

namespace Document

variable (d : Document)

/-- The bytes of a document. -/
def bytes : Bytes :=
  Utf8.encode d.root.write ++ d.rest

lemma exists_root_write : ∃ s, d.root.write = '<' :: 's' :: 'v' :: 'g' :: s := by
  obtain ⟨ending, hwrite⟩ := d.root.exists_write_append []
  obtain ⟨more, hname⟩ := d.root.svg_prefix
  rw [List.append_nil, ← hname] at hwrite
  exact ⟨_, hwrite⟩

lemma exists_bytes : ∃ more, d.bytes = 0x3C :: more := by
  obtain ⟨s, hwrite⟩ := d.exists_root_write
  rw [bytes, hwrite]
  exact ⟨_, rfl⟩

/-- All of the document is searched. -/
lemma decodeText_searched :
    decodeText (searched d.bytes) = d.root.write ++ Utf8.decodeLossy d.rest := by
  have hlast : ∀ b ∈ d.bytes.getLast?, (b == carriageReturn) = false := fun b hb =>
    beq_eq_false_iff_ne.mpr fun he => d.isLine.2 (he ▸ List.mem_of_getLast? hb)
  have hsearched : searched d.bytes = d.bytes := by
    have htake : d.bytes.take headLimit = d.bytes := List.take_of_length_le d.length_le
    have hsplit : d.bytes.splitOn ByteStream.lineFeed = [d.bytes] :=
      List.splitOn_eq_singleton d.isLine.1
    rw [searched, htake, joinLines, hsplit, headLines, List.take_succ_cons, List.take_nil,
      List.flatMap_singleton, dropEnd_eq_self hlast]
  have hdecode : decodeText d.bytes = Utf8.decodeLossy d.bytes := by
    obtain ⟨more, hmore⟩ := d.exists_bytes
    rw [hmore]
    rfl
  rw [hsearched, hdecode, bytes, Utf8.decodeLossy_encode_append]

/-- The size of a document is that under the two names in the tag of its root. -/
lemma probeBytes_bytes {width height : Text} (hwidth : ⟨widthName, width⟩ ∈ d.root.attributes)
    (hheight : ⟨heightName, height⟩ ∈ d.root.attributes) :
    probeBytes d.bytes =
      some (match d.root.found? widthName, d.root.found? heightName with
        | some width, some height => ⟨width, height⟩
        | _, _ => ⟨64, 64⟩) := by
  have hraster : ∀ signature ∈ rasterSignatures, ¬ signature <+: d.bytes := by
    obtain ⟨more, hmore⟩ := d.exists_bytes
    rw [hmore]
    simp [rasterSignatures]
  have hmark : Mentions mark (d.root.write ++ Utf8.decodeLossy d.rest) := by
    obtain ⟨s, hwrite⟩ := d.exists_root_write
    rw [hwrite]
    exact ⟨[], foldCase (s ++ Utf8.decodeLossy d.rest), rfl⟩
  rw [probeBytes_of_not_raster hraster, d.decodeText_searched, verdict_of_mentions hmark,
    d.root.edge?_write_append isWord_widthName hwidth,
    d.root.edge?_write_append isWord_heightName hheight]
  rfl

end Document

end Svg

/-- **The edges of an SVG are those under the two names in the tag of its root element.** For a
document of one line that begins with this tag, and a root element with numbers as its `width` and
its `height`: an edge is the number in the first attribute in whose name or value the name stands,
in any letter case, if it stands in its name, and there is none if it stands in its value only.
Where the name stands in that of the element already, the edge is the number in the first attribute
of all. Without an edge the image is a square of 64 pixels. So the edges are the numbers of the two
attributes, whatever stands behind them, where the names stand in nothing in front of them. -/
theorem probeBytes_rootEdges (d : Svg.Document) {width height : Text} {w h : Nat}
    (hwidth : ⟨Svg.widthName, width⟩ ∈ d.root.attributes)
    (hheight : ⟨Svg.heightName, height⟩ ∈ d.root.attributes)
    (hw : Svg.Tells width w) (hh : Svg.Tells height h) :
    probeBytes d.bytes =
      some (match d.root.found? Svg.widthName, d.root.found? Svg.heightName with
        | some width, some height => ⟨width, height⟩
        | _, _ => ⟨64, 64⟩) ∧
    (d.root.Leads Svg.widthName → d.root.Leads Svg.heightName →
      probeBytes d.bytes = some ⟨w, h⟩) := by
  have hsize := d.probeBytes_bytes hwidth hheight
  refine ⟨hsize, fun hwidthLeads hheightLeads => ?_⟩
  have hfirst : d.root.found? Svg.widthName = some w :=
    (d.root.found?_of_leads Svg.isWord_widthName hwidth hwidthLeads).trans (Svg.tells_iff.mp hw)
  have hsecond : d.root.found? Svg.heightName = some h :=
    (d.root.found?_of_leads Svg.isWord_heightName hheight hheightLeads).trans (Svg.tells_iff.mp hh)
  rw [hsize, hfirst, hsecond]

/-- An empty tag with the height in front of the width, and attributes of other names in front of
both and behind them. -/
theorem probeBytes_rootEdges_in_front :
    ∃ d : Svg.Document, d.bytes = Utf8.encode
        "<svg id=\"a\" height=\"50\" width=\"100px\" stroke-width=\"2\"/>".toList ∧
      d.root.Leads Svg.widthName ∧ d.root.Leads Svg.heightName ∧
      probeBytes d.bytes = some ⟨100, 50⟩ := by
  let tag : ElementTag := ⟨.ofText ['s', 'v', 'g'] (by decide),
    [⟨.ofText ['i', 'd'] (by decide), ['a'], '"', rfl, by decide⟩,
      ⟨.ofText Svg.heightName (by decide), ['5', '0'], '"', rfl, by decide⟩,
      ⟨.ofText Svg.widthName (by decide), ['1', '0', '0', 'p', 'x'], '"', rfl, by decide⟩,
      ⟨.ofText "stroke-width".toList (by decide), ['2'], '"', rfl, by decide⟩], by decide⟩
  let root : Svg.RootTag := ⟨tag.spaced, true, List.prefix_rfl, by decide⟩
  let d : Svg.Document := ⟨root, [], by decide, by decide⟩
  have hw : Svg.Tells ['1', '0', '0', 'p', 'x'] 100 := Svg.tells_iff.mpr (by decide)
  have hh : Svg.Tells ['5', '0'] 50 := Svg.tells_iff.mpr (by decide)
  have hwidth : d.root.Leads Svg.widthName := by decide
  have hheight : d.root.Leads Svg.heightName := by decide
  have hedges := probeBytes_rootEdges d (.tail _ (.tail _ (.head _))) (.tail _ (.head _)) hw hh
  exact ⟨d, rfl, hwidth, hheight, hedges.2 hwidth hheight⟩

/-- A start tag with the edges 100 and 50 behind another attribute. -/
def Svg.rootBehind (first : QuotedAttribute)
    (hname : first.name.text ∉ [Svg.widthName, Svg.heightName]) (hquote : first.quote = '"') :
    Svg.RootTag where
  toSpacedTag := ElementTag.spaced
    { name := .ofText ['s', 'v', 'g'] (by decide)
      quoted := [first,
        ⟨.ofText Svg.widthName (by decide), Numeral.write 100, '"', rfl, by decide⟩,
        ⟨.ofText Svg.heightName (by decide), Numeral.write 50, '"', rfl, by decide⟩]
      nodup_names := List.nodup_cons.mpr ⟨hname, by decide⟩ }
  isEmpty := false
  svg_prefix := List.prefix_rfl
  quote_eq := List.forall_mem_cons.mpr ⟨hquote, by decide⟩

lemma Svg.mem_attributes_rootBehind (first : QuotedAttribute)
    (hname : first.name.text ∉ [Svg.widthName, Svg.heightName]) (hquote : first.quote = '"') :
    ⟨Svg.widthName, Numeral.write 100⟩ ∈ (Svg.rootBehind first hname hquote).attributes ∧
      ⟨Svg.heightName, Numeral.write 50⟩ ∈ (Svg.rootBehind first hname hquote).attributes :=
  ⟨.tail _ (.head _), .tail _ (.tail _ (.head _))⟩

/-- The name of an edge may stand in the name of an attribute in front of it, or in its value. -/
theorem not_forall_probeBytes_rootEdges :
    (¬ ∀ (d : Svg.Document) (w h : Nat), (0 < w ∧ w < 2 ^ 31) → (0 < h ∧ h < 2 ^ 31) →
      ⟨Svg.widthName, Numeral.write w⟩ ∈ d.root.attributes →
      ⟨Svg.heightName, Numeral.write h⟩ ∈ d.root.attributes → probeBytes d.bytes = some ⟨w, h⟩) ∧
    ¬ ∀ (d : Svg.Document) (w h : Nat), (0 < w ∧ w < 2 ^ 31) → (0 < h ∧ h < 2 ^ 31) →
      ⟨Svg.widthName, Numeral.write w⟩ ∈ d.root.attributes →
      ⟨Svg.heightName, Numeral.write h⟩ ∈ d.root.attributes →
      (∀ name ∈ [Svg.widthName, Svg.heightName], ∀ a ∈ d.root.attributes,
        Mentions name a.name → a.name = name) → probeBytes d.bytes = some ⟨w, h⟩ := by
  constructor
  · let stroke : QuotedAttribute :=
      ⟨.ofText "stroke-width".toList (by decide), ['2'], '"', rfl, by decide⟩
    let d : Svg.Document := ⟨Svg.rootBehind stroke (by decide) rfl, [], by decide, by decide⟩
    obtain ⟨hwidth, hheight⟩ := Svg.mem_attributes_rootBehind stroke (by decide) rfl
    have hfound : d.root.found? Svg.widthName = some 2 := by decide
    have hother : d.root.found? Svg.heightName = some 50 := by decide
    intro h
    have hsize := h d 100 50 (by decide) (by decide) hwidth hheight
    rw [d.probeBytes_bytes hwidth hheight, hfound, hother] at hsize
    cases hsize
  · let style : QuotedAttribute :=
      ⟨.ofText "style".toList (by decide), "x width".toList, '"', rfl, by decide⟩
    let d : Svg.Document := ⟨Svg.rootBehind style (by decide) rfl, [], by decide, by decide⟩
    obtain ⟨hwidth, hheight⟩ := Svg.mem_attributes_rootBehind style (by decide) rfl
    have hfound : d.root.found? Svg.widthName = none := by decide
    intro h
    have hsize := h d 100 50 (by decide) (by decide) hwidth hheight (by decide)
    rw [d.probeBytes_bytes hwidth hheight, hfound] at hsize
    cases hsize

end DocImage
