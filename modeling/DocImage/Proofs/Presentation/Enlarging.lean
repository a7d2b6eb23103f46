import Mathlib.Tactic
import DocImage.Proofs.Drawing.Enlarging
import DocImage.Proofs.Extraction.Forest
import DocImage.Proofs.Presentation.Rendered

/-!
Whether enlarging is allowed makes no difference to what is presented.

* `SameButUpscale` says of two comments that they ask for the same image within the same bounds, and
  perhaps differ in what they say of enlarging. `sameButUpscale_write`: written comments are so if
  only the attribute for it differs (`AgreeButUpscale`).
* `present_withUpscale`: such comments are presented alike, also with different settings for it.
-/

namespace DocImage

open Markup

universe u

/-- The settings with another flag for enlarging. -/
def Settings.withUpscale (settings : Settings) (allow : Bool) : Settings :=
  { settings with allowUpscale := allow }

/-- What a tag asks for, with another flag for enlarging. -/
def ImageTag.withUpscale (tag : ImageTag) (allow : Bool) : ImageTag :=
  { tag with bounds := tag.bounds.withUpscale allow }

/-- A comment taken apart, with another flag for enlarging. -/
def Extraction.withUpscale (e : Extraction) (allow : Bool) : Extraction :=
  { e with tag := e.tag.map (·.withUpscale allow) }

/-- Two comments are taken apart alike, but perhaps for the flag for enlarging. -/
def SameButUpscale (comment comment' : Text) : Prop :=
  ∃ allow, extract comment' = (extract comment).map (·.withUpscale allow)

lemma SameButUpscale.refl (comment : Text) : SameButUpscale comment comment := by
  cases he : extract comment with
  | error e => exact ⟨false, by rw [he]; rfl⟩
  | ok e =>
      obtain ⟨_ | tag, sanitized⟩ := e
      · exact ⟨false, by rw [he]; rfl⟩
      · exact ⟨tag.bounds.allowUpscale, by rw [he]; rfl⟩

/-! ### The attribute for enlarging -/

namespace ImageTag

/-- The name of the attribute that says whether enlarging is allowed. -/
def upscaleName : Text := ['u', 'p', 's', 'c', 'a', 'l', 'e']

/-- Two tags have the same attributes in the same order, but for those that say whether enlarging is
allowed. -/
def AgreeButUpscale (attributes attributes' : List Attribute) : Prop :=
  attributes.filter (·.name ≠ upscaleName) = attributes'.filter (·.name ≠ upscaleName)

section Agree

variable {attributes attributes' : List Attribute} (h : AgreeButUpscale attributes attributes')
include h

lemma AgreeButUpscale.value?_eq {name : Text} (hname : name ≠ upscaleName) :
    value? attributes name = value? attributes' name := by
  have hfilter : ∀ l : List Attribute,
      (l.filter (·.name ≠ upscaleName)).find? (·.name = name) = l.find? (·.name = name) := by
    intro l
    rw [List.find?_filter]
    refine congrArg (l.find? ·) (funext fun a => ?_)
    by_cases ha : a.name = name
    · simp [ha, hname]
    · simp [ha]
  rw [value?, value?, ← hfilter, h, hfilter]

lemma AgreeButUpscale.pixelsUnder?_eq {names : List Text} (hnames : upscaleName ∉ names) :
    pixelsUnder? attributes names = pixelsUnder? attributes' names := by
  have hall : ∀ names : List Text, upscaleName ∉ names →
      pixelsUnder? attributes names = pixelsUnder? attributes' names := by
    intro names
    induction names with
    | nil => exact fun _ => rfl
    | cons name names ih =>
        intro hmem
        rw [List.mem_cons, not_or] at hmem
        have hrest := ih hmem.2
        rw [pixelsUnder?, pixelsUnder?] at hrest ⊢
        rw [List.findSome?_cons, List.findSome?_cons, h.value?_eq (Ne.symm hmem.1), hrest]
  exact hall names hnames

/-- Such tags ask for the same, but perhaps for the flag for enlarging. -/
lemma AgreeButUpscale.ofAttributes?_eq :
    ofAttributes? attributes' =
      (ofAttributes? attributes).map (·.withUpscale (boundsOf attributes').allowUpscale) := by
  have hbounds : boundsOf attributes' =
      (boundsOf attributes).withUpscale (boundsOf attributes').allowUpscale := by
    rw [boundsOf, boundsOf, Bounds.withUpscale]
    simp only [Bounds.mk.injEq, and_true]
    exact ⟨(h.pixelsUnder?_eq (by decide)).symm, (h.pixelsUnder?_eq (by decide)).symm,
      (h.pixelsUnder?_eq (by decide)).symm, (h.pixelsUnder?_eq (by decide)).symm,
      (h.pixelsUnder?_eq (by decide)).symm, (h.pixelsUnder?_eq (by decide)).symm⟩
  rw [ofAttributes?, ofAttributes?, h.value?_eq (by decide)]
  cases (value? attributes' ['s', 'r', 'c']).map trim with
  | none => rfl
  | some src =>
      cases src with
      | nil => rfl
      | cons c src =>
          dsimp only [Option.map_some, withUpscale]
          rw [← hbounds]

end Agree

end ImageTag

/-- The first image of the first summary. -/
def Markup.Forest.summaryImage? (F : Forest) : Option ElementTag :=
  F.firstSummary?.bind Forest.firstImage?

/-- Written comments differ in nothing but the flag if only the images of their summaries differ,
and the first of these in no attribute but the one for enlarging. -/
lemma sameButUpscale_write {F F' : Forest} {tag tag' : ElementTag}
    (hm : F.write.head? ≠ some byteOrderMark) (hm' : F'.write.head? ≠ some byteOrderMark)
    (ht : F.summaryImage? = some tag) (ht' : F'.summaryImage? = some tag')
    (hasks : (ImageTag.ofAttributes? tag.attributes).isSome = true)
    (hagree : ImageTag.AgreeButUpscale tag.attributes tag'.attributes)
    (hrest : F.withoutSummaryImages.write = F'.withoutSummaryImages.write) :
    SameButUpscale F.write F'.write := by
  have hrequested : ∀ {F : Forest} {tag : ElementTag}, F.summaryImage? = some tag →
      F.requested? = ImageTag.ofAttributes? tag.attributes := fun h => by
    rw [Forest.requested?, ← Forest.summaryImage?, h, Option.bind_some]
  obtain ⟨image, himage⟩ := Option.isSome_iff_exists.mp hasks
  refine ⟨(ImageTag.boundsOf tag'.attributes).allowUpscale, ?_⟩
  rw [extract_write_eq hm, extract_write_eq hm', hrequested ht, hrequested ht',
    hagree.ofAttributes?_eq, himage, ← hrest]
  simp only [Except.map, Extraction.withUpscale, Option.map_some]

/-! ### What is presented -/

section Presented

variable (settings : Settings) (files : Accesses) (cache : AddressCache) (roots : List Path)

lemma blockOf?_withUpscale (tag : Option ImageTag) (allow allow' : Bool) :
    blockOf? (settings.withUpscale allow') files cache roots (tag.map (·.withUpscale allow)) =
      blockOf? settings files cache roots tag := by
  have hblock : ∀ path (bounds : Bounds),
      blockFor (settings.withUpscale allow') files cache path (bounds.withUpscale allow) =
        blockFor settings files cache path bounds := by
    intro path bounds
    have hsize := Drawing.drawnSize_withUpscale (files.imageSize? path) (some bounds)
      settings.defaultEdge allow allow' settings.allowUpscale
    rw [Option.map_some] at hsize
    simp only [blockFor, Settings.withUpscale, hsize]
  cases tag with
  | none => simp only [blockOf?, Option.map_none, Option.bind_eq_bind, Option.bind_none]
  | some asked =>
      simp only [blockOf?, Option.map_some, Option.bind_eq_bind, Option.bind_some,
        ImageTag.withUpscale, hblock]

/-- Comments that differ only in the flag for enlarging are presented alike, whatever the settings
say of it. -/
lemma present_withUpscale {docs docs' : Documentation}
    (h : Option.Rel SameButUpscale docs.first? docs'.first?) (allow : Bool)
    {m : Type → Type u} [Monad m] (render : Text → m Text) :
    present (settings.withUpscale allow) files cache roots docs' render =
      present settings files cache roots docs render := by
  have hplan : plan (settings.withUpscale allow) files cache roots docs' =
      plan settings files cache roots docs := by
    rw [plan, plan]
    generalize docs.first? = first at h
    generalize docs'.first? = first' at h
    cases h with
    | none => rfl
    | some hsame =>
        obtain ⟨allow', hsame⟩ := hsame
        dsimp only
        rw [hsame]
        cases extract _ with
        | error e => simp only [Except.map]
        | ok e => simp only [Except.map, Extraction.withUpscale, blockOf?_withUpscale]
  rw [present, present, hplan]

end Presented

end DocImage
