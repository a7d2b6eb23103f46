import Mathlib.Tactic
import DocImage.Proofs.Address.Decoding
import DocImage.Proofs.Presentation.History

/-!
What a host reads in the image element behind a comment. The references in the address are replaced
in reading: an address with an `&` is another one then, unless its references cannot be read.

* `isPlain_of_newAddress`, `isLiteral_of_newAddress`: an address that is given to a file consists of
  visible ASCII without angle brackets and double quotes, and it has no `&` if the file is inlined.
* `present_element_read`: so the element carries the address of an inlined file intact, and
  that of any other unless its `&` are read as references.
-/

namespace DocImage

open Markup

universe u

/-! ### Addresses in the element -/

section Addresses

variable {location : Location} {node : Node} {threshold : Nat} {uri : Text}

/-- A file that is not longer than the threshold is inlined. -/
lemma isLiteral_of_newAddress (h : newAddress location node threshold = .ok uri)
    (hl : node.metadata.length ≤ threshold) : ∀ c ∈ uri, IsLiteral c := by
  simp only [newAddress, makeAddress, if_neg (Nat.not_lt.mpr hl)] at h
  split at h
  · obtain rfl := Except.ok.inj h
    exact isLiteral_of_mem_dataUri _ _
  · cases h

namespace Session

variable {tree : FileTree} {steps : List SessionStep} {path : Path}

/-- What a session answers was the new address of something with the metadata of what is there. -/
lemma exists_newAddress_of_answer (ha : (after tree steps).answer path threshold = .ok uri) :
    ∃ location node old, (after tree steps).tree.canonicalize path = .ok (location, node) ∧
      old.metadata = node.metadata ∧ newAddress location old threshold = .ok uri := by
  obtain ⟨cache, hc⟩ := answer_eq_ok_iff.mp ha
  obtain ⟨location, node, hp, ⟨hk, -⟩ | ⟨-, hn, -⟩⟩ := AddressCache.address_still_eq_ok_iff.mp hc
  · obtain ⟨old, -, hm, hn⟩ := faithful_run tree steps _ _ hk
    exact ⟨location, node, old, hp, hm, hn⟩
  · exact ⟨location, node, node, hp, rfl, hn⟩

end Session

end Addresses

/-! ### What the host reads -/

/-- A file with an address is put behind the comment. -/
lemma plan_of_answer {s : Session} {settings : Settings} {roots : List Path} {docs : Documentation}
    {comment : Text} {e : Extraction} {asked : ImageTag} {path : Path} {uri : Text}
    (hd : docs.first? = some comment) (he : extract comment = .ok e) (ht : e.tag = some asked)
    (hf : FirstFile s.tree roots asked.src path)
    (ha : s.answer path settings.inlineThreshold = .ok uri) :
    ∃ cache, plan settings s.tree s.cache roots docs = .ok (some ⟨e.sanitized,
      some (imageBlock uri (settings.drawnSize s.tree path asked.bounds)), cache⟩) := by
  obtain ⟨cache, hc⟩ := Session.answer_eq_ok_iff.mp ha
  refine ⟨cache, ?_⟩
  rw [plan_eq hd he, blockOf?_eq_some_iff.mpr ⟨asked, path, uri, ht, hf, hc, rfl⟩]
  rfl

/-- **The element carries its address, unless that has references.** Whatever was asked and changed
before, an image for which there is a file with an address is put behind the rendered comment as one
empty element, which says the size at which it is drawn. Its address is the one that is given for
the file, with its quotes coded and its references replaced. So it is intact exactly if it has no
`&` or one that begins no known reference, and always if the file is inlined. -/
theorem present_element_read {m : Type → Type u} [Monad m] [LawfulMonad m] (tree : FileTree)
    (steps : List SessionStep) (settings : Settings) (roots : List Path) (docs : Documentation)
    (comment : Text) (e : Extraction) (asked : ImageTag) (path : Path) (uri : Text)
    (render : Text → m Text)
    (hd : docs.first? = some comment) (he : extract comment = .ok e) (ht : e.tag = some asked)
    (hf : FirstFile (Session.after tree steps).tree roots asked.src path)
    (ha : (Session.after tree steps).answer path settings.inlineThreshold = .ok uri) :
    ∃ block cache, present settings (Session.after tree steps).tree
          (Session.after tree steps).cache roots docs render = .ok (do
        let html ← render e.sanitized
        return (some (html ++ block), cache)) ∧
      (∃ tag, startTag? block = some tag ∧ tag.name = ['i', 'm', 'g'] ∧ tag.isEmpty = true) ∧
      elementValue? block ['w', 'i', 'd', 't', 'h'] = some (Numeral.write
        (settings.drawnSize (Session.after tree steps).tree path asked.bounds).width) ∧
      elementValue? block ['h', 'e', 'i', 'g', 'h', 't'] = some (Numeral.write
        (settings.drawnSize (Session.after tree steps).tree path asked.bounds).height) ∧
      elementValue? block ['s', 'r', 'c'] =
        some ((unescape? (quoteSafe uri)).getD (quoteSafe uri)) ∧
      (elementValue? block ['s', 'r', 'c'] = some (quoteSafe uri) ↔
        '&' ∉ uri ∨ unescape? (quoteSafe uri) = none) ∧
      ∀ location node, (Session.after tree steps).tree.canonicalize path = .ok (location, node) →
        node.metadata.length ≤ settings.inlineThreshold →
        elementValue? block ['s', 'r', 'c'] = some uri := by
  obtain ⟨cache, hplan⟩ := plan_of_answer hd he ht hf ha
  refine ⟨imageBlock uri (settings.drawnSize (Session.after tree steps).tree path asked.bounds),
    cache, present_eq_of_plan hplan, ⟨_, startTag?_imageBlock uri _, rfl, rfl⟩,
    elementValue?_width uri _, elementValue?_height uri _, elementValue?_src uri _,
    elementValue?_src_eq_iff uri _, fun location node hp hl => ?_⟩
  obtain ⟨location', node', old, hp', hm, hn⟩ := Session.exists_newAddress_of_answer ha
  obtain ⟨rfl, rfl⟩ := Prod.mk.inj (Except.ok.inj (hp.symm.trans hp'))
  have hliteral := isLiteral_of_newAddress hn (hm ▸ hl)
  rw [(elementValue?_src_eq_iff uri _).mpr (.inl fun h => (hliteral _ h).2.2 rfl),
    quoteSafe_eq_self fun h => (hliteral _ h).2.1 rfl]

/-- A tree with one file of one byte below its root. -/
def fileNamed (name : Text) : FileTree :=
  { root := .directory [(Utf8.encode name, .file [1] .epoch)] .epoch }

/-- A file that is not inlined, with a quote, blanks and an `&` in its name: only the quote and the
blanks are coded. -/
theorem present_element_read_beside_quote :
    ∃ e asked path uri,
      extract "<summary><img src=\"it's & b\"/></summary>".toList = .ok e ∧ e.tag = some asked ∧
      FirstFile (fileNamed "it's & b".toList) [[Path.slash]] asked.src path ∧
      (Session.after (fileNamed "it's & b".toList) []).answer path 0 = .ok uri ∧
      ∃ block cache, present (m := Id) { inlineThreshold := 0 } (fileNamed "it's & b".toList) {}
          [[Path.slash]] ⟨some "<summary><img src=\"it's & b\"/></summary>".toList, none, none⟩
          pure = .ok (some ("<summary></summary>".toList ++ block), cache) ∧
        elementValue? block ['s', 'r', 'c'] = some "file:///it%27s%20&%20b".toList := by
  have hx : extract "<summary><img src=\"it's & b\"/></summary>".toList =
      .ok ⟨some ⟨"it's & b".toList, {}⟩, "<summary></summary>".toList⟩ := by cbv
  have hf : FirstFile (fileNamed "it's & b".toList) [[Path.slash]] "it's & b".toList
      (Path.slash :: Utf8.encode "it's & b".toList) :=
    firstFile_still_iff.mpr
      ⟨[], [Path.slash], [], rfl, by cbv, ⟨[1], .epoch, true, by cbv⟩, List.forall_mem_nil _⟩
  have ha : (Session.after (fileNamed "it's & b".toList) []).answer
      (Path.slash :: Utf8.encode "it's & b".toList) 0 = .ok "file:///it's%20&%20b".toList := by cbv
  obtain ⟨block, cache, hp, -, -, -, hsrc, -⟩ := present_element_read (m := Id)
    (fileNamed "it's & b".toList) [] { inlineThreshold := 0 } [[Path.slash]]
    ⟨some "<summary><img src=\"it's & b\"/></summary>".toList, none, none⟩ _ _ _ _ _ pure rfl hx rfl
    hf ha
  have hread : (unescape? (quoteSafe "file:///it's%20&%20b".toList)).getD
      (quoteSafe "file:///it's%20&%20b".toList) = "file:///it%27s%20&%20b".toList := by cbv
  exact ⟨_, _, _, _, hx, rfl, hf, ha, block, cache, hp, hread ▸ hsrc⟩

/-- A file is presented whose name looks like a reference: the host reads the address of another
file. -/
theorem not_forall_present_element_intact :
    ¬ ∀ (tree : FileTree) (settings : Settings) (roots : List Path) (tag : ImageTag) (path : Path)
      (uri block : Text) (cache : AddressCache), FirstFile tree roots tag.src path →
      (Session.start tree).answer path settings.inlineThreshold = .ok uri →
      blockOf? settings tree {} roots (some tag) = some (block, cache) →
      elementValue? block ['s', 'r', 'c'] = some (quoteSafe uri) := by
  intro h
  have hf : FirstFile (fileNamed "a&amp;b".toList) [[Path.slash]] "a&amp;b".toList
      (Path.slash :: Utf8.encode "a&amp;b".toList) :=
    firstFile_still_iff.mpr
      ⟨[], [Path.slash], [], rfl, by cbv, ⟨[1], .epoch, true, by cbv⟩, List.forall_mem_nil _⟩
  have ha : (Session.start (fileNamed "a&amp;b".toList)).answer
      (Path.slash :: Utf8.encode "a&amp;b".toList) 0 = .ok "file:///a&amp;b".toList := by cbv
  obtain ⟨cache, hc⟩ := Session.answer_eq_ok_iff.mp ha
  have hb := h _ { inlineThreshold := 0 } _ ⟨"a&amp;b".toList, {}⟩ _ _ _ cache hf ha
    (blockOf?_eq_some_iff.mpr ⟨_, _, _, rfl, hf, hc, rfl⟩)
  rw [elementValue?_src_eq_iff] at hb
  have hread : unescape? (quoteSafe "file:///a&amp;b".toList) = some "file:///a&b".toList := by cbv
  rw [hread] at hb
  revert hb
  decide

end DocImage
