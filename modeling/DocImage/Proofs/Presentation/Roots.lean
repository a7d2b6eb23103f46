import Mathlib
import DocImage.Proofs.Presentation.Rendered

/-!
The directories in which an image is searched.

* `Documentation.source?` is the address of the image that a symbol asks for, and
  `Documentation.hasFileUnder` says of a root whether the address leads from there to a file.
* `present_congr_of_locate?`: what is presented depends on the roots only through the file that is
  found. `locate?_eq_map_find?`: that file depends on the first root with one and on no other.
* `present_in_order`: so roots without a file may stand anywhere in the list, and any roots behind
  the first one with a file. For an absolute address all roots are alike.
-/

namespace DocImage

universe u

/-! ### The address that is searched -/

/-- The address of the image that the first comment of a symbol asks for. -/
def Documentation.source? (docs : Documentation) : Option Text :=
  match docs.first?.map extract with
  | some (.ok e) => e.tag.map ImageTag.src
  | some (.error _) | none => none

/-- Whether the address that a symbol asks for leads from a root to a file, with all links followed.
-/
def Documentation.hasFileUnder (docs : Documentation) (tree : FileTree) (root : Path) : Bool :=
  docs.source?.any fun src => tree.isFile (Path.join root (Utf8.encode src))

lemma Documentation.source?_eq {docs : Documentation} {comment : Text} {e : Extraction}
    (hd : docs.first? = some comment) (he : extract comment = .ok e) :
    docs.source? = e.tag.map ImageTag.src := by
  rw [source?, hd, Option.map_some, he]

section Search

variable {tree : FileTree} {roots roots' : List Path} {src : Text}

/-- The first root with a file decides which file is found. -/
lemma locate?_eq_map_find? {docs : Documentation} (h : docs.source? = some src) :
    locate? tree roots src =
      (roots.find? (docs.hasFileUnder tree)).map fun root => Path.join root (Utf8.encode src) := by
  have hunder : docs.hasFileUnder tree =
      tree.isFile ∘ fun root => Path.join root (Utf8.encode src) := by
    funext root
    rw [Documentation.hasFileUnder, h]
    rfl
  rw [locate?, Accesses.firstFile?_still, List.find?_map, hunder]

lemma locate?_eq_none_iff : locate? tree roots src = none ↔
    ∀ root ∈ roots, ¬ tree.HasFile (Path.join root (Utf8.encode src)) := by
  simp [locate?, Accesses.firstFile?_still, FileTree.isFile_eq_true_iff]

/-- An absolute address does not depend on the root from which it is seen. -/
lemma locate?_of_isAbsolute (h : Path.isAbsolute (Utf8.encode src) = true) (hne : roots ≠ []) :
    locate? tree roots src = [Utf8.encode src].find? tree.isFile := by
  have hjoin : (roots.map fun root => Path.join root (Utf8.encode src)) =
      List.replicate roots.length (Utf8.encode src) := by
    rw [List.eq_replicate_iff, List.length_map]
    exact ⟨rfl, fun path hpath => by
      obtain ⟨root, -, rfl⟩ := List.mem_map.mp hpath
      exact if_pos h⟩
  rw [locate?, Accesses.firstFile?_still, hjoin,
    List.find?_replicate_of_length_pos (List.length_pos_iff.mpr hne), List.find?_singleton]

/-! ### What is presented -/

variable {settings : Settings} {cache : AddressCache} {docs : Documentation}

lemma blockOf?_congr {tag : Option ImageTag}
    (h : ∀ src ∈ tag.map ImageTag.src, locate? tree roots src = locate? tree roots' src) :
    blockOf? settings tree cache roots tag = blockOf? settings tree cache roots' tag := by
  cases tag with
  | none => rfl
  | some asked =>
      simp only [blockOf?, Option.bind_eq_bind, Option.bind_some]
      rw [h asked.src rfl]

variable {m : Type → Type u} [Monad m] {render : Text → m Text}

/-- Roots count only for the file that is found. -/
lemma present_congr_of_locate?
    (h : ∀ src ∈ docs.source?, locate? tree roots src = locate? tree roots' src) :
    present settings tree cache roots docs render =
      present settings tree cache roots' docs render := by
  have hplan : plan settings tree cache roots docs = plan settings tree cache roots' docs := by
    cases hd : docs.first? with
    | none => rw [plan, plan, hd]
    | some comment =>
        cases he : extract comment with
        | error e =>
            rw [plan, plan, hd]
            simp only [he, Except.map]
        | ok e =>
            rw [docs.source?_eq hd he] at h
            rw [plan_eq hd he, plan_eq hd he, blockOf?_congr h]
  rw [present, present, hplan]

/-- Roots count only for the first one among them from which there is a file. -/
lemma present_congr_of_find?
    (h : roots.find? (docs.hasFileUnder tree) = roots'.find? (docs.hasFileUnder tree)) :
    present settings tree cache roots docs render =
      present settings tree cache roots' docs render := by
  refine present_congr_of_locate? fun src hsrc => ?_
  rw [locate?_eq_map_find? hsrc, locate?_eq_map_find? hsrc, h]

end Search

/-- **Roots are tried strictly in order.** The file is the one to which the address leads from the
first root from where it leads to a file at all: if it has an address of its own, its image is put
behind the rendered comment, and otherwise nothing, and no other root is tried then. Nothing is put
there if the address leads to a file from no root. So nothing changes if roots from where it does
not are inserted or left out anywhere, or if those behind the first one from where it does are
replaced by others; and for an absolute address any roots will do, if there is one. -/
theorem present_in_order {m : Type → Type u} [Monad m] [LawfulMonad m] (settings : Settings)
    (tree : FileTree) (cache : AddressCache) (docs : Documentation) (render : Text → m Text) :
    (∀ roots comment e tag, docs.first? = some comment → extract comment = .ok e →
      e.tag = some tag →
      (∀ path, FirstFile tree roots tag.src path →
        present settings tree cache roots docs render = .ok (do
          let html ← render e.sanitized
          return match cache.address tree path settings.inlineThreshold with
            | .ok (uri, cache') =>
              (some (html ++ imageBlock uri (settings.drawnSize tree path tag.bounds)), cache')
            | .error _ => (some html, cache))) ∧
      ((∀ root ∈ roots, ¬ tree.HasFile (Path.join root (Utf8.encode tag.src))) →
        present settings tree cache roots docs render = .ok (do
          let html ← render e.sanitized
          return (some html, cache)))) ∧
    (∀ roots roots',
      roots.filter (docs.hasFileUnder tree) = roots'.filter (docs.hasFileUnder tree) →
      present settings tree cache roots docs render =
        present settings tree cache roots' docs render) ∧
    (∀ before root after after', docs.hasFileUnder tree root = true →
      present settings tree cache (before ++ root :: after) docs render =
        present settings tree cache (before ++ root :: after') docs render) ∧
    ∀ src, docs.source? = some src → Path.isAbsolute (Utf8.encode src) = true →
      ∀ roots roots', roots ≠ [] → roots' ≠ [] →
        present settings tree cache roots docs render =
          present settings tree cache roots' docs render := by
  refine ⟨fun roots comment e tag hd he ht => ⟨fun path hpath => ?_, fun hno => ?_⟩,
    fun roots roots' hfilter => ?_, fun before root after after' hroot => ?_,
    fun src hsrc habs roots roots' hne hne' => ?_⟩
  · rw [present_eq_of_plan (plan_eq hd he), ht]
    have hlocate := locate?_eq_some_iff.mpr hpath
    simp only [blockOf?, Option.bind_eq_bind, Option.bind_some, hlocate, blockFor]
    cases cache.address tree path settings.inlineThreshold with
    | error error => simp [Except.map, Except.toOption]
    | ok answer => rfl
  · have hlocate := locate?_eq_none_iff.mpr hno
    rw [present_eq_of_plan (plan_eq hd he), ht]
    simp [blockOf?, hlocate]
  · refine present_congr_of_find? ?_
    rw [← List.head?_filter, ← List.head?_filter, hfilter]
  · refine present_congr_of_find? ?_
    rw [List.find?_append, List.find?_append, List.find?_cons_of_pos hroot,
      List.find?_cons_of_pos hroot]
  · refine present_congr_of_locate? fun other hother => ?_
    obtain rfl := Option.some.inj (hsrc.symm.trans hother)
    rw [locate?_of_isAbsolute habs hne, locate?_of_isAbsolute habs hne']

/-- A file with a link to it, and in other directories under the name of that link a directory, a
link to nothing and a link to itself. -/
def crookedTree : FileTree :=
  { root := .directory
      [([0x78], .file [1, 2] .epoch),
        ([0x68], .directory [([0x61], .link [Path.slash, 0x78])] .epoch),
        ([0x64], .directory [([0x61], .emptyDirectory)] .epoch),
        ([0x6C], .directory [([0x61], .link [0x6E])] .epoch),
        ([0x6F], .directory [([0x61], .link [0x61])] .epoch)] .epoch }

/-- Roots from which the name leads to a directory, to a link to nothing, to a link to itself, to
nothing, and below a file. -/
def crookedRoots : List Path :=
  [[Path.slash, 0x64], [Path.slash, 0x6C], [Path.slash, 0x6F], [Path.slash, 0x6D],
    [Path.slash, 0x78]]

set_option maxRecDepth 8000 in
/-- From none of them there is a file. The link to itself is followed 40 times. -/
lemma all_crookedRoots :
    (crookedRoots.all fun root =>
      !crookedTree.isFile (Path.join root (Utf8.encode ['a']))) = true := by
  cbv

/-- The file is found behind all of these roots, through the link to it. -/
theorem present_in_order_behind_misses :
    let docs : Documentation := { symbol := some "<summary><img src='a'/></summary>".toList }
    let rooted : Documentation := { symbol := some "<summary><img src='/x'/></summary>".toList }
    let hit : Path := [Path.slash, 0x68]
    let linked : Path := [Path.slash, 0x68, Path.slash, 0x61]
    let shown (roots : List Path) (docs : Documentation) :=
      present (m := Id) {} crookedTree {} roots docs pure
    (∀ root ∈ crookedRoots, docs.hasFileUnder crookedTree root = false) ∧
      FirstFile crookedTree (crookedRoots ++ [hit]) ['a'] linked ∧
      (∃ uri cache size, shown (crookedRoots ++ [hit]) docs =
        .ok (some ("<summary></summary>".toList ++ imageBlock uri size), cache)) ∧
      shown crookedRoots docs = .ok (some "<summary></summary>".toList, {}) ∧
      shown (crookedRoots ++ [hit]) docs = shown [hit] docs ∧
      shown [hit] docs = shown (hit :: crookedRoots) docs ∧
      shown crookedRoots rooted = shown [[]] rooted := by
  intro docs rooted hit linked shown
  have hx : extract "<summary><img src='a'/></summary>".toList =
      .ok ⟨some ⟨['a'], {}⟩, "<summary></summary>".toList⟩ := by cbv
  have hsource : docs.source? = some ['a'] := docs.source?_eq rfl hx
  have hrooted : rooted.source? = some ['/', 'x'] := by cbv
  have hunder : ∀ root, docs.hasFileUnder crookedTree root =
      crookedTree.isFile (Path.join root (Utf8.encode ['a'])) := fun root => by
    rw [Documentation.hasFileUnder, hsource]
    rfl
  have hmisses : ∀ root ∈ crookedRoots, docs.hasFileUnder crookedTree root = false := by
    intro root hroot
    rw [hunder]
    simpa using List.all_eq_true.mp all_crookedRoots root hroot
  have hlinked : crookedTree.HasFile linked := ⟨[1, 2], .epoch, true, by cbv⟩
  have hhit : docs.hasFileUnder crookedTree hit = true := by
    rw [hunder]
    exact FileTree.isFile_eq_true_iff.mpr hlinked
  have hnone : ∀ root ∈ crookedRoots, ¬ crookedTree.HasFile (Path.join root (Utf8.encode ['a'])) :=
    fun root hroot hfile => by
      have := hmisses root hroot
      rw [hunder, FileTree.isFile_eq_true_iff.mpr hfile] at this
      cases this
  have hfirst : FirstFile crookedTree (crookedRoots ++ [hit]) ['a'] linked :=
    firstFile_still_iff.mpr ⟨crookedRoots, hit, [], rfl, rfl, hlinked, hnone⟩
  have hcanonical : crookedTree.canonicalize linked = .ok ([[0x78]], .file [1, 2] .epoch) := by cbv
  have haddress : AddressCache.address {} crookedTree linked defaultThreshold = .ok (_, _) :=
    AddressCache.address_still_of_get?_eq_none hcanonical rfl
  have hkept : (crookedRoots ++ [hit]).filter (docs.hasFileUnder crookedTree) =
      [hit].filter (docs.hasFileUnder crookedTree) := by
    rw [List.filter_append, List.filter_eq_nil_iff.mpr fun root hroot => by
      simp [hmisses root hroot], List.nil_append]
  obtain ⟨hfile, hfilter, htail, -⟩ := present_in_order (m := Id) {} crookedTree {} docs pure
  obtain ⟨-, -, -, habsolute⟩ := present_in_order (m := Id) {} crookedTree {} rooted pure
  have hshown := (hfile (crookedRoots ++ [hit]) _ _ ⟨['a'], {}⟩ rfl hx rfl).1 linked hfirst
  have hnothing := (hfile crookedRoots _ _ ⟨['a'], {}⟩ rfl hx rfl).2 hnone
  simp only [haddress] at hshown
  exact ⟨hmisses, hfirst, ⟨_, _, _, hshown⟩, hnothing, hfilter _ _ hkept,
    htail [] hit [] crookedRoots hhit, habsolute _ hrooted rfl _ _ (by decide) (by decide)⟩

end DocImage
