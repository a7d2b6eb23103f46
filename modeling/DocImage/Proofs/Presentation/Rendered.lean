import Mathlib
import DocImage.Proofs.Address.Cache
import DocImage.Proofs.Extraction.Found
import DocImage.Proofs.Presentation.Block

/-!
What is wrong with an image never costs the comment. Whatever the cache is like, and whatever each
access to the files meets, a comment is rendered once, by any renderer, and at most one image stands
behind it (`present_rendered_once`). The image is that of the first file the address leads to
(`FirstFile`), and it is there exactly if that file has an address, that is, if nothing is wrong
with it (`AddressCache.Trouble`). For files that stay as they are, `firstFile_still_iff` says which
file that is.
-/

namespace DocImage

universe u

/-! ### The file of an image -/

/-- A path leads to a file. -/
def FileTree.HasFile (tree : FileTree) (path : Path) : Prop :=
  ∃ contents modified readable, tree.find path = .ok (.file contents modified readable)

lemma FileTree.isFile_eq_true_iff {tree : FileTree} {path : Path} :
    tree.isFile path = true ↔ tree.HasFile path := by
  rw [isFile, HasFile]
  constructor
  · intro h
    split at h
    · next contents modified readable hf => exact ⟨contents, modified, readable, hf⟩
    · cases h
  · rintro ⟨contents, modified, readable, hf⟩
    rw [hf]

namespace Accesses

/-- The path that is asked after `n` others leads to a file. -/
def HasFile (files : Accesses) (n : Nat) (path : Path) : Prop :=
  ∃ tree, files.candidates n = .ok tree ∧ tree.HasFile path

lemma isFile_eq_true_iff {files : Accesses} {n : Nat} {path : Path} :
    files.isFile n path = true ↔ files.HasFile n path := by
  rw [isFile, HasFile]
  cases files.candidates n with
  | error e => simp
  | ok tree => simp [FileTree.isFile_eq_true_iff]

lemma hasFile_still_iff {tree : FileTree} {n : Nat} {path : Path} :
    (still tree).HasFile n path ↔ tree.HasFile path := by
  simp [HasFile, still]

/-- The path that is found is one for which there is a file when it is asked, and no path before it
is one. -/
lemma firstFile?_eq_some_iff {files : Accesses} {paths : List Path} {path : Path} :
    files.firstFile? paths = some path ↔ ∃ before after, paths = before ++ path :: after ∧
      files.HasFile before.length path ∧
      ∀ n other, before[n]? = some other → ¬ files.HasFile n other := by
  rw [firstFile?, Option.map_eq_some_iff]
  constructor
  · rintro ⟨⟨path, n⟩, hf, rfl⟩
    obtain ⟨hp, left, right, hz, hl⟩ := List.find?_eq_some_iff_append.mp hf
    obtain ⟨before, rest, rfl, rfl, hr⟩ := List.zipIdx_eq_append_iff.mp hz
    obtain ⟨path, after, rfl, hx, -⟩ := List.zipIdx_eq_cons_iff.mp hr.symm
    obtain ⟨rfl, rfl⟩ := Prod.mk.inj hx
    rw [Nat.zero_add] at hp
    refine ⟨before, after, rfl, isFile_eq_true_iff.mp hp, fun n other ho hfile => ?_⟩
    have hno : (!files.isFile n other) = true :=
      hl (other, n) (List.mem_zipIdx_iff_getElem?.mpr ho)
    rw [isFile_eq_true_iff.mpr hfile] at hno
    cases hno
  · rintro ⟨before, after, rfl, hp, hb⟩
    refine ⟨(path, before.length), List.find?_eq_some_iff_append.mpr
      ⟨isFile_eq_true_iff.mpr hp, before.zipIdx, after.zipIdx (before.length + 1), ?_, ?_⟩, rfl⟩
    · rw [List.zipIdx_append, List.zipIdx_cons, Nat.zero_add]
    · rintro ⟨other, n⟩ ho
      rw [Bool.not_eq_true', Bool.eq_false_iff]
      exact fun hfile =>
        hb n other (List.mem_zipIdx_iff_getElem?.mp ho) (isFile_eq_true_iff.mp hfile)

lemma firstFile?_still (tree : FileTree) (paths : List Path) :
    (still tree).firstFile? paths = paths.find? tree.isFile := by
  have hzip : paths.find? tree.isFile = (paths.zipIdx.map Prod.fst).find? tree.isFile := by
    rw [List.zipIdx_map_fst]
  rw [hzip, List.find?_map]
  rfl

end Accesses

/-- An address leads to a file from some root when that is asked for, `path` is the way there, and
from no root before it does so when that one is asked for. -/
def FirstFile (files : Accesses) (roots : List Path) (src : Text) (path : Path) : Prop :=
  ∃ before root after, roots = before ++ root :: after ∧
    path = Path.join root (Utf8.encode src) ∧ files.HasFile before.length path ∧
    ∀ n other, before[n]? = some other → ¬ files.HasFile n (Path.join other (Utf8.encode src))

lemma locate?_eq_some_iff {files : Accesses} {roots : List Path} {src : Text} {path : Path} :
    locate? files roots src = some path ↔ FirstFile files roots src path := by
  rw [locate?, Accesses.firstFile?_eq_some_iff]
  constructor
  · rintro ⟨_, _, hr, hp, hb⟩
    obtain ⟨before, rest, rfl, rfl, hrest⟩ := List.map_eq_append_iff.mp hr
    obtain ⟨root, after, rfl, rfl, -⟩ := List.map_eq_cons_iff.mp hrest
    rw [List.length_map] at hp
    refine ⟨before, root, after, rfl, rfl, hp, fun n other ho => hb n _ ?_⟩
    rw [List.getElem?_map, ho]
    rfl
  · rintro ⟨before, root, after, rfl, rfl, hp, hb⟩
    refine ⟨before.map _, after.map _, by rw [List.map_append, List.map_cons], ?_, ?_⟩
    · rwa [List.length_map]
    · intro n other ho
      rw [List.getElem?_map] at ho
      obtain ⟨root, hroot, rfl⟩ := Option.map_eq_some_iff.mp ho
      exact hb n root hroot

/-- In files that stay as they are it is the file from the first root with one. -/
lemma firstFile_still_iff {tree : FileTree} {roots : List Path} {src : Text} {path : Path} :
    FirstFile tree roots src path ↔ ∃ before root after, roots = before ++ root :: after ∧
      path = Path.join root (Utf8.encode src) ∧ tree.HasFile path ∧
      ∀ other ∈ before, ¬ tree.HasFile (Path.join other (Utf8.encode src)) := by
  simp only [FirstFile, Accesses.hasFile_still_iff, List.mem_iff_getElem?, forall_exists_index]
  constructor
  · rintro ⟨before, root, after, hr, hp, hf, hb⟩
    exact ⟨before, root, after, hr, hp, hf, fun other n ho => hb n other ho⟩
  · rintro ⟨before, root, after, hr, hp, hf, hb⟩
    exact ⟨before, root, after, hr, hp, hf, fun n other ho => hb other n ho⟩

/-! ### The image behind a comment -/

variable {settings : Settings} {files : Accesses} {cache : AddressCache} {roots : List Path}

/-- The size at which a presenter draws the image in the file at a path. -/
def Settings.drawnSize (settings : Settings) (files : Accesses) (path : Path) (bounds : Bounds) :
    Size :=
  Drawing.drawnSize (files.imageSize? path) (some bounds) settings.defaultEdge
    settings.allowUpscale

lemma Settings.isPositive_drawnSize (settings : Settings) (files : Accesses) (path : Path)
    (bounds : Bounds) : (settings.drawnSize files path bounds).isPositive = true :=
  Drawing.isPositive_drawnSize _ _ _ _

lemma blockFor_toOption_eq_some_iff {path : Path} {bounds : Bounds} {block : Text}
    {cache' : AddressCache} :
    (blockFor settings files cache path bounds).toOption = some (block, cache') ↔
      ∃ uri, cache.address files path settings.inlineThreshold = .ok (uri, cache') ∧
        block = imageBlock uri (settings.drawnSize files path bounds) := by
  rw [blockFor]
  cases h : cache.address files path settings.inlineThreshold with
  | error e => simp [Except.map, Except.toOption]
  | ok answer =>
      obtain ⟨uri, new⟩ := answer
      constructor
      · intro hb
        cases hb
        exact ⟨uri, rfl, rfl⟩
      · rintro ⟨uri', hu, rfl⟩
        cases hu
        rfl

/-- There is an image exactly if one is asked for, there is a file for it, and the first such file
has an address. -/
lemma blockOf?_eq_some_iff {tag : Option ImageTag} {block : Text} {cache' : AddressCache} :
    blockOf? settings files cache roots tag = some (block, cache') ↔
      ∃ asked path uri, tag = some asked ∧ FirstFile files roots asked.src path ∧
        cache.address files path settings.inlineThreshold = .ok (uri, cache') ∧
        block = imageBlock uri (settings.drawnSize files path asked.bounds) := by
  simp only [blockOf?, Option.bind_eq_bind, Option.bind_eq_some_iff, locate?_eq_some_iff,
    blockFor_toOption_eq_some_iff]
  constructor
  · rintro ⟨asked, ht, path, hf, uri, ha, hb⟩
    exact ⟨asked, path, uri, ht, hf, ha, hb⟩
  · rintro ⟨asked, path, uri, ht, hf, ha, hb⟩
    exact ⟨asked, ht, path, hf, uri, ha, hb⟩

/-- There is no image exactly if none is asked for, there is no file for it, or something is wrong
with the first such file. -/
lemma blockOf?_eq_none_iff {tag : Option ImageTag} :
    blockOf? settings files cache roots tag = none ↔
      ∀ asked path, tag = some asked → FirstFile files roots asked.src path →
        ∃ cause, cache.Trouble files path settings.inlineThreshold cause := by
  constructor
  · intro h asked path ht hf
    cases ha : cache.address files path settings.inlineThreshold with
    | error e =>
        obtain ⟨cause, -, htrouble⟩ := AddressCache.address_eq_error_iff.mp ha
        exact ⟨cause, htrouble⟩
    | ok answer =>
        have := blockOf?_eq_some_iff.mpr ⟨asked, path, answer.1, ht, hf, ha, rfl⟩
        rw [h] at this
        cases this
  · intro h
    rw [Option.eq_none_iff_forall_ne_some]
    rintro ⟨block, cache'⟩ hb
    obtain ⟨asked, path, uri, ht, hf, ha, -⟩ := blockOf?_eq_some_iff.mp hb
    obtain ⟨cause, htrouble⟩ := h asked path ht hf
    cases ha.symm.trans (AddressCache.address_eq_error_iff.mpr ⟨cause, rfl, htrouble⟩)

/-! ### Presenting a comment -/

lemma Documentation.first?_eq_none_iff {docs : Documentation} :
    docs.first? = none ↔ docs.symbol = none ∧ docs.declaration = none ∧ docs.member = none := by
  rw [first?]
  cases docs.symbol <;> cases docs.declaration <;> cases docs.member <;> simp

variable {docs : Documentation} {comment : Text} {e : Extraction}

lemma canPresent_eq (hd : docs.first? = some comment) (he : extract comment = .ok e) :
    canPresent docs = .ok e.tag.isSome := by
  rw [canPresent, hd]
  simp only [hasImage, he]
  rfl

lemma plan_eq (hd : docs.first? = some comment) (he : extract comment = .ok e) :
    plan settings files cache roots docs =
      .ok (some ⟨e.sanitized, (blockOf? settings files cache roots e.tag).map Prod.fst,
        ((blockOf? settings files cache roots e.tag).map Prod.snd).getD cache⟩) := by
  rw [plan, hd]
  simp only [he, Except.map]
  cases blockOf? settings files cache roots e.tag with
  | none => rfl
  | some found => rfl

/-- The cache changes with a plan only as it does with one address. -/
lemma cache_of_plan {p : Plan} (h : plan settings files cache roots docs = .ok (some p)) :
    p.cache = cache ∨ ∃ path uri,
      cache.address files path settings.inlineThreshold = .ok (uri, p.cache) := by
  cases hd : docs.first? with
  | none =>
      rw [plan, hd] at h
      cases h
  | some comment =>
      cases he : extract comment with
      | error error =>
          rw [plan, hd] at h
          simp only [he, Except.map] at h
          cases h
      | ok e =>
          rw [plan_eq hd he] at h
          obtain rfl := Option.some.inj (Except.ok.inj h)
          cases hb : blockOf? settings files cache roots e.tag with
          | none => exact .inl rfl
          | some found =>
              obtain ⟨-, path, uri, -, -, ha, -⟩ := blockOf?_eq_some_iff.mp hb
              exact .inr ⟨path, uri, ha⟩

lemma present_eq_of_plan {m : Type → Type u} [Monad m] [LawfulMonad m] {render : Text → m Text}
    {p : Plan} (h : plan settings files cache roots docs = .ok (some p)) :
    present settings files cache roots docs render = .ok (do
      let html ← render p.fragment
      return (some (html ++ p.block.getD []), p.cache)) := by
  simp [present, h, Except.map, Plan.carryOut]

/-- **What is wrong with an image never costs the comment.** Others may change the files between any
two accesses to them, and each access may fail. Nothing is presented and nothing is rendered exactly
if there is no comment. Otherwise the renderer is called once, on what extraction leaves of the
first comment. Either one image stands behind what it renders, an element of its own, namely if an
image is asked for and the first file for it has an address, and the cache has gained at most that
address; or nothing stands behind it and the cache is as it was, namely if no image is asked for,
there is no file for it, or something is wrong with the first one: its place is not found, it has
vanished from there, or it cannot be read. -/
theorem present_rendered_once {m : Type → Type u} [Monad m] [LawfulMonad m] (settings : Settings)
    (files : Accesses) (cache : AddressCache) (roots : List Path) (docs : Documentation)
    (render : Text → m Text)
    (hm : ∀ comment, docs.first? = some comment → comment.head? ≠ some byteOrderMark) :
    (docs.first? = none ↔ docs.symbol = none ∧ docs.declaration = none ∧ docs.member = none) ∧
      (docs.first? = none →
        present settings files cache roots docs render = .ok (pure (none, cache))) ∧
      ∀ comment, docs.first? = some comment →
        ∃ (e : Extraction) (block : Option Text) (cache' : AddressCache),
        extract comment = .ok e ∧ (e.tag = none → e.sanitized = comment) ∧
        canPresent docs = .ok e.tag.isSome ∧
        present settings files cache roots docs render = .ok (do
          let html ← render e.sanitized
          return (some (html ++ block.getD []), cache')) ∧
        ((∃ asked path uri shown, e.tag = some asked ∧ FirstFile files roots asked.src path ∧
            cache.address files path settings.inlineThreshold = .ok (uri, cache') ∧
            block = some shown ∧ shown ≠ [] ∧
            shown = imageBlock uri (settings.drawnSize files path asked.bounds) ∧
            IsImage shown (quoteSafe uri) (settings.drawnSize files path asked.bounds) ∧
            cache.Gains cache') ∨
          (∀ asked path, e.tag = some asked → FirstFile files roots asked.src path →
            ∃ cause, cache.address files path settings.inlineThreshold = .error (.file cause) ∧
              cache.Trouble files path settings.inlineThreshold cause) ∧
            block = none ∧ cache' = cache) ∧
        (canPresent docs = .ok false → e.sanitized = comment ∧ block = none ∧ cache' = cache) := by
  refine ⟨Documentation.first?_eq_none_iff, fun hd => ?_, fun comment hd => ?_⟩
  · rw [present, plan, hd]
    rfl
  obtain ⟨e, he, hs⟩ := exists_extract_eq_ok (hm comment hd)
  have hcan := canPresent_eq hd he
  refine ⟨e, _, _, he, hs, hcan, present_eq_of_plan (plan_eq hd he), ?_, fun hf => ?_⟩
  · cases hb : blockOf? settings files cache roots e.tag with
    | none =>
        refine .inr ⟨fun asked path ht hf => ?_, rfl, rfl⟩
        obtain ⟨cause, htrouble⟩ := blockOf?_eq_none_iff.mp hb asked path ht hf
        exact ⟨cause, AddressCache.address_eq_error_iff.mpr ⟨cause, rfl, htrouble⟩, htrouble⟩
    | some found =>
        obtain ⟨block, cache'⟩ := found
        obtain ⟨asked, path, uri, ht, hf, ha, rfl⟩ := blockOf?_eq_some_iff.mp hb
        have himage := isImage_imageBlock uri
          (settings.isPositive_drawnSize files path asked.bounds)
        exact .inl ⟨asked, path, uri, _, ht, hf, ha, rfl, himage.ne_nil, rfl, himage,
          AddressCache.gains_of_address ha⟩
  · have ht : e.tag = none := by
      rw [hcan] at hf
      simpa using hf
    have hb : blockOf? settings files cache roots e.tag = none := by
      rw [ht]
      rfl
    rw [hb]
    exact ⟨hs ht, rfl, rfl⟩

/-- A tree with one file below its root, which perhaps cannot be read. -/
def loneFile (readable : Bool) : FileTree :=
  { root := .directory [([0x61], .file [1, 2] .epoch readable)] .epoch }

/-- Accesses to a file that is seen and opened and then cannot be read, is gone when its place is
looked for, has gone from its place, or meets a failure when it is read. -/
def troubledFiles : List Accesses :=
  [.still (loneFile false), { Accesses.still (loneFile true) with found := .ok {} },
    { Accesses.still (loneFile true) with inspected := .ok {} },
    { Accesses.still (loneFile true) with read := .error .permissionDenied }]

lemma canonicalize_loneFile (readable : Bool) :
    (loneFile readable).canonicalize [Path.slash, 0x61] =
      .ok ([[0x61]], .file [1, 2] .epoch readable) := by
  cbv

/-- The file is seen, whether it can be read or not. -/
lemma firstFile_loneFile {files : Accesses} {readable : Bool}
    (h : files.candidates 0 = .ok (loneFile readable)) :
    FirstFile files [[Path.slash]] ['a'] [Path.slash, 0x61] :=
  ⟨[], [Path.slash], [], rfl, by cbv, ⟨_, h, [1, 2], .epoch, readable, by cbv⟩, nofun⟩

/-- None of these files has an address, but all of them are seen. -/
lemma exists_error_of_mem_troubledFiles : ∀ files ∈ troubledFiles,
    FirstFile files [[Path.slash]] ['a'] [Path.slash, 0x61] ∧
      ∃ e, AddressCache.address {} files [Path.slash, 0x61] defaultThreshold = .error e := by
  simp only [troubledFiles, List.forall_mem_cons, List.not_mem_nil, false_imp_iff, implies_true,
    and_true]
  exact ⟨⟨firstFile_loneFile rfl, .file .permissionDenied, by cbv⟩,
    ⟨firstFile_loneFile rfl, .file .notFound, by cbv⟩,
    ⟨firstFile_loneFile rfl, .file .notFound, by cbv⟩,
    ⟨firstFile_loneFile rfl, .file .permissionDenied, by cbv⟩⟩

/-- A comment with an image for which there is a file: the renderer is called once, without it. The
image stands behind what it renders if the file can be read, and otherwise nothing. -/
theorem present_rendered_once_beside_file :
    let shown (files : Accesses) := present (m := StateM (List Text)) {} files {} [[Path.slash]]
      { member := some "<summary>x<img src='a'/></summary>".toList }
      (fun fragment calls => (fragment, calls ++ [fragment]))
    "<summary>x<img src='a'/></summary>".toList.head? ≠ some byteOrderMark ∧
      (∃ cache' size, shown (loneFile true) = .ok fun calls =>
        ((some ("<summary>x</summary>".toList ++
          imageBlock (dataUri (.ofPath [Path.slash, 0x61]) [1, 2]) size), cache'),
          calls ++ ["<summary>x</summary>".toList])) ∧
      ∀ files ∈ troubledFiles, FirstFile files [[Path.slash]] ['a'] [Path.slash, 0x61] ∧
        shown files = .ok fun calls =>
          ((some "<summary>x</summary>".toList, {}), calls ++ ["<summary>x</summary>".toList]) := by
  intro shown
  have hx : extract "<summary>x<img src='a'/></summary>".toList =
      .ok ⟨some ⟨['a'], {}⟩, "<summary>x</summary>".toList⟩ := by cbv
  have hrendered := fun files => present_rendered_once (m := StateM (List Text)) {} files {}
    [[Path.slash]] { member := some "<summary>x<img src='a'/></summary>".toList }
    (fun fragment calls => (fragment, calls ++ [fragment])) (by rintro comment ⟨⟩; decide)
  have hpath : ∀ {files : Accesses} {path}, FirstFile files [[Path.slash]] ['a'] path →
      path = [Path.slash, 0x61] := by
    rintro files path ⟨before, root, after, hroots, rfl, -⟩
    have hroot : root ∈ [[Path.slash]] := hroots ▸ List.mem_append_right _ List.mem_cons_self
    obtain rfl := List.mem_singleton.mp hroot
    cbv
  refine ⟨by decide, ?_, fun files hfiles => ?_⟩
  · have ha : AddressCache.address {} (loneFile true) [Path.slash, 0x61] defaultThreshold =
        .ok (_, _) :=
      AddressCache.address_still_of_get?_eq_none (canonicalize_loneFile true) rfl
    obtain ⟨-, -, h⟩ := hrendered (loneFile true)
    obtain ⟨e, block, cache', he, -, -, hr, hb, -⟩ := h _ rfl
    obtain rfl := Except.ok.inj (hx.symm.trans he)
    obtain ⟨asked, path, uri, block, ⟨⟩, hf, ha', rfl, -, rfl, -⟩ | ⟨hn, -⟩ := hb
    · obtain rfl := hpath hf
      obtain ⟨rfl, -⟩ := Prod.mk.inj (Except.ok.inj (ha.symm.trans ha'))
      exact ⟨_, _, hr⟩
    · obtain ⟨error, he, -⟩ := hn _ _ rfl (firstFile_loneFile rfl)
      cases he.symm.trans ha
  · obtain ⟨hfirst, error, herror⟩ := exists_error_of_mem_troubledFiles files hfiles
    refine ⟨hfirst, ?_⟩
    obtain ⟨-, -, h⟩ := hrendered files
    obtain ⟨e, block, cache', he, -, -, hr, hb, -⟩ := h _ rfl
    obtain rfl := Except.ok.inj (hx.symm.trans he)
    obtain ⟨asked, path, uri, block, ⟨⟩, hf, ha, -⟩ | ⟨-, rfl, rfl⟩ := hb
    · obtain rfl := hpath hf
      cases herror.symm.trans ha
    · exact hr

end DocImage
