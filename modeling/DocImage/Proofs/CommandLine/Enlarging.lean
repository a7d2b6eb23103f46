import Mathlib.Tactic
import DocImage.Proofs.CommandLine.Flags
import DocImage.Proofs.CommandLine.Rendering

/-!
Whether enlarging is allowed makes no difference to anything that is shown. A run of the render
command prints the same with the flag for it and without (`Command.run_withUpscale`), and for
comments that differ only in the attribute for it (`runRender_withUpscale`).
`enlarging_never_matters` puts this together with what holds of sizes and of what is presented.
-/

namespace DocImage

open Markup

universe u

namespace CommandLine

variable {tree : FileTree}

/-- Comments that differ only in the flag for enlarging are printed alike. -/
lemma runRender_withUpscale {comment comment' : Path} {text text' : Text}
    (h : readText tree comment = .ok text) (h' : readText tree comment' = .ok text')
    (hsame : SameButUpscale text text') (root : Path) (settings : Settings) (allow : Bool) :
    runRender tree comment' root (settings.withUpscale allow) =
      runRender tree comment root settings := by
  have hfirst : Option.Rel SameButUpscale (Documentation.first? { symbol := some text })
      (Documentation.first? { symbol := some text' }) := .some hsame
  have hpresent := present_withUpscale settings tree {} (rootsBelow root settings.assetDirectory)
    hfirst allow (m := Id) preformatted
  have hroots : rootsBelow root (settings.withUpscale allow).assetDirectory =
      rootsBelow root settings.assetDirectory := rfl
  rw [runRender, runRender, h, h']
  simp only [hroots, hpresent]

/-- A command does the same with another flag for enlarging. -/
lemma Command.run_withUpscale (allow : Bool) (command : Command) :
    (command.withUpscale allow).run tree = command.run tree := by
  cases command with
  | probe files asJson => rfl
  | render comment root settings =>
      cases hr : readText tree comment with
      | error e =>
          rw [Command.withUpscale, run, run, runRender_of_error hr, runRender_of_error hr]
      | ok text => exact runRender_withUpscale hr hr (.refl text) root settings allow

/-- The flag for enlarging makes no difference wherever it stands among the arguments. -/
lemma run_insert_upscaleFlag {before after : List Bytes} {command command' : Command}
    (h : read (word "render" :: (before ++ after)) = .ok command)
    (h' : read (word "render" :: (before ++ upscaleFlag :: after)) = .ok command') :
    run tree (word "render" :: (before ++ upscaleFlag :: after)) =
      run tree (word "render" :: (before ++ after)) := by
  have hsame : command.withUpscale true = command'.withUpscale true := by
    rw [read_render] at h h'
    exact readRender_insert_upscaleFlag h h'
  simp only [run, h, h']
  rw [← command'.run_withUpscale true, ← hsame, command.run_withUpscale]

end CommandLine

open CommandLine

/-- **Whether enlarging is allowed never matters.** Any image is drawn in the same size whatever the
settings and the bounds say of it, and one of unknown size that would be a square of no pixels is
drawn as one pixel. So what is presented does not depend on the settings for it, and is the same for
comments that ask for the same image within the same bounds; and a run of the render command prints
the same with the flag and without, wherever among the arguments that is accepted, and for such
comments. Comments are such if they differ only in the images of their summaries, and the first of
these only in the attribute for enlarging. -/
theorem enlarging_never_matters {m : Type → Type u} [Monad m] :
    (∀ (intrinsic : Option Size) (bounds : Option Bounds) (defaultEdge : Nat)
      (allow allowUpscale allowUpscale' : Bool),
      Drawing.drawnSize intrinsic (bounds.map (·.withUpscale allow)) defaultEdge allowUpscale =
        Drawing.drawnSize intrinsic bounds defaultEdge allowUpscale') ∧
    (∀ (bounds : Option Bounds) (allowUpscale : Bool),
      Drawing.drawnSize none bounds 0 allowUpscale = ⟨1, 1⟩) ∧
    (∀ (settings : Settings) (files : Accesses) (cache : AddressCache) (roots : List Path)
      (docs docs' : Documentation) (render : Text → m Text) (allow : Bool),
      Option.Rel SameButUpscale docs.first? docs'.first? →
      present (settings.withUpscale allow) files cache roots docs' render =
        present settings files cache roots docs render) ∧
    (∀ (tree : FileTree) (before after : List Bytes) (command command' : Command),
      read (word "render" :: (before ++ after)) = .ok command →
      read (word "render" :: (before ++ upscaleFlag :: after)) = .ok command' →
      run tree (word "render" :: (before ++ upscaleFlag :: after)) =
        run tree (word "render" :: (before ++ after))) ∧
    (∀ (tree : FileTree) (args args' : List Bytes) (comment comment' root : Path)
      (settings : Settings) (allow : Bool) (text text' : Text),
      read args = .ok (.render comment root settings) →
      read args' = .ok (.render comment' root (settings.withUpscale allow)) →
      tree.read comment = .ok (Utf8.encode text) → tree.read comment' = .ok (Utf8.encode text') →
      SameButUpscale text text' → run tree args' = run tree args) ∧
    ∀ (F F' : Forest) (tag tag' : ElementTag), F.write.head? ≠ some byteOrderMark →
      F'.write.head? ≠ some byteOrderMark → F.summaryImage? = some tag →
      F'.summaryImage? = some tag' → (ImageTag.ofAttributes? tag.attributes).isSome = true →
      ImageTag.AgreeButUpscale tag.attributes tag'.attributes →
      F.withoutSummaryImages.write = F'.withoutSummaryImages.write →
      SameButUpscale F.write F'.write := by
  refine ⟨Drawing.drawnSize_withUpscale, fun bounds => Drawing.drawnSize_of_empty rfl bounds,
    fun settings files cache roots docs docs' render allow h =>
      present_withUpscale settings files cache roots h allow render,
    fun tree before after command command' => run_insert_upscaleFlag, ?_,
    fun F F' tag tag' => sameButUpscale_write⟩
  intro tree args args' comment comment' root settings allow text text' h h' hread hread' hsame
  simp only [run, h, h']
  exact runRender_withUpscale (readText_eq_ok_iff.mpr hread) (readText_eq_ok_iff.mpr hread') hsame
    root settings allow

/-- Two comments that differ in the attribute for enlarging, and a file for their image. -/
def twoComments : FileTree :=
  { root := .directory
      [(word "c", .file (word "<summary><img src='a'/></summary>") .epoch),
        (word "d", .file (word "<summary><img upscale='true' src='a'/></summary>") .epoch),
        (word "a", .file [0x3C] .epoch)] .epoch }

/-- The two comments are presented and printed alike, one of them with the flag as well. -/
theorem enlarging_never_matters_attribute :
    let text := "<summary><img src='a'/></summary>".toList
    let text' := "<summary><img upscale='true' src='a'/></summary>".toList
    let args := [word "render", word "--root=/", word "/c"]
    let args' := [word "render", word "--root=/", upscaleFlag, word "/c"]
    let args'' := [word "render", word "--root=/", upscaleFlag, word "/d"]
    SameButUpscale text text' ∧
      present (m := Id) { allowUpscale := true } twoComments {} [[Path.slash]]
          { symbol := some text' } pure =
        present (m := Id) {} twoComments {} [[Path.slash]] { symbol := some text } pure ∧
      (read args).toOption.isSome = true ∧ (read args').toOption.isSome = true ∧
      run twoComments args' = run twoComments args ∧
      run twoComments args'' = run twoComments args := by
  intro text text' args args' args''
  let src : QuotedAttribute :=
    ⟨.ofText ['s', 'r', 'c'] (by decide), ['a'], '\'', rfl, by decide⟩
  let upscale : QuotedAttribute :=
    ⟨.ofText ImageTag.upscaleName (by decide), ['t', 'r', 'u', 'e'], '\'', rfl, by decide⟩
  let image (quoted : List QuotedAttribute) (h : (quoted.map fun a => a.name.text).Nodup) :
      ElementTag := ⟨.ofText Summary.imageName (by decide), quoted, h⟩
  let within (tag : ElementTag) : Forest :=
    .element ⟨.ofText Summary.summaryName (by decide), [], List.nodup_nil⟩ (.empty tag .nil) .nil
  obtain ⟨-, -, hpresent, hflag, hrun, hforest⟩ := enlarging_never_matters (m := Id)
  have hasks : (ImageTag.ofAttributes? [⟨['s', 'r', 'c'], ['a']⟩]).isSome = true := by cbv
  let F := within (image [src] (by decide))
  let F' := within (image [upscale, src] (by decide))
  have htext : F.write = text := rfl
  have htext' : F'.write = text' := rfl
  have hsame : SameButUpscale F.write F'.write :=
    hforest F F' _ _ (by rw [htext]; decide) (by rw [htext']; decide) rfl rfl hasks rfl rfl
  rw [htext, htext'] at hsame
  have hread : read args = .ok (.render (word "/c") (word "/") { targetType := none }) := by
    rw [read_render]
    rfl
  have hread' : read args' =
      .ok (.render (word "/c") (word "/") { allowUpscale := true, targetType := none }) := by
    rw [read_render]
    rfl
  have hread'' : read args'' =
      .ok (.render (word "/d") (word "/") { allowUpscale := true, targetType := none }) := by
    rw [read_render]
    rfl
  have htree : twoComments.read (word "/c") =
      .ok (Utf8.encode "<summary><img src='a'/></summary>".toList) := by cbv
  have htree' : twoComments.read (word "/d") =
      .ok (Utf8.encode "<summary><img upscale='true' src='a'/></summary>".toList) := by cbv
  refine ⟨hsame, hpresent {} _ _ _ { symbol := some text } { symbol := some text' } _ true
    (.some hsame), by rw [hread]; rfl, by rw [hread']; rfl,
    hflag _ [word "--root=/"] [word "/c"] _ _ hread hread',
    hrun _ _ _ _ _ _ _ true text text' hread hread'' htree htree' hsame⟩

end DocImage
