import DocImage.Image.Probe
import DocImage.ImageTag.Extract
import DocImage.Presentation.Settings

/-!
Presenting a comment with its image. The image is an element whose address stands in single quotes,
so a single quote in it is percent-coded (`imageBlock`). `plan` works out all that does not depend
on the host: the text for the host's renderer, the image element to put behind what it renders, and
the cache after that. `present` lets the host render and puts the two together. Whatever is wrong
with an image, the comment is still rendered, only without it; there is nothing to present only if
there is no comment at all.
-/

namespace DocImage

universe u

/-- An address with its single quotes percent-coded. -/
def quoteSafe (uri : Text) : Text :=
  uri.flatMap fun c => if c = '\'' then ['%', '2', '7'] else [c]

/-- The element for an image with the given address and size. -/
def imageBlock (uri : Text) (size : Size) : Text :=
  "<img src='".toList ++ quoteSafe uri ++ "' width='".toList ++ Numeral.write size.width ++
    "' height='".toList ++ Numeral.write size.height ++ "'/>".toList

/-- What is to be done for a comment. -/
structure Plan where
  /-- The comment for the host's renderer. -/
  fragment : Text
  /-- The image element behind it. -/
  block : Option Text
  /-- The addresses remembered after that. -/
  cache : AddressCache

/-- Whether the first comment of a symbol asks for an image. -/
def canPresent (docs : Documentation) : Except CutError Bool :=
  match docs.first? with
  | some comment => hasImage comment
  | none => .ok false

/-- The element for the image at a path, and the cache after building its address. -/
def blockFor (settings : Settings) (files : Accesses) (cache : AddressCache) (path : Path)
    (bounds : Bounds) : Except AddressError (Text × AddressCache) :=
  let size :=
    Drawing.drawnSize (files.imageSize? path) (some bounds) settings.defaultEdge
      settings.allowUpscale
  (cache.address files path settings.inlineThreshold).map fun (uri, cache) =>
    (imageBlock uri size, cache)

/-- The element for the image that a comment asks for, if there is such a file and it has an
address. -/
def blockOf? (settings : Settings) (files : Accesses) (cache : AddressCache) (roots : List Path)
    (tag : Option ImageTag) : Option (Text × AddressCache) := do
  let tag ← tag
  let path ← locate? files roots tag.src
  (blockFor settings files cache path tag.bounds).toOption

/-- What is to be done for the first comment of a symbol; nothing if it has none. -/
def plan (settings : Settings) (files : Accesses) (cache : AddressCache) (roots : List Path)
    (docs : Documentation) : Except CutError (Option Plan) :=
  match docs.first? with
  | none => .ok none
  | some comment => (extract comment).map fun e =>
    match blockOf? settings files cache roots e.tag with
    | some (block, cache) => some ⟨e.sanitized, some block, cache⟩
    | none => some ⟨e.sanitized, none, cache⟩

/-- Carries a plan out: the comment rendered by the host, and the image element behind it. -/
def Plan.carryOut {m : Type → Type u} [Monad m] (plan : Plan) (render : Text → m Text) :
    m Text := do
  let rendered ← render plan.fragment
  return rendered ++ plan.block.getD []

/-- Presents the first comment of a symbol, and gives the cache after that. -/
def present {m : Type → Type u} [Monad m] (settings : Settings) (files : Accesses)
    (cache : AddressCache) (roots : List Path) (docs : Documentation) (render : Text → m Text) :
    Except CutError (m (Option Text × AddressCache)) :=
  (plan settings files cache roots docs).map fun
    | none => pure (none, cache)
    | some plan => do return (some (← plan.carryOut render), plan.cache)

/-- Presents the first comment of a symbol to a receiver. Gives whether there was anything to
receive, and the cache after that. -/
def presentTo {m : Type → Type u} [Monad m] (settings : Settings) (files : Accesses)
    (cache : AddressCache) (roots : List Path) (docs : Documentation) (render : Text → m Text)
    (receive : Text → m Unit) : Except CutError (m (Bool × AddressCache)) :=
  (present settings files cache roots docs render).map fun presented => do
    match ← presented with
    | (some html, cache) => receive html; return (true, cache)
    | (none, cache) => return (false, cache)

end DocImage
