import DocImage.Files.Path
import DocImage.Drawing.DrawnSize
import DocImage.Address.Cache

/-!
What a presenter is told: its settings, the symbol under the cursor, the comments that belong
to it, and the directories that image addresses are relative to.
-/

namespace DocImage

/-- The directory below a root that is searched for images, unless settings say otherwise. -/
def defaultAssetDirectory : Text := "Assets".toList

/-- The type whose constants carry images, unless settings say otherwise. -/
def defaultTargetType : Text := "EditorIcons".toList

/-- The settings of a presenter. -/
structure Settings where
  /-- The edge of the square that stands for an image of unknown size. -/
  defaultEdge : Nat := Drawing.defaultEdge
  allowUpscale : Bool := false
  /-- The largest file that is inlined, in bytes. -/
  inlineThreshold : Nat := defaultThreshold
  assetDirectory : Text := defaultAssetDirectory
  /-- The type whose string constants are presented; `none` for every symbol. -/
  targetType : Option Text := some defaultTargetType

/-- What is known of a symbol. -/
structure SymbolInfo where
  name : Text := []
  isConstant : Bool := false
  isString : Bool := false
  /-- The short name of the type that declares the symbol. -/
  containingType : Option Text := none

/-- Whether a presenter takes on a symbol. -/
def Settings.accepts (settings : Settings) (symbol : SymbolInfo) : Bool :=
  match settings.targetType with
  | none => true
  | some type => symbol.isConstant && symbol.isString && symbol.containingType == some type

/-- The comments of a symbol: its own, that of its declaration, and that of the member that
holds it. -/
structure Documentation where
  symbol : Option Text := none
  declaration : Option Text := none
  member : Option Text := none

/-- The first comment there is, an empty one included. -/
def Documentation.first? (docs : Documentation) : Option Text :=
  docs.symbol <|> docs.declaration <|> docs.member

/-- The directories in which images are searched: a root, then the asset directory seen from
it. -/
def rootsBelow (root : Path) (assetDirectory : Text) : List Path :=
  [root, Path.join root (Utf8.encode assetDirectory)]

/-- The first file that an address leads to from one of some directories. -/
def locate? (files : Accesses) (roots : List Path) (src : Text) : Option Path :=
  files.firstFile? (roots.map fun root => Path.join root (Utf8.encode src))

end DocImage
