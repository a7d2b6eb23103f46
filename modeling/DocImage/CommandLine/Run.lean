import DocImage.CommandLine.Arguments
import DocImage.CommandLine.Report
import DocImage.Markup.Reference
import DocImage.Presentation.Plan

/-!
What the command line prints. `probe` reports the sizes of images; `render` shows a comment as
it is written, with reserved characters as references, and puts its image behind it.
-/

namespace DocImage.CommandLine

/-- What a run of the program leaves behind. -/
structure Outcome where
  /-- `0` for success, `1` for a comment that cannot be read, `2` for refused arguments. -/
  code : Nat
  output : Text := []
  errors : Text := []

/-- The name and version of the program. -/
def versionLine : Text := "imgcomment 0.1.0\n".toList

/-- How the program is used. -/
def usage : Text :=
  "Images in documentation comments\n\n".toList ++
    "imgcomment probe [--json] FILE...\n".toList ++
    "imgcomment render [--root DIR] [--threshold BYTES] [--asset-dir DIR]\n".toList ++
    "                  [--upscale] COMMENT_XML\n".toList

/-- A line about an error. -/
def errorLine (message : Text) : Text :=
  "error: ".toList ++ message ++ ['\n']

/-- Shows a comment as it is written. -/
def preformatted (fragment : Text) : Text :=
  "<pre>".toList ++ Markup.escape fragment ++ "</pre>".toList

/-- The text in a file. -/
def readText (tree : FileTree) (path : Path) : Except FileError Text :=
  match tree.read path with
  | .error e => .error e
  | .ok contents =>
    match Utf8.decode? contents with
    | some text => .ok text
    | none => .error .notText

/-- Reports on the sizes of some images. -/
def runProbe (tree : FileTree) (files : List Path) (asJson : Bool) : Outcome :=
  ⟨0, writeReports asJson (files.map fun file => ⟨file, probePath tree file⟩), []⟩

/-- Renders a comment with its image. -/
def runRender (tree : FileTree) (comment root : Path) (settings : Settings) : Outcome :=
  match readText tree comment with
  | .error e => ⟨1, [], errorLine (comment.display ++ ": ".toList ++ e.message)⟩
  | .ok text =>
    let roots := rootsBelow root settings.assetDirectory
    match present (m := Id) settings tree {} roots { symbol := some text } preformatted with
    | .error _ => ⟨101, [], errorLine "the image cannot be cut out of the comment".toList⟩
    | .ok (none, _) => ⟨1, [], errorLine "comment is empty".toList⟩
    | .ok (some html, _) => ⟨0, html ++ ['\n'], []⟩

/-- The paths at which a command may look, as far as the files seen so far tell. -/
def Command.paths (tree : FileTree) : Command → List Path
  | probe files _ => files
  | render comment root settings =>
    let src? :=
      match (readText tree comment).map extract with
      | .ok (.ok e) => e.tag.map ImageTag.src
      | _ => none
    let candidates (src : Text) : List Path :=
      (rootsBelow root settings.assetDirectory).map fun root => Path.join root (Utf8.encode src)
    comment :: (src?.map candidates).getD []

/-- Runs a command. -/
def Command.run (tree : FileTree) : Command → Outcome
  | probe files asJson => runProbe tree files asJson
  | render comment root settings => runRender tree comment root settings

/-- Runs the program with some arguments. -/
def run (tree : FileTree) (args : List Bytes) : Outcome :=
  match read args with
  | .ok command => command.run tree
  | .error .help => ⟨0, usage, []⟩
  | .error .version => ⟨0, versionLine, []⟩
  | .error .refused => ⟨2, [], errorLine "the arguments are not understood".toList⟩

end DocImage.CommandLine
