import DocImage.Presentation.Settings
import DocImage.Text.Numeral

/-!
The arguments of the command line. They are read from left to right, and the first one that is
refused, or that asks for help or the version, decides; what is missing at the end is refused
then.
-/

namespace DocImage.CommandLine

/-- What the command line asks for. -/
inductive Command where
  /-- The sizes of some images. -/
  | probe (files : List Path) (asJson : Bool)
  /-- A comment, rendered with its image. -/
  | render (comment root : Path) (settings : Settings)

/-- Why the arguments do not lead to a command. -/
inductive Stop where
  | help
  | version
  | refused

/-- One argument by its form. -/
inductive Argument where
  /-- Two dashes, after which every argument is plain. -/
  | separator
  /-- A name behind two dashes, with what follows its equals sign. -/
  | long (name : Bytes) (value : Option Bytes)
  /-- A letter behind one dash, with what follows it. -/
  | short (letter : UInt8) (rest : Bytes)
  | plain (value : Bytes)

/-- The dash that begins an option. -/
def dash : UInt8 := 0x2D

/-- The sign between an option and its value. -/
def equals : UInt8 := 0x3D

/-- The form of an argument. A single dash is plain. -/
def Argument.ofBytes : Bytes → Argument
  | b :: c :: l =>
    if b ≠ dash then plain (b :: c :: l)
    else if c ≠ dash then short c l
    else if l = [] then separator
    else
      match l.dropWhile (· != equals) with
      | [] => long l none
      | _ :: value => long (l.takeWhile (· != equals)) (some value)
  | l => plain l

/-- A word as an argument. -/
def word (s : String) : Bytes :=
  Utf8.encode s.toList

/-- The letter `h`, which asks for help. -/
def helpLetter : UInt8 := 0x68

/-- The letter `V`, which asks for the version. -/
def versionLetter : UInt8 := 0x56

/-- The letter `r`, which gives the root. -/
def rootLetter : UInt8 := 0x72

/-! ### Probing -/

/-- The probe command with the plain arguments and the flag read so far, the last argument
first. -/
def endProbe (files : List Path) (asJson : Bool) : Except Stop Command :=
  if files = [] then .error .refused else .ok (.probe files.reverse asJson)

/-- Reads the arguments of the probe command; behind a separator all of them are plain. -/
def readProbe (files : List Path) (asJson separated : Bool) : List Bytes → Except Stop Command
  | [] => endProbe files asJson
  | arg :: args =>
    match if separated then .plain arg else Argument.ofBytes arg with
    | .separator => readProbe files asJson true args
    | .plain file =>
      if file = [] then .error .refused else readProbe (file :: files) asJson separated args
    | .short letter _ => .error (if letter = helpLetter then .help else .refused)
    | .long _ (some _) => .error .refused
    | .long name none =>
      if name = word "help" then .error .help
      else if name = word "json" ∧ asJson = false then readProbe files true separated args
      else .error .refused

/-! ### Rendering -/

/-- The arguments of the render command read so far. -/
structure RenderArguments where
  comment : Option Path := none
  root : Option Path := none
  threshold : Option Nat := none
  assetDirectory : Option Text := none
  upscale : Bool := false

/-- An option of the render command that has a value. -/
inductive RenderOption where
  | root
  | threshold
  | assetDirectory

namespace RenderOption

/-- The option with the given name. -/
def ofName? (name : Bytes) : Option RenderOption :=
  if name = word "root" then some root
  else if name = word "threshold" then some threshold
  else if name = word "asset-dir" then some assetDirectory
  else none

/-- A number of bytes that fits into 64 bits. -/
def readThreshold? (value : Bytes) : Option Nat :=
  (Utf8.decode? value).bind (Numeral.readNat? 0x10000000000000000)

/-- Takes in the value of an option that has none yet. -/
def set? (option : RenderOption) (a : RenderArguments) (value : Bytes) : Option RenderArguments :=
  match option with
  | root => if a.root.isNone ∧ value ≠ [] then some { a with root := some value } else none
  | threshold =>
    if a.threshold.isNone then (readThreshold? value).map fun n => { a with threshold := some n }
    else none
  | assetDirectory =>
    if a.assetDirectory.isNone then
      (Utf8.decode? value).map fun dir => { a with assetDirectory := some dir }
    else none

end RenderOption

/-- The value of an option in the argument behind it, which must be plain. -/
def plainValue? (arg : Bytes) : Option Bytes :=
  match Argument.ofBytes arg with
  | .plain value => some value
  | _ => none

/-- What follows a letter, without an equals sign at its beginning. -/
def attached : Bytes → Bytes
  | b :: l => if b = equals then l else b :: l
  | [] => []

/-- The command for the arguments read. -/
def RenderArguments.command (a : RenderArguments) : Except Stop Command :=
  match a.comment with
  | none => .error .refused
  | some comment =>
    .ok (.render comment (a.root.getD [Path.dot])
      { inlineThreshold := a.threshold.getD defaultThreshold
        assetDirectory := a.assetDirectory.getD defaultAssetDirectory
        allowUpscale := a.upscale
        targetType := none })

/-- Goes on with the arguments read, unless the last one was refused. -/
def proceed (next : RenderArguments → Except Stop Command) :
    Option RenderArguments → Except Stop Command
  | some a => next a
  | none => .error .refused

/-- Reads the arguments of the render command; behind a separator all of them are plain. -/
def readRender (a : RenderArguments) (separated : Bool) : List Bytes → Except Stop Command
  | [] => a.command
  | arg :: args =>
    match if separated then .plain arg else Argument.ofBytes arg with
    | .separator => readRender a true args
    | .plain comment =>
      if a.comment.isSome ∨ comment = [] then .error .refused
      else readRender { a with comment := some comment } separated args
    | .short letter rest =>
      if letter = helpLetter then .error .help
      else if letter ≠ rootLetter then .error .refused
      else if rest ≠ [] then
        proceed (readRender · separated args) (RenderOption.root.set? a (attached rest))
      else
        match args with
        | [] => .error .refused
        | value :: args =>
          proceed (readRender · separated args)
            ((plainValue? value).bind (RenderOption.root.set? a))
    | .long name value =>
      match RenderOption.ofName? name, value, args with
      | some option, some value, args => proceed (readRender · separated args) (option.set? a value)
      | some option, none, value :: args =>
        proceed (readRender · separated args) ((plainValue? value).bind (option.set? a))
      | some _, none, [] | none, some _, _ => .error .refused
      | none, none, args =>
        if name = word "help" then .error .help
        else if name = word "upscale" ∧ a.upscale = false then
          readRender { a with upscale := true } separated args
        else .error .refused

/-! ### The whole command line -/

/-- Whether some arguments ask for help on a command that exists, given from behind the word
for help. -/
def readHelp : List Bytes → Stop
  | [] => .help
  | [name] => if name ∈ [word "probe", word "render", word "help"] then .help else .refused
  | _ => .refused

/-- What the arguments ask for. -/
def read : List Bytes → Except Stop Command
  | [] => .error .refused
  | arg :: args =>
    match Argument.ofBytes arg with
    | .short letter _ =>
      .error <|
        if letter = helpLetter then .help
        else if letter = versionLetter then .version
        else .refused
    | .long name none =>
      .error <|
        if name = word "help" then .help
        else if name = word "version" then .version
        else .refused
    | .plain name =>
      if name = word "probe" then readProbe [] false false args
      else if name = word "render" then readRender {} false args
      else if name = word "help" then .error (readHelp args)
      else .error .refused
    | .separator | .long _ (some _) => .error .refused

end DocImage.CommandLine
