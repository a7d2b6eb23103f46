import DocImage.Image.Probe

/-!
Reports on the sizes of images, as lines of text or as JSON.
-/

namespace DocImage.CommandLine

/-- A file and the size of the image in it, if that can be told. -/
structure ProbeReport where
  path : Path
  size : Option Size

/-- A report as a line of text. -/
def ProbeReport.line (report : ProbeReport) : Text :=
  let size :=
    match report.size with
    | some size => Numeral.write size.width ++ 'x' :: Numeral.write size.height
    | none => "unknown".toList
  report.path.display ++ ": ".toList ++ size ++ ['\n']

namespace Json

/-- Four hexadecimal digits for a number below `2 ^ 16`. -/
def hex4 (n : Nat) : Text :=
  let digits := Nat.toDigits 16 n
  List.replicate (4 - digits.length) '0' ++ digits

/-- A character inside a quoted text. -/
def escapeChar (c : Char) : Text :=
  if c = '"' then ['\\', '"']
  else if c = '\\' then ['\\', '\\']
  else if c = '\n' then ['\\', 'n']
  else if c = '\r' then ['\\', 'r']
  else if c = '\t' then ['\\', 't']
  else if c = '\x08' then ['\\', 'b']
  else if c = '\x0c' then ['\\', 'f']
  else if c.toNat < 0x20 then '\\' :: 'u' :: hex4 c.toNat
  else [c]

/-- A quoted text. -/
def quote (s : Text) : Text :=
  '"' :: (s.flatMap escapeChar ++ ['"'])

/-- An edge, or that it is not known. -/
def edge : Option Nat → Text
  | some n => Numeral.write n
  | none => "null".toList

/-- A field of an object, on a line of its own. -/
def field (name : String) (value : Text) : Text :=
  "    ".toList ++ quote name.toList ++ ": ".toList ++ value

/-- A report as an object. -/
def object (report : ProbeReport) : Text :=
  let fields :=
    [field "path" (quote report.path.display),
      field "width" (edge (report.size.map Size.width)),
      field "height" (edge (report.size.map Size.height))]
  "  \x7b\n".toList ++ (fields.intersperse ",\n".toList).flatten ++ "\n  \x7d".toList

/-- Reports as an array, each object on lines of its own. -/
def array (reports : List ProbeReport) : Text :=
  "[\n".toList ++ ((reports.map object).intersperse ",\n".toList).flatten ++ "\n]\n".toList

end Json

/-- Some reports in one of the two forms. -/
def writeReports (asJson : Bool) (reports : List ProbeReport) : Text :=
  if asJson then Json.array reports else reports.flatMap ProbeReport.line

end DocImage.CommandLine
