import Inlay.Annotation.Report
import Inlay.CommandLine.Sources
import Inlay.Json.Pretty

/-!
What the scan command prints: the annotations of some sources, for people or
as JSON.
-/

namespace Inlay.CommandLine

structure FileReport where
  path : Text
  report : Report

def FileReport.scan (disk : Disk) (s : Source) : Except Error FileReport := do
  let content ← (disk.readText s.path).mapError fun fault => .notFound s.path (.disk fault)
  .ok ⟨s.path, ← Report.scan content⟩

namespace ScanReport

/-! ### As text -/

def padLeft (size : Nat) (t : Text) : Text := List.replicate (size - t.length) ' ' ++ t

def entryLine (e : Report.Entry) : Text :=
  "   ".toList ++ padLeft 4 (Text.decimal e.line) ++ [':', ' '] ++ e.kind.key ++ [' '] ++
    Text.join [',', ' '] e.urls ++ (if e.commentedOut then " (commented out)".toList else []) ++
    ['\n']

def fileLines (f : FileReport) : Text :=
  if f.report = [] then []
  else "🔍 ".toList ++ f.path ++ '\n' :: f.report.flatMap entryLine

def writeText (files : List FileReport) : Text :=
  let count := (files.flatMap (·.report)).length
  files.flatMap fileLines ++ "\n📊 Scan Summary:\n   Files scanned: ".toList ++
    Text.decimal files.length ++ "\n   Annotations: ".toList ++ Text.decimal count ++ ['\n']

/-! ### As JSON -/

def entryJson (e : Report.Entry) : Json.Pretty.Writer :=
  Json.Pretty.record [
    ("kind", fun _ => Json.Pretty.text e.kind.key),
    ("line", fun _ => Json.Pretty.number e.line),
    ("urls", Json.Pretty.list (e.urls.map fun url _ => Json.Pretty.text url)),
    ("commented_out", fun _ => Json.Pretty.boolean e.commentedOut)]

def fileJson (f : FileReport) : Json.Pretty.Writer :=
  Json.Pretty.record [
    ("path", fun _ => Json.Pretty.text f.path),
    ("annotations", Json.Pretty.list (f.report.map entryJson))]

def writeJson (files : List FileReport) : Text :=
  Json.Pretty.list (files.map fileJson) 0 ++ ['\n']

def write (format : Format) (files : List FileReport) : Text :=
  match format with
  | .text => writeText files
  | .json => writeJson files

end ScanReport

end Inlay.CommandLine
