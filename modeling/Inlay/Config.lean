import Inlay.Options
import Inlay.Toml

/-!
Configuration files. A file sets some of the options and leaves the others
unset; in JSON a null leaves an option unset too.
-/

namespace Inlay

structure Config where
  base : Option Text := none
  relative : Option Bool := none
  includePaths : Option (List Text) := none
  compress : Option Bool := none
  templatesOnly : Option Bool := none
  lessCommand : Option Text := none
  deriving DecidableEq, Repr

namespace Config

def toOptions (c : Config) : Options :=
  let d : Options := {}
  { base := c.base.getD d.base
    relative := c.relative.getD d.relative
    includePaths := c.includePaths.getD d.includePaths
    compress := c.compress.getD d.compress
    templatesOnly := c.templatesOnly.getD d.templatesOnly
    lessCommand := c.lessCommand.getD d.lessCommand }

def record : Json.Record Config where
  name := "ConfigFile".toList
  fields := [
    ⟨"base".toList, .optional .text, fun v c => { c with base := v }⟩,
    ⟨"relative".toList, .optional .boolean, fun v c => { c with relative := v }⟩,
    ⟨"include_paths".toList, .optional .textList, fun v c => { c with includePaths := v }⟩,
    ⟨"compress".toList, .optional .boolean, fun v c => { c with compress := v }⟩,
    ⟨"parse_only_template".toList, .optional .boolean, fun v c => { c with templatesOnly := v }⟩,
    ⟨"less_command".toList, .optional .text, fun v c => { c with lessCommand := v }⟩]
  mayEndEarly := false

/-- Reads a configuration from JSON by the library's own reader. -/
def ofJson (t : Text) : Except Json.Complaint Config := Json.parse (record.read {}) t

/-! ### The TOML form -/

/-- The setting of a key, read by `read`: unset when the key is missing, and
a failure when the value is of another kind. -/
def setting (table : Toml.Table) (key : String) (read : Toml.Value → Option α) :
    Option (Option α) :=
  match table.find? key.toList with
  | none => some none
  | some value => (read value).map some

def asText : Toml.Value → Option Text
  | .text t => some t
  | _ => none

def asBoolean : Toml.Value → Option Bool
  | .boolean b => some b
  | _ => none

def asTexts : Toml.Value → Option (List Text)
  | .list members => members.mapM asText
  | _ => none

def ofToml? (t : Text) : Option Config := do
  let table ← Toml.parse? t
  some {
    base := ← setting table "base" asText
    relative := ← setting table "relative" asBoolean
    includePaths := ← setting table "include_paths" asTexts
    compress := ← setting table "compress" asBoolean
    templatesOnly := ← setting table "parse_only_template" asBoolean
    lessCommand := ← setting table "less_command" asText }

/-! ### Files -/

inductive Refusal where
  | json (complaint : Json.Complaint)
  | toml
  | unknownFormat
  deriving DecidableEq, Repr

structure Formats where
  json : Text → Except Json.Complaint Config
  toml? : Text → Option Config

/-- Reads a configuration file by the suffix of its path. -/
def Formats.parse (formats : Formats) (path content : Text) : Except Refusal Config :=
  if Text.endsWith ".json".toList path then (formats.json content).mapError .json
  else if Text.endsWith ".toml".toList path then
    match formats.toml? content with
    | some c => .ok c
    | none => .error .toml
  else .error .unknownFormat

end Config

end Inlay
