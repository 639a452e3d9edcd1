import Inlay.Json.Record

/-!
The options of an inlining run, their defaults, and reading them from JSON.
-/

namespace Inlay

structure Options where
  /-- Root of all addresses when `relative` is off. -/
  base : Text := "./".toList
  /-- Addresses are relative to the directory of the source. -/
  relative : Bool := false
  /-- Further directories for imports, in order. -/
  includePaths : List Text := []
  /-- Style sheets are minified and template comments dropped. -/
  compress : Bool := false
  /-- Style sheets are left alone. -/
  templatesOnly : Bool := false
  /-- The program that compiles LESS. -/
  lessCommand : Text := "lessc".toList
  deriving DecidableEq, Repr

namespace Options

/-- Puts the defaults where texts were left empty. -/
def normalized (o : Options) : Options :=
  { o with
    base := if o.base = [] then "./".toList else o.base
    lessCommand := if o.lessCommand = [] then "lessc".toList else o.lessCommand }

def record : Json.Record Options where
  name := "InlineOptions".toList
  fields := [
    ⟨"base".toList, .text, fun v o => { o with base := v }⟩,
    ⟨"relative".toList, .boolean, fun v o => { o with relative := v }⟩,
    ⟨"include_paths".toList, .textList, fun v o => { o with includePaths := v }⟩,
    ⟨"compress".toList, .boolean, fun v o => { o with compress := v }⟩,
    ⟨"parse_only_template".toList, .boolean, fun v o => { o with templatesOnly := v }⟩,
    ⟨"less_command".toList, .text, fun v o => { o with lessCommand := v }⟩]
  mayEndEarly := true

/-- Reads options from JSON by the library's own reader. What is left out keeps
its default. -/
def ofJson (t : Text) : Except Json.Complaint Options := Json.parse (record.read {}) t

end Options

end Inlay
