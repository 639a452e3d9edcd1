import Inlay.Options
import Inlay.Path
import Inlay.Stylesheet.Dialect

/-!
What an address in a list of style sheets refers to: a file, a dialect, and a
name for messages and for the search paths of LESS.
-/

namespace Inlay

/-- Where an address leads: from the directory of the source if addresses are
relative, and from the base otherwise. -/
def Options.resolve (options : Options) (targetDir : Option Text) (url : Text) : Text :=
  let root :=
    if options.relative then targetDir.getD []
    else if options.base = [] then ['.', '/'] else options.base
  Path.resolve root url

namespace Stylesheet

def suffixed? (t : Text) : Option (Text × Dialect) :=
  Dialect.extensions.findSome? fun (extension, _) =>
    (Text.before? ('.' :: extension) t).map (·, Dialect.ofExtension extension)

/-- The text without its dots and slashes in front, as many of them as can go
while an extension is left. -/
def stripped : Text → Option (Text × Dialect)
  | [] => none
  | c :: t =>
    match if c = '.' ∨ c = '/' then stripped t else none with
    | some found => some found
    | none => suffixed? (c :: t)

def classify (url : Text) : Text × Dialect := (stripped url).getD (url, .unsupported)

structure Reference where
  url : Text
  stem : Text
  path : Text
  dialect : Dialect
  deriving DecidableEq, Repr

def Reference.of (options : Options) (targetDir : Option Text) (url : Text) : Reference :=
  let (stem, dialect) := classify url
  ⟨url, stem, options.resolve targetDir url, dialect⟩

end Stylesheet

end Inlay
