import Inlay.Error
import Inlay.Text.Literal

/-!
From the source of a style sheet to the content of a string literal: compiled
by its dialect, minified or without line breaks, and escaped.
-/

namespace Inlay

/-- A minifier of style sheets. Nothing comes of a sheet that is not well
formed. -/
abbrev Css.Minifier := Text → Option Text

/-- The minified form of a style sheet, or the sheet without its line breaks
if it has none. -/
def Css.minifyWith (minifier : Css.Minifier) (t : Text) : Text :=
  (minifier t).getD (Text.withoutBreaks t)

namespace Stylesheet

/-- Compiles SCSS. Imports are looked for in the directories. -/
abbrev ScssCompiler := (loadPaths : List Text) → (source : Text) → Except Scss.Fault Text

/-- What compiling needs besides the source: the program for LESS, a compiler
for SCSS, and a minifier. None of them is part of the library. -/
structure Tools where
  less : Less.Tool
  scss : ScssCompiler
  minifier : Css.Minifier

def compileScss (scss : ScssCompiler) (includePaths : List Text) (path source : Text) :
    Except Error Text :=
  let dir := (Path.parent? path).getD []
  let loadPaths := (if dir = [] then [] else [dir]) ++ includePaths
  (scss loadPaths source).mapError (.scss path)

def compile (tools : Tools) (options : Options) (targetDir : Option Text) (r : Reference)
    (source : Text) : Except Error Text :=
  match r.dialect with
  | .css => .ok source
  | .unsupported => .ok source
  | .scss => compileScss tools.scss options.includePaths r.path source
  | .less =>
    (Less.compile tools.less options targetDir r source).mapError
      (Error.ofLess (Less.fileName targetDir r))

/-- Puts a compiled style sheet on one line: minified if that is asked for,
and else without its line breaks. -/
def normalize (tools : Tools) (compress : Bool) (css : Text) : Text :=
  if compress then Css.minifyWith tools.minifier css else Text.withoutBreaks css

/-- Makes a compiled style sheet fit for a literal between single quotes. -/
def flatten (tools : Tools) (compress : Bool) (css : Text) : Text :=
  Literal.escapeSingle (normalize tools compress css)

def process (tools : Tools) (options : Options) (targetDir : Option Text) (r : Reference)
    (source : Text) : Except Error Text :=
  (compile tools options targetDir r source).map (flatten tools options.compress)

end Stylesheet

end Inlay
