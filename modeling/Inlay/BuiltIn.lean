import Inlay.CommandLine.Run
import Inlay.Css.Minify
import Inlay.Scss.Compile
import Inlay.Session

/-!
What the program runs with: the library's own readers of JSON and TOML, its own
compiler for SCSS and its own minifier. The last two know the common part of
their languages and refuse or copy the rest, so nothing else depends on them.
-/

namespace Inlay.BuiltIn

def scssWith (file? : Text → Option Bytes) : Stylesheet.ScssCompiler :=
  fun loadPaths source => Scss.compile ⟨file?, loadPaths⟩ source

def toolchain (less : Stylesheet.Less.Tool) : Toolchain where
  less := less
  scss disk := scssWith fun path => (disk.read path).toOption
  minifier := Css.minify?

/-- The tools for files that are not on a disk; SCSS finds nothing to import. -/
def tools (less : Stylesheet.Less.Tool) : Stylesheet.Tools :=
  ⟨less, scssWith fun _ => none, Css.minify?⟩

def formats : Config.Formats := ⟨Config.ofJson, Config.ofToml?⟩

def setting (less : Stylesheet.Less.Tool) : CommandLine.Setting :=
  { toolchain less with formats }

end Inlay.BuiltIn
