import Inlay.Pass.Template

/-!
Inlining a whole source: the style pass and then the template pass. A failure
leaves no text at all.
-/

namespace Inlay

def Job.normalized (job : Job) : Job := { job with options := job.options.normalized }

/-- Inlines the style sheets and templates of a source, or its templates
only. -/
def transform (job : Job) (t : Text) : Reading Text := do
  let job := job.normalized
  let styled ← if job.options.templatesOnly then pure t else StylePass.apply job t
  TemplatePass.apply job styled

/-- The tools for the files of a disk. A compiler for SCSS reads imports from
the disk by itself. -/
structure Toolchain where
  less : Stylesheet.Less.Tool
  scss : Disk → Stylesheet.ScssCompiler
  minifier : Css.Minifier

def Toolchain.on (chain : Toolchain) (disk : Disk) : Stylesheet.Tools :=
  ⟨chain.less, chain.scss disk, chain.minifier⟩

/-- Inlines the source at a path of a disk. Its directory is the one that
relative addresses start from. -/
def transformFile (chain : Toolchain) (options : Options) (disk : Disk) (path : Text) :
    Except Error Text := do
  let source ← (disk.readText path).mapError fun fault => .notFound path (.disk fault)
  let job : Job := ⟨options, Path.parent? path, Host.ofDisk disk, chain.on disk⟩
  (transform job source).run.1

end Inlay
