import Inlay.Html.Minify
import Inlay.Pass.Style

/-!
The template pass: each template's address gives way to its text. Templates
are read one after another, and those that are commented out are left alone.
-/

namespace Inlay.TemplatePass

/-- What an annotation with a template becomes: its minified text as a sum of
literals, one for each of its lines. -/
def literal (compress : Bool) (quote : Char) (html : Text) : Text :=
  let minified := (Html.Settings.forTemplates compress).minify html
  "template: ".toList ++
    quote :: Literal.joinLines quote (Literal.guardWith quote minified) ++ [quote]

def replacement (job : Job) (a : Annotation.TemplateUrl) : Reading Text := do
  let html ← job.host.get (job.options.resolve job.targetDir a.url)
  return literal job.options.compress a.quote html

def apply (job : Job) (t : Text) : Reading Text := do
  let annotations := Annotation.templateUrls t
  let active := annotations.filter fun (_, a) => !a.isCommentedOut
  let replacements ← active.mapM fun (span, a) => do
    return (span, ← replacement job a)
  return Text.splice t replacements

end Inlay.TemplatePass
