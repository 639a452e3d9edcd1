import Inlay.Annotation.UrlList

/-!
Reports on the annotations of a source, made without reading any file.
-/

namespace Inlay

inductive Annotation.Kind where
  | styleUrls
  | templateUrl
  deriving DecidableEq, Repr

def Annotation.Kind.key : Annotation.Kind → Text
  | .styleUrls => Annotation.styleKey
  | .templateUrl => Annotation.templateKey

namespace Report

structure Entry where
  kind : Annotation.Kind
  /-- The line of the key, counted from 1. -/
  line : Nat
  urls : List Text
  commentedOut : Bool
  deriving DecidableEq, Repr

end Report

/-- The annotations of a source by their lines; on one line those with style
sheets come first. -/
abbrev Report := List Report.Entry

namespace Report

def keyLine (t : Text) (span : Span) (opener : Text) : Nat :=
  Text.lineAt t (span.start + Text.byteSize opener)

def styleEntry (t : Text) (span : Span) (a : Annotation.StyleUrls) : Except Error Entry := do
  .ok ⟨.styleUrls, keyLine t span a.opener, ← a.urls, a.isCommentedOut⟩

def templateEntry (t : Text) (span : Span) (a : Annotation.TemplateUrl) : Entry :=
  ⟨.templateUrl, keyLine t span a.opener, [a.url], a.isCommentedOut⟩

/-- Reports on a source; the first malformed list ends it. -/
def scan (t : Text) : Except Error Report := do
  let styles := Annotation.styleUrls t
  let templates := Annotation.templateUrls t
  let first ← styles.mapM fun (span, a) => styleEntry t span a
  let second := templates.map fun (span, a) => templateEntry t span a
  .ok ((first ++ second).mergeSort fun a b => a.line ≤ b.line)

def activeUrls (r : Report) : List Text :=
  (r.filter fun entry => !entry.commentedOut).flatMap (·.urls)

end Report

end Inlay
