import Inlay.Annotation.UrlList
import Inlay.Reading
import Inlay.Stylesheet.Compile

/-!
The style pass: each list of style sheets gives way to their text. The style
sheets of one list are read together, in rounds; one is compiled as soon as
its read ends, and the first failure ends the pass.
-/

namespace Inlay

structure Job where
  options : Options
  /-- The directory of the source. -/
  targetDir : Option Text
  host : Host
  tools : Stylesheet.Tools

namespace StylePass

/-- A style sheet of a list: its read still takes some rounds behind the next
one, or it is compiled. -/
inductive Slot where
  | waiting (rounds : Nat) (r : Stylesheet.Reference)
  | done (css : Text)

def Slot.text : Slot → Text
  | .waiting _ _ => []
  | .done css => css

/-- Ends a read and compiles what was read. -/
def finish (job : Job) (r : Stylesheet.Reference) : Reading Slot := do
  let source ← job.host.finish r.path
  let css ← Stylesheet.process job.tools job.options job.targetDir r source
  return .done css

/-- Starts a read, and ends it too when it takes no time. -/
def begin (job : Job) (r : Stylesheet.Reference) : Reading Slot := do
  Host.start r.path
  match job.host.delay r.path with
  | 0 => finish job r
  | rounds + 1 => return .waiting rounds r

def resume (job : Job) : Slot → Reading Slot
  | .waiting 0 r => finish job r
  | .waiting (rounds + 1) r => return .waiting rounds r
  | .done css => return .done css

/-- Resumes all unfinished reads in their order, so many times. -/
def resumeAll (job : Job) : Nat → List Slot → Reading (List Slot)
  | 0, slots => return slots
  | rounds + 1, slots => do resumeAll job rounds (← slots.mapM (resume job))

/-- Reads and compiles style sheets together; their texts keep the order of
the list. -/
def compileAll (job : Job) (urls : List Text) : Reading Text := do
  let references := urls.map (Stylesheet.Reference.of job.options job.targetDir)
  let slots ← references.mapM (begin job)
  let rounds := (references.map fun r => job.host.delay r.path).foldl max 0
  return (← resumeAll job rounds slots).flatMap Slot.text

def literal (css : Text) : Text := "styles: ['".toList ++ css ++ "']".toList

/-- What to put in the place of an annotation. The list of one that is
commented out is read but its style sheets are not. -/
def replacement (job : Job) (a : Annotation.StyleUrls) : Reading Text := do
  let urls ← a.urls
  if a.isCommentedOut then return literal []
  else return literal (← compileAll job urls)

def apply (job : Job) (t : Text) : Reading Text := do
  let annotations := Annotation.styleUrls t
  let replacements ← annotations.mapM fun (span, a) => do
    return (span, ← replacement job a)
  return Text.splice t replacements

end StylePass

end Inlay
