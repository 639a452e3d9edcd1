import Inlay.Annotation.Report
import Inlay.Transform

/-!
Sessions: a text that is inlined step by step, with files held in memory that
change in between. A step that fails leaves the text as it was.
-/

namespace Inlay

structure Session where
  buffer : Text
  files : Files
  options : Options
  targetDir : Option Text

namespace Session

inductive Step where
  | write (path content : Text)
  | remove (path : Text)
  | setOptions (options : Options)
  | setTargetDir (dir : Option Text)
  | setBuffer (t : Text)
  | append (t : Text)
  | scan
  | stylePass
  | templatePass
  | transform

inductive Answer where
  | fileCount (n : Nat)
  | wasThere (b : Bool)
  | done
  | buffer (t : Text)
  | report (r : Except Error Report)
  | inlined (r : Except Error Text)

def job (tools : Stylesheet.Tools) (s : Session) : Job where
  options := s.options
  targetDir := s.targetDir
  host := Host.ofFiles s.files fun _ => 0
  tools := tools

def inline (s : Session) (m : Reading Text) : Answer × Session :=
  match m.run.1 with
  | .ok t => (.inlined (.ok t), { s with buffer := t })
  | .error e => (.inlined (.error e), s)

def step (tools : Stylesheet.Tools) (s : Session) : Step → Answer × Session
  | .write path content =>
    let files := s.files.write path content
    (.fileCount files.length, { s with files })
  | .remove path => (.wasThere (s.files.find? path).isSome, { s with files := s.files.remove path })
  | .setOptions options => (.done, { s with options })
  | .setTargetDir targetDir => (.done, { s with targetDir })
  | .setBuffer buffer => (.done, { s with buffer })
  | .append t => (.buffer (s.buffer ++ t), { s with buffer := s.buffer ++ t })
  | .scan => (.report (Report.scan s.buffer), s)
  | .stylePass => s.inline (StylePass.apply (s.job tools) s.buffer)
  | .templatePass => s.inline (TemplatePass.apply (s.job tools) s.buffer)
  | .transform => s.inline (Inlay.transform (s.job tools) s.buffer)

def run (tools : Stylesheet.Tools) : Session → List Step → List Answer × Session
  | s, [] => ([], s)
  | s, step :: steps =>
    let (answer, s) := s.step tools step
    let (answers, s) := run tools s steps
    (answer :: answers, s)

end Session

end Inlay
