import Inlay.Text

/-!
The dialects of style sheets, told apart by the extension of a file.
-/

namespace Inlay.Stylesheet

inductive Dialect where
  | css
  | less
  | scss
  /-- Any other; the content is taken as it stands. -/
  | unsupported
  deriving DecidableEq, Repr

namespace Dialect

def extensions : List (Text × Dialect) :=
  [("css".toList, .css), ("less".toList, .less), ("scss".toList, .scss)]

def ofExtension (extension : Text) : Dialect :=
  (extensions.lookup extension).getD .unsupported

def name : Dialect → Text
  | .css => "CSS".toList
  | .less => "LESS".toList
  | .scss => "SCSS".toList
  | .unsupported => "unsupported".toList

end Dialect

end Inlay.Stylesheet
