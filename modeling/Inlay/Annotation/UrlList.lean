import Inlay.Annotation
import Inlay.Error

/-!
Lists of addresses, read as JSON in which single quotes count as double ones.
-/

namespace Inlay.Annotation

def doubleQuoted (list : Text) : Text := list.map fun c => if c = '\'' then '"' else c

/-- The addresses of a list, read by a parser of JSON lists of strings. -/
def urlListWith (parse : Text → Except Json.Complaint (List Text)) (list : Text) :
    Except Error (List Text) :=
  (parse (doubleQuoted list)).mapError (.malformedList list)

def urlList : Text → Except Error (List Text) := urlListWith (Json.parse Json.readTextList)

def StyleUrls.urls (a : StyleUrls) : Except Error (List Text) := urlList a.list

end Inlay.Annotation
