import Inlay.Path

/-!
Files held in memory. Paths with the same components are the same.
-/

namespace Inlay

/-- Files by their paths, no two of which have the same components. -/
abbrev Files := List (Text × Text)

namespace Files

def isAt (path : Text) (file : Text × Text) : Bool :=
  Path.components file.1 == Path.components path

def find? (files : Files) (path : Text) : Option Text :=
  (List.find? (isAt path) files).map Prod.snd

def remove (files : Files) (path : Text) : Files := files.filter fun file => !isAt path file

def write (files : Files) (path content : Text) : Files :=
  (path, content) :: files.remove path

end Files

end Inlay
