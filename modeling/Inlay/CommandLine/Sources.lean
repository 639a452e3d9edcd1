import Inlay.CommandLine.Arguments
import Inlay.Disk.Access
import Inlay.Error

/-!
The sources that a command is about, and where each of them is written.
-/

namespace Inlay.CommandLine

/-- A source: its path, and for one that was found in a directory its names
below that directory. -/
structure Source where
  path : Text
  below : List Text
  deriving DecidableEq, Repr

def sourceExtension : Text := "ts".toList

def isSourceName (name : Text) : Bool := Path.extension? name == some sourceExtension

/-- The sources in a directory: depth first, the entries of each directory by
name. -/
def sourcesIn (root : Text) (recursive : Bool) (inside : Disk.Folder) : List Source :=
  let found := (inside.files recursive).map Prod.fst
  (found.filter fun names => names.getLast?.any isSourceName).map fun names =>
    ⟨names.foldl Path.append root, names⟩

def collect (disk : Disk) (input : Text) (recursive : Bool) :
    Except Error (List Source) :=
  match disk.entry input with
  | .ok (.folder inside) => .ok (sourcesIn input recursive inside)
  | .ok (.file _) => .ok [⟨input, (Path.fileName? input).toList⟩]
  | .error _ => .error (.notFound input .noSource)

inductive Target where
  | display
  | file (path : Text)
  /-- A directory that gets the tree of the input. -/
  | folder (path : Text)
  | inPlace
  deriving DecidableEq, Repr

def InlineCommand.target (c : InlineCommand) (disk : Disk) : Target :=
  if c.inPlace then .inPlace
  else match c.output with
    | none => .display
    | some path => if disk.isFolder c.input then .folder path else .file path

def Target.destination? (t : Target) (s : Source) : Option Text :=
  match t with
  | .display => none
  | .file path => some path
  | .folder path => some (s.below.foldl Path.append path)
  | .inPlace => some s.path

end Inlay.CommandLine
