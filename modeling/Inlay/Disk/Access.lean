import Inlay.Path
import Inlay.Disk.Fault
import Inlay.Disk.Folder

/-!
Reading and writing files by paths. An absolute path starts at the root of the
tree, any other one at the working directory.
-/

namespace Inlay

/-- The names that lead from the root to an entry, innermost first. -/
abbrev Disk.Place := List Text

structure Disk where
  /-- The entries of the root directory. -/
  tree : Disk.Folder
  workingDir : Disk.Place
  deriving DecidableEq, Repr

namespace Disk

def Place.path (place : Place) : Text := '/' :: Text.join ['/'] place.reverse

def entryAt? (disk : Disk) (place : Place) : Option Entry := disk.tree.get? place.reverse

def put (disk : Disk) (place : Place) (entry : Entry) : Disk :=
  { disk with tree := disk.tree.put place.reverse entry }

/-- The greatest size of a name, in bytes. -/
def nameLimit : Nat := 255

/-- The size from which on a path is refused, in bytes. -/
def pathLimit : Nat := 4096

/-- Goes from a place to what a segment of a path names there. The root is
above itself. -/
def step (disk : Disk) (place : Place) (segment : Text) : Except Fault Place :=
  match disk.entryAt? place with
  | none => .error .noEntry
  | some (.file _) => .error .notDirectory
  | some (.folder _) =>
    if Path.isFiller segment then .ok place
    else if segment = ['.', '.'] then .ok place.tail
    else if Text.byteSize segment > nameLimit then .error .nameTooLong
    else if (disk.entryAt? (segment :: place)).isSome then .ok (segment :: place)
    else .error .noEntry

def origin (disk : Disk) (path : Text) : Place :=
  if Path.isRooted path then [] else disk.workingDir

def checkPath (path : Text) : Except Fault Unit :=
  if path.contains (Char.ofNat 0) then .error .nulInPath
  else if path = [] then .error .noEntry
  else if Text.byteSize path ≥ pathLimit then .error .nameTooLong
  else .ok ()

def locate (disk : Disk) (path : Text) : Except Fault Place := do
  checkPath path
  (Text.split '/' path).foldlM disk.step (disk.origin path)

def entry (disk : Disk) (path : Text) : Except Fault Entry := do
  match disk.entryAt? (← disk.locate path) with
  | some e => .ok e
  | none => .error .noEntry

def isFolder (disk : Disk) (path : Text) : Bool :=
  match disk.entry path with
  | .ok (.folder _) => true
  | _ => false

def read (disk : Disk) (path : Text) : Except Fault Bytes := do
  match ← disk.entry path with
  | .file content => .ok content
  | .folder _ => .error .isDirectory

def readText (disk : Disk) (path : Text) : Except Fault Text := do
  match Utf8.decode (← disk.read path) with
  | .ok t => .ok t
  | .error _ => .error .notUtf8

/-! ### Changes -/

/-- What the last part of a path asks for: the place it is looked up in and
its name, if it is one, and whether slashes follow it. -/
structure Target where
  place : Place
  name : Option Text
  slashed : Bool

def target (disk : Disk) (path : Text) : Except Fault Target := do
  checkPath path
  let segments := (Text.split '/' path).reverse
  let slashed := segments.head? == some []
  match segments.dropWhile (· = []) with
  | [] => .ok ⟨disk.origin path, none, slashed⟩
  | last :: outer =>
    let place ← outer.reverse.foldlM disk.step (disk.origin path)
    if last = ['.'] ∨ last = ['.', '.'] then
      .ok ⟨← disk.step place last, none, slashed⟩
    else
      -- The place itself must be a directory.
      let _ ← disk.step place []
      if Text.byteSize last > nameLimit then .error .nameTooLong
      else .ok ⟨place, some last, slashed⟩

/-- Writes a file whose directory is there, in place of a file of that name. -/
def write (disk : Disk) (path : Text) (content : Bytes) : Except Fault Disk := do
  let t ← disk.target path
  match t.name with
  | none => .error .isDirectory
  | some name =>
    if t.slashed then .error .isDirectory
    else match disk.entryAt? (name :: t.place) with
      | some (.folder _) => .error .isDirectory
      | _ => .ok (disk.put (name :: t.place) (.file content))

/-- Makes a directory whose own directory is there. -/
def makeFolder (disk : Disk) (path : Text) : Except Fault Disk := do
  let t ← disk.target path
  match t.name with
  | none => .error .exists
  | some name =>
    if (disk.entryAt? (name :: t.place)).isSome then .error .exists
    else .ok (disk.put (name :: t.place) (.folder .empty))

def ensureFolder (disk : Disk) (path : Text) : Except Fault Disk :=
  match disk.makeFolder path with
  | .ok changed => .ok changed
  | .error fault => if disk.isFolder path then .ok disk else .error fault

/-- Makes a directory and the missing ones above it. The first argument bounds
the number of those. -/
def makeFoldersFrom : Nat → Disk → Text → Except Fault Disk
  | 0, _, _ => .error .noEntry
  | above + 1, disk, path =>
    if path = [] then .ok disk
    else match disk.makeFolder path with
      | .ok changed => .ok changed
      | .error .noEntry =>
        match Path.parent? path with
        | none => .error .noEntry
        | some up => do ensureFolder (← makeFoldersFrom above disk up) path
      | .error fault => if disk.isFolder path then .ok disk else .error fault

def makeFolders (disk : Disk) (path : Text) : Except Fault Disk :=
  makeFoldersFrom (path.length + 1) disk path

def makeParents (disk : Disk) (path : Text) : Except Fault Disk :=
  let up := (Path.parent? path).getD []
  if up = [] then .ok disk else disk.makeFolders up

end Disk

end Inlay
