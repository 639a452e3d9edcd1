import Inlay.Text.Utf8

/-!
A finite tree of directories and plain files. A directory is the list of its
entries in the order of their names, each entry followed by the ones behind
it, so that one structural recursion sees the whole tree.
-/

namespace Inlay.Disk

inductive Folder where
  | empty
  | file (name : Text) (content : Bytes) (rest : Folder)
  | folder (name : Text) (inside rest : Folder)
  deriving DecidableEq, Repr

inductive Entry where
  | file (content : Bytes)
  | folder (inside : Folder)
  deriving DecidableEq, Repr

def Entry.isFolder : Entry → Bool
  | .file _ => false
  | .folder _ => true

namespace Folder

def add (name : Text) : Entry → Folder → Folder
  | .file content, rest => .file name content rest
  | .folder inside, rest => .folder name inside rest

def find? (name : Text) : Folder → Option Entry
  | .empty => none
  | .file n content rest => if n = name then some (.file content) else rest.find? name
  | .folder n inside rest => if n = name then some (.folder inside) else rest.find? name

/-- Sets what a name stands for, in the place that keeps the names in order. -/
def set (name : Text) (entry : Entry) : Folder → Folder
  | .empty => add name entry .empty
  | .file n content rest =>
    if n = name then add name entry rest
    else if name < n then add name entry (.file n content rest)
    else .file n content (rest.set name entry)
  | .folder n inside rest =>
    if n = name then add name entry rest
    else if name < n then add name entry (.folder n inside rest)
    else .folder n inside (rest.set name entry)

def erase (name : Text) : Folder → Folder
  | .empty => .empty
  | .file n content rest => if n = name then rest else .file n content (rest.erase name)
  | .folder n inside rest => if n = name then rest else .folder n inside (rest.erase name)

/-! ### Entries by their names from the top -/

def get? (f : Folder) : List Text → Option Entry
  | [] => some (.folder f)
  | [name] => f.find? name
  | name :: names => match f.find? name with
    | some (.folder inside) => inside.get? names
    | _ => none

/-- Sets an entry, making directories on the way to it where there are none. -/
def put (f : Folder) : List Text → Entry → Folder
  | [], _ => f
  | [name], entry => f.set name entry
  | name :: names, entry =>
    let inside := match f.find? name with
      | some (.folder inside) => inside
      | _ => .empty
    f.set name (.folder (inside.put names entry))

def remove (f : Folder) : List Text → Folder
  | [] => f
  | [name] => f.erase name
  | name :: names => match f.find? name with
    | some (.folder inside) => f.set name (.folder (inside.remove names))
    | _ => f

/-- All plain files with their names from the top: depth first, the entries of
one directory by name. Directories are entered when `deep` is set. -/
def files (deep : Bool) : Folder → List (List Text × Bytes)
  | .empty => []
  | .file name content rest => ([name], content) :: rest.files deep
  | .folder name inside rest =>
    (if deep then (inside.files deep).map fun (names, b) => (name :: names, b) else []) ++
      rest.files deep

end Folder

end Inlay.Disk
