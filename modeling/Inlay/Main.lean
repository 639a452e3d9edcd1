import Inlay.BuiltIn

/-!
The program: takes the working directory and the directory of the input as they
are, runs one command on them, prints what the command prints, and writes the
files that it changed. Other programs cannot be started from here, so LESS
cannot be compiled.
-/

namespace Inlay.Main

def noTool : Stylesheet.Less.Tool := fun _ _ _ => .notStarted .noProcesses

/-- Reads the directory at a path, each file with its content. -/
partial def snapshot (path : String) : IO Disk.Folder := do
  let mut folder := Disk.Folder.empty
  for entry in ← (← IO.FS.realPath path).readDir do
    let inside := path ++ "/" ++ entry.fileName
    let name := entry.fileName.toList
    if ← entry.path.isDir then
      folder := folder.set name (.folder (← snapshot inside))
    else
      folder := folder.set name (.file (← IO.FS.readBinFile inside).toList)
  return folder

def input? (arguments : List Text) : Option Text :=
  match CommandLine.Arguments.read arguments with
  | .ok ⟨_, .inline c⟩ => some c.input
  | .ok ⟨_, .scan c⟩ => some c.input
  | _ => none

def isFolder (path : Text) : IO Bool := do
  try (← IO.FS.realPath (String.ofList path)).isDir
  catch _ => return false

def names (path : Text) : List Text :=
  (Text.split '/' path).filter fun name => !Path.isFiller name

/-- Puts a directory into a tree, unless it is not there. -/
def take (path : Text) (tree : Disk.Folder) : IO Disk.Folder := do
  unless ← isFolder path do return tree
  let inside ← snapshot (String.ofList path)
  return if names path = [] then inside else tree.put (names path) (.folder inside)

/-- The disk with what a run sees of it: the directory of its input, and the
working directory. -/
def currentDisk (arguments : List Text) : IO Disk := do
  let path := (← IO.FS.realPath ".").toString.toList
  let mut tree := Disk.Folder.empty
  if let some input := input? arguments then
    let full := Path.resolve (if Path.isRooted input then ['/'] else path) input
    tree ← take (if ← isFolder full then full else Path.pop full) tree
  tree ← take path tree
  return ⟨tree, (names path).reverse⟩

/-- Writes the files of a disk that were not on it before. -/
def writeChanges (before after : Disk) : IO Unit := do
  let known := before.tree.files true
  for (names, content) in after.tree.files true do
    unless known.contains (names, content) do
      let path := Disk.Place.path names.reverse
      if let some dir := Path.parent? path then IO.FS.createDirAll (String.ofList dir)
      IO.FS.writeBinFile (String.ofList path) ⟨content.toArray⟩

def run (arguments : List String) : IO UInt32 := do
  let start ← IO.monoMsNow
  let arguments := arguments.map String.toList
  let disk ← currentDisk arguments
  let outcome := CommandLine.run (BuiltIn.setting noTool) disk arguments
  writeChanges disk outcome.console.disk
  let elapsed := Text.decimal ((← IO.monoMsNow) - start)
  IO.print (String.ofList (outcome.output elapsed))
  IO.eprint (String.ofList outcome.console.complaints)
  return UInt32.ofNat outcome.exit

end Inlay.Main

def main (arguments : List String) : IO UInt32 := Inlay.Main.run arguments
