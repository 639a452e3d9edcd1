import Inlay.Disk.Access
import Inlay.Error
import Inlay.Files

/-!
Reading files while a source is inlined: where they are read from, how long a
read takes, and which reads were started and completed.
-/

namespace Inlay

/-- The reads of a run in their order, each path as often as it is read. -/
structure Reads where
  started : List Text
  completed : List Text
  deriving DecidableEq, Repr

def Reads.none : Reads := ⟨[], []⟩

/-- Where files are read. A read that takes `delay` rounds lets the other
reads of its annotation go on in each of them. -/
structure Host where
  read : Text → Except Error Text
  delay : Text → Nat

/-- A computation that may fail. The reads up to then are known even if it
does. -/
abbrev Reading := ExceptT Error (StateM Reads)

def Reading.run (m : Reading α) : Except Error α × Reads := StateT.run (ExceptT.run m) Reads.none

namespace Host

def ofDisk (disk : Disk) : Host where
  read path := (disk.readText path).mapError fun fault => .notFound path (.disk fault)
  delay _ := 0

def ofFiles (files : Files) (delay : Text → Nat) : Host where
  read path :=
    match files.find? path with
    | some content => .ok content
    | none => .error (.notFound path .notHeld)
  delay := delay

def start (path : Text) : Reading Unit :=
  modify fun reads => { reads with started := reads.started ++ [path] }

def finish (host : Host) (path : Text) : Reading Text := do
  let content ← host.read path
  modify fun reads => { reads with completed := reads.completed ++ [path] }
  return content

def get (host : Host) (path : Text) : Reading Text := do
  start path
  host.finish path

end Host

end Inlay
