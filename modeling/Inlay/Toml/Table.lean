import Inlay.Text

/-!
The values of TOML documents. How a table came to be decides what may still
be added to it.
-/

namespace Inlay.Toml

inductive Origin where
  /-- By the header of a table below it. -/
  | implied
  | header
  /-- By a key with dots. -/
  | dotted
  /-- Between braces; such a table is closed. -/
  | braces
  deriving DecidableEq, Repr

inductive Value where
  | text (value : Text)
  | number (written : Text)
  | moment (written : Text)
  | boolean (value : Bool)
  | list (members : List Value)
  | table (origin : Origin) (members : List (Text × Value))
  /-- Tables that share a header in double brackets; the last one is open. -/
  | tables (earlier : List (List (Text × Value))) (last : List (Text × Value))

/-- Keys with their values in the order they came in. -/
abbrev Table := List (Text × Value)

namespace Table

def find? (table : Table) (key : Text) : Option Value := table.lookup key

def set (table : Table) (key : Text) (value : Value) : Table :=
  if table.any (·.1 = key) then
    table.map fun (k, v) => if k = key then (k, value) else (k, v)
  else table ++ [(key, value)]

/-- Adds a value under a key with dots. No key may be set twice. A key with
dots passes through tables that have no header of their own, and the table
that it ends in must have come to be by keys with dots, which `fits` says of
the table at hand. -/
def insertBelow? (fits : Bool) : List Text → Value → Table → Option Table
  | [], _, _ => none
  | [key], value, table =>
    if fits && (table.find? key).isNone then some (table.set key value) else none
  | key :: keys, value, table =>
    match table.find? key with
    | none => (insertBelow? true keys value []).map fun inner => table.set key (.table .dotted inner)
    | some (.table .dotted inner) =>
      (insertBelow? true keys value inner).map fun inner => table.set key (.table .dotted inner)
    | some (.table .implied inner) =>
      (insertBelow? false keys value inner).map fun inner => table.set key (.table .implied inner)
    | some (.tables earlier last) =>
      (insertBelow? false keys value last).map fun last => table.set key (.tables earlier last)
    | some _ => none

/-- Adds a value under a key whose first part belongs to this table. -/
def insert? (keys : List Text) (value : Value) (table : Table) : Option Table :=
  insertBelow? true keys value table

/-- Changes the table at a path of headers. Tables on the way are made where
there are none. -/
def within? (change : Table → Option Table) : List Text → Table → Option Table
  | [], table => change table
  | key :: keys, table =>
    match table.find? key with
    | none => (within? change keys []).map fun inner => table.set key (.table .implied inner)
    | some (.table .braces _) => none
    | some (.table origin inner) =>
      (within? change keys inner).map fun inner => table.set key (.table origin inner)
    | some (.tables earlier last) =>
      (within? change keys last).map fun last => table.set key (.tables earlier last)
    | some _ => none

/-- Opens a table by its header. A table has one header at most. -/
def open? (key : Text) (table : Table) : Option Table :=
  match table.find? key with
  | none => some (table.set key (.table .header []))
  | some (.table .implied inner) => some (table.set key (.table .header inner))
  | some _ => none

/-- Opens one more of the tables that share a header. -/
def openNext? (key : Text) (table : Table) : Option Table :=
  match table.find? key with
  | none => some (table.set key (.tables [] []))
  | some (.tables earlier last) => some (table.set key (.tables (earlier ++ [last]) []))
  | some _ => none

end Table

end Inlay.Toml
