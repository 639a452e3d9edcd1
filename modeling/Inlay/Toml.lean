import Inlay.Toml.Scalar

/-!
Reading TOML documents: keys with values, tables by their headers, comments.
-/

namespace Inlay.Toml

/-! ### Keys and values -/

def isBareKey (c : Char) : Bool := c.isAlphanum || c == '_' || c == '-'

def keyPart? (t : Text) : Option (Text × Text) :=
  match t with
  | '"' :: t => line? '"' 0 t
  | '\'' :: t => line? '\'' 0 t
  | t =>
    let key := t.takeWhile isBareKey
    if key = [] then none else some (key, t.drop key.length)

/-- The greatest number of parts of a key, and of brackets in each other. -/
def nestingLimit : Nat := 79

/-- Reads a key with its dots. The first argument bounds the number of parts. -/
def keyWithin? : Nat → Text → Option (List Text × Text)
  | 0, _ => none
  | parts + 1, t => do
    let (part, rest) ← keyPart? (skipSpace t)
    match skipSpace rest with
    | '.' :: more => (keyWithin? parts more).map fun (keys, rest) => (part :: keys, rest)
    | rest => some ([part], rest)

def key? (t : Text) : Option (List Text × Text) := keyWithin? nestingLimit t

mutual

/-- Reads a value that stands in `depth` brackets. The first argument bounds
what is read, in steps. -/
def value? : Nat → Nat → Text → Option (Value × Text)
  | 0, _, _ => none
  | steps + 1, depth, t =>
    match t with
    | '"' :: _ => (string? '"' t).map fun (s, rest) => (.text s, rest)
    | '\'' :: _ => (string? '\'' t).map fun (s, rest) => (.text s, rest)
    | '[' :: t => if depth < nestingLimit then members? steps (depth + 1) [] t else none
    | '{' :: t =>
      if depth < nestingLimit then
        match skipSpace t with
        | '}' :: rest => some (.table .braces [], rest)
        | t => pairs? steps (depth + 1) [] t
      else none
    | t => word? t

/-- Reads what is left of a list. -/
def members? : Nat → Nat → List Value → Text → Option (Value × Text)
  | 0, _, _, _ => none
  | steps + 1, depth, read, t => do
    match ← skipLines t.length t with
    | ']' :: rest => some (.list read.reverse, rest)
    | t =>
      let (v, rest) ← value? steps depth t
      match ← skipLines rest.length rest with
      | ',' :: rest => members? steps depth (v :: read) rest
      | ']' :: rest => some (.list (v :: read).reverse, rest)
      | _ => none

/-- Reads what is left of an inline table. -/
def pairs? : Nat → Nat → Table → Text → Option (Value × Text)
  | 0, _, _, _ => none
  | steps + 1, depth, read, t => do
    let (keys, rest) ← key? t
    let (v, rest) ← value? steps depth (skipSpace (← Text.after? ['='] rest))
    let read ← Table.insert? keys v read
    match skipSpace rest with
    | ',' :: rest => pairs? steps depth read rest
    | '}' :: rest => some (.table .braces read, rest)
    | _ => none

end

/-! ### Documents -/

/-- Reads a table header: the path of the table and whether it is one of a
list of tables. -/
def header? (t : Text) : Option (List Text × Bool × Text) := do
  match ← Text.after? ['['] t with
  | '[' :: t =>
    let (keys, rest) ← key? t
    some (keys, true, ← Text.after? [']', ']'] rest)
  | t =>
    let (keys, rest) ← key? t
    some (keys, false, ← Text.after? [']'] rest)

/-- Opens the table or the next of the tables with a header. -/
def openAt? (repeated : Bool) (path : List Text) (table : Table) : Option Table := do
  let key ← path.getLast?
  table.within? (if repeated then Table.openNext? key else Table.open? key) path.dropLast

/-- Reads a document line by line; `path` is the table that keys go into. The
first argument bounds the number of lines. -/
def documentFrom : Nat → List Text → Table → Text → Option Table
  | 0, _, _, _ => none
  | lines + 1, path, table, t => do
    let t ← skipLines t.length t
    match t with
    | [] => some table
    | '[' :: _ =>
      let (keys, repeated, rest) ← header? t
      documentFrom lines keys (← openAt? repeated keys table) (← endLine? rest)
    | t =>
      let (keys, rest) ← key? t
      let rest ← Text.after? ['='] rest
      let (v, rest) ← value? (rest.length + 1) 0 (skipSpace rest)
      let table ← table.within? (Table.insert? keys v) path
      documentFrom lines path table (← endLine? rest)

/-- Reads a document; none when it is not well formed. -/
def parse? (t : Text) : Option Table :=
  let t := (Text.after? ['\uFEFF'] t).getD t
  documentFrom (t.length + 1) [] [] t

end Inlay.Toml
