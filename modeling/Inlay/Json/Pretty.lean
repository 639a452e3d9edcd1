import Inlay.Text

/-!
Writing JSON over several lines. Each writer is told how far the line is
indented that its value starts on.
-/

namespace Inlay.Json.Pretty

def escaped (c : Char) : Text :=
  if c = '"' ∨ c = '\\' then ['\\', c]
  else if c = '\x08' then ['\\', 'b']
  else if c = '\t' then ['\\', 't']
  else if c = '\n' then ['\\', 'n']
  else if c = '\x0c' then ['\\', 'f']
  else if c = '\r' then ['\\', 'r']
  else if c.toNat < 0x20 then
    ['\\', 'u', '0', '0', Nat.digitChar (c.toNat / 16), Nat.digitChar (c.toNat % 16)]
  else [c]

def text (t : Text) : Text := '"' :: t.flatMap escaped ++ ['"']

def number (n : Nat) : Text := Text.decimal n

def boolean (b : Bool) : Text := if b then "true".toList else "false".toList

abbrev Writer := (indent : Nat) → Text

def enclosed (opening closing : Char) (items : List Writer) : Writer := fun indent =>
  let line := fun (item : Writer) =>
    '\n' :: List.replicate (indent + 2) ' ' ++ item (indent + 2)
  if items.isEmpty then [opening, closing]
  else
    opening :: Text.join [','] (items.map line) ++
      '\n' :: List.replicate indent ' ' ++ [closing]

def list (items : List Writer) : Writer := enclosed '[' ']' items

def record (fields : List (String × Writer)) : Writer :=
  enclosed '{' '}' (fields.map fun (name, value) indent =>
    text name.toList ++ [':', ' '] ++ value indent)

end Inlay.Json.Pretty
