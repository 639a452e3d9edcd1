import Inlay.Text

/-!
Bindings in the tags of a component template, and their markers. A binding is
a white space character with an attribute whose name stands in brackets, for
a property, or in parentheses, for an event. While a template is rewritten a
numbered marker stands for each of them, so that nothing in a binding is taken
for markup.
-/

namespace Inlay.Html

/-- The start and the end of a marker; neither occurs in ordinary text. -/
def markerOpen : Char := '\uE000'

def markerClose : Char := '\uE001'

/-! ### Bindings at the front of a text

Each function here reads from the front and gives what is left. -/

def valueEnd? (t : Text) : Option Text :=
  match t.dropWhile (· ≠ '"') with
  | [] => none
  | _ :: rest => some rest

def closedBy? (closing : Char) (t : Text) : Option Text :=
  (Text.after? [closing, '=', '"'] t).bind valueEnd?

/-- Reads a property's name and value behind the opening bracket. The name
is the longest one in the line that a closing bracket and a value follow. -/
def propertyEnd? : Text → Option Text
  | [] => none
  | c :: t =>
    match if c = '\n' then none else propertyEnd? t with
    | some rest => some rest
    | none => closedBy? ']' (c :: t)

def eventEnd? (t : Text) : Option Text :=
  let isName := fun (c : Char) => c != ')' && c != '"'
  if t.head?.any isName then closedBy? ')' (t.dropWhile isName) else none

def binding? (opening : Char) (finish : Text → Option Text) : Text → Option (Unit × Text)
  | c :: o :: t => if Text.isBlank c ∧ o = opening then (finish t).map ((), ·) else none
  | _ => none

def property? : Text → Option (Unit × Text) := binding? '[' propertyEnd?

def event? : Text → Option (Unit × Text) := binding? '(' eventEnd?

/-! ### Markers -/

def marker (n : Nat) : Text := markerOpen :: Text.decimal n ++ [markerClose]

/-- Puts markers, numbered from `n` on, in the places of what was found. -/
def withMarkers : Nat → List (Text.Piece Unit) → Text
  | _, [] => []
  | n, .plain c :: ps => c :: withMarkers n ps
  | n, .hit _ _ :: ps => marker n ++ withMarkers (n + 1) ps

def found (ps : List (Text.Piece Unit)) : List Text :=
  ps.filterMap fun
    | .plain _ => none
    | .hit raw _ => some raw

structure Protected where
  text : Text
  bindings : List Text

/-- Events are looked for once the properties have become markers, so that
a marker may be part of an event's name or value. -/
def protect (t : Text) : Protected :=
  let properties := Text.pieces property? t
  let count := (found properties).length
  let events := Text.pieces event? (withMarkers 0 properties)
  ⟨withMarkers count events, found properties ++ found events⟩

def marker? : Text → Option (Nat × Text)
  | [] => none
  | c :: t =>
    let digits := t.takeWhile Char.isDigit
    if c = markerOpen ∧ digits ≠ [] then
      match t.dropWhile Char.isDigit with
      | d :: rest =>
        if d = markerClose then
          some (digits.foldl (fun n d => n * 10 + (d.toNat - '0'.toNat)) 0, rest)
        else none
      | [] => none
    else none

/-- Puts the bindings back. A marker that has no binding stays as it is. -/
def restore (bindings : List Text) (t : Text) : Text :=
  (Text.pieces marker? t).flatMap fun
    | .plain c => [c]
    | .hit raw n => bindings[n]?.getD raw

end Inlay.Html
