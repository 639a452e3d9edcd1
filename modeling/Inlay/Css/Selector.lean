import Inlay.Css.Token

/-!
Selectors of style rules: whether tokens form one, and how it is written with
no white space that means nothing.
-/

namespace Inlay.Css.Selector

/-- Where a reader of selectors stands: where a compound must start, within
a compound, behind one and white space, or in brackets with the marks that
close them. -/
inductive Spot where
  | start
  | inside
  | gap
  | brackets (closings : List Char)

/-- What separates a compound that starts here from what is in front of it.
None where no type or universal selector can stand. -/
def Spot.typeLead? : Spot → Option Text
  | .start => some []
  | .gap => some [' ']
  | _ => none

def Spot.lead : Spot → Text
  | .gap => [' ']
  | _ => []

def oneColonNames : List Text := ["after", "before", "first-line", "first-letter"].map String.toList

def writeElement (name : Text) : Text :=
  if oneColonNames.contains (name.map Char.toLower) then ':' :: name.map Char.toLower
  else ':' :: ':' :: writeName name

def write? : Spot → List Token → Option Text
  | .start, [] => none
  | .brackets (_ :: _), [] => none
  | _, [] => some []
  | .brackets (closing :: outer), token :: ts =>
    let opened := if token = .mark closing then outer
      else token.closing?.toList ++ closing :: outer
    (write? (if opened = [] then .inside else .brackets opened) ts).map (token.write ++ ·)
  | spot, .space :: ts =>
    match spot with
    | .start => write? .start ts
    | _ => write? .gap ts
  | spot, .ident name :: ts =>
    match spot.typeLead? with
    | some lead => (write? .inside ts).map (lead ++ writeName name ++ ·)
    | none => none
  | spot, .hash name :: ts =>
    if startsName name then (write? .inside ts).map (spot.lead ++ (Token.hash name).write ++ ·)
    else none
  | spot, .mark '.' :: .ident name :: ts =>
    (write? .inside ts).map (spot.lead ++ '.' :: writeName name ++ ·)
  | spot, .mark ':' :: .ident name :: ts =>
    (write? .inside ts).map (spot.lead ++ ':' :: writeName name ++ ·)
  | spot, .mark ':' :: .mark ':' :: .ident name :: ts =>
    (write? .inside ts).map (spot.lead ++ writeElement name ++ ·)
  | spot, .mark ':' :: .function name :: ts =>
    (write? (.brackets [')']) ts).map (spot.lead ++ ':' :: (Token.function name).write ++ ·)
  | spot, .mark c :: ts =>
    if c = '*' then
      match spot.typeLead? with
      | some lead => (write? .inside ts).map (lead ++ '*' :: ·)
      | none => none
    else if c = '[' then (write? (.brackets [']']) ts).map (spot.lead ++ '[' :: ·)
    else if c = ',' ∨ c = '>' ∨ c = '+' ∨ c = '~' then
      match spot with
      | .start => none
      | _ => (write? .start ts).map (c :: ·)
    else none
  | _, _ :: _ => none

end Inlay.Css.Selector
