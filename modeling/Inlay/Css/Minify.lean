import Inlay.Css.Color
import Inlay.Css.Selector

/-!
Minifying a style sheet: its rules are written one behind the other with no
white space that means nothing. A sheet that is not well formed has no
minified form.
-/

namespace Inlay.Css

/-! ### Values -/

/-- Marks that need no white space on either side. -/
def isSeparator (c : Char) : Bool :=
  !(c == ':' || c == ';' || c == '(' || c == ')' || c == '[' || c == ']' || c == '{' || c == '}')

/-- Writes tokens with single spaces, and none next to a separator. `tight`
says whether a separator is in front. -/
def writeValue : Bool → List Token → Text
  | _, [] => []
  | tight, .space :: ts =>
    match ts with
    | .space :: _ => writeValue tight ts
    | .mark c :: _ =>
      if tight || isSeparator c then writeValue tight ts else ' ' :: writeValue false ts
    | _ => if tight then writeValue tight ts else ' ' :: writeValue false ts
  | _, .mark c :: ts =>
    let written := if c = '+' ∨ c = '-' then [' ', c, ' '] else [c]
    written ++ writeValue (isSeparator c) ts
  | _, token :: ts => token.write ++ writeValue false ts

def important : Text := "important".toList

def splitImportant (ts : List Token) : List Token × Text :=
  match ts.reverse with
  | .ident name :: before =>
    match before.dropWhile (· = .space) with
    | .mark '!' :: value =>
      if name.map Char.toLower = important then (trimSpaces value.reverse, '!' :: important)
      else (ts, [])
    | _ => (ts, [])
  | _ => (ts, [])

def colorOf? : List Token → Option Color
  | [.ident name] => Color.ofName? name
  | [.hash digits] => Color.ofHex? digits
  | _ => none

/-- Writes the value of a property. A colour has its shortest form where
nothing but a colour can stand. -/
def writeValueOf (property : Text) (ts : List Token) : Text :=
  let (value, mark) := splitImportant ts
  let written := match if property = "color".toList then colorOf? value else none with
    | some color => color.write
    | none => writeValue false value
  written ++ mark

/-! ### Declarations -/

/-- Marks that no value holds: a stray closing mark, a block, and the mark of
importance but at the end. -/
def isValue (ts : List Token) : Bool :=
  let (value, _) := splitImportant ts
  !value.any fun token => token == .mark '!' || token == .mark '{' || token == .mark '}'

def declaration? (ts : List Token) : Option Text :=
  match trimSpaces ts with
  | .ident name :: rest =>
    match rest.dropWhile (· = .space) with
    | .mark ':' :: value =>
      if isValue (trimSpaces value) then
        some (writeName name ++ ':' :: writeValueOf (name.map Char.toLower) (trimSpaces value))
      else none
    | _ => none
  | _ => none

/-- Cuts tokens at the semicolons that stand in no block. The first argument
bounds the number of parts. -/
def parts : Nat → List Token → List (List Token)
  | 0, _ => []
  | more + 1, ts =>
    let (part, rest) := breakAt (· = .mark ';') [] ts
    part :: (if rest = [] then [] else parts more (rest.drop 1))

def declarations? (ts : List Token) : Option (List Text) :=
  (((parts (ts.length + 1) ts).map trimSpaces).filter (· ≠ [])).mapM declaration?

/-! ### Rules -/

/-- What a sheet is made of: a head, and the content of the block behind it
unless a semicolon or the end is there. -/
structure Statement where
  head : List Token
  block : Option (List Token)

def Token.isAtWord : Token → Bool
  | .atWord _ => true
  | _ => false

/-- Whether a token ends the head of a statement. A semicolon does so only
where the head starts with an at-word. -/
def endsHead (ts : List Token) (token : Token) : Bool :=
  token == .mark '{' || (token == .mark ';' && ts.head?.any Token.isAtWord)

/-- Reads the statements of a sheet. The first argument bounds their number. -/
def statements : Nat → List Token → List Statement
  | 0, _ => []
  | more + 1, ts =>
    match ts.dropWhile (· = .space) with
    | [] => []
    | token :: behind =>
      let (head, rest) := breakAt (endsHead [token]) [] (token :: behind)
      match rest with
      | .mark '{' :: behind =>
        let (inside, after) := breakAt (· = .mark '}') [] behind
        ⟨head, some inside⟩ :: statements more (after.drop 1)
      | _ => ⟨head, none⟩ :: statements more (rest.drop 1)

def joinWith (separator : Char) (ts : List Text) : Text := Text.join [separator] ts

def styleRule? (head block : List Token) : Option Text := do
  let selectors ← Selector.write? .start (trimSpaces head)
  let written ← declarations? block
  if written = [] then some []
  else some (selectors ++ '{' :: joinWith ';' written ++ ['}'])

/-- Writes the statements of a sheet. The first argument bounds how deep
blocks of rules stand in each other. -/
def sheet? : Nat → List Token → Option Text
  | 0, _ => none
  | depth + 1, ts => do
    let written ← (statements (ts.length + 1) ts).mapM fun s =>
      match s.head, s.block with
      | .atWord name :: condition, some block =>
        if name.map Char.toLower = "media".toList then do
          let inside ← sheet? depth block
          if inside = [] then some []
          else some ("@media ".toList ++ writeValue false (trimSpaces condition) ++
            '{' :: inside ++ ['}'])
        else none
      | .atWord name :: argument, none =>
        if name.map Char.toLower = "charset".toList then some []
        else
          let argument := trimSpaces argument
          some ('@' :: writeName name ++
            (if argument = [] then [] else ' ' :: writeValue false argument) ++ [';'])
      | head, some block => styleRule? head block
      | _, none => none
    some written.flatten

def minify? (t : Text) : Option Text := do
  let ts ← tokens? t
  sheet? (ts.length + 1) ts

end Inlay.Css
