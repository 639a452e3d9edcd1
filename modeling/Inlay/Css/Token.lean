import Inlay.Css.Quoted

/-!
The tokens of style sheets, read and written. Comments are no tokens.
-/

namespace Inlay.Css

inductive Token where
  | ident (name : Text)
  | function (name : Text)
  | atWord (name : Text)
  | hash (name : Text)
  | text (content : Text)
  | number (digits unit : Text)
  | address (content : Text)
  | space
  | mark (c : Char)
  deriving DecidableEq, Repr

/-! ### Names -/

def isNameStart (c : Char) : Bool := c.isAlpha || c == '_' || c.toNat ≥ 0x80

def isNamePart (c : Char) : Bool := isNameStart c || c.isDigit || c == '-'

def escapes : Text → Bool
  | '\\' :: c :: _ => !isNewline c
  | _ => false

def startsName : Text → Bool
  | '-' :: t => t.head?.any (fun c => isNameStart c || c == '-') || escapes t
  | c :: t => isNameStart c || escapes (c :: t)
  | [] => false

/-- The name in front with its escapes read, and its size. The first argument
counts the characters that are covered already. -/
def nameFrom : Nat → Text → Text × Nat
  | _, [] => ([], 0)
  | k + 1, _ :: t =>
    let (name, size) := nameFrom k t
    (name, size + 1)
  | 0, c :: t =>
    if escapes (c :: t) then
      let (value, covered) := escape t
      let (name, size) := nameFrom covered t
      (value :: name, size + 1)
    else if isNamePart c then
      let (name, size) := nameFrom 0 t
      (c :: name, size + 1)
    else ([], 0)

def writeNamePart (c : Char) : Text :=
  if isNamePart c then [c]
  else if c.toNat < 0x20 ∨ c = '\x7f' then '\\' :: Nat.toDigits 16 c.toNat ++ [' ']
  else ['\\', c]

def writeDigit (c : Char) : Text :=
  if c.isDigit then '\\' :: Nat.toDigits 16 c.toNat ++ [' '] else writeNamePart c

/-- Writes a name so that it reads back. -/
def writeName : Text → Text
  | [] => []
  | ['-'] => ['\\', '-']
  | '-' :: '-' :: t => '-' :: '-' :: t.flatMap writeNamePart
  | '-' :: c :: t => '-' :: writeDigit c ++ t.flatMap writeNamePart
  | c :: t => writeDigit c ++ t.flatMap writeNamePart

/-! ### Numbers -/

def startsNumber (t : Text) : Bool :=
  let unsigned := match t with
    | c :: rest => if c = '+' ∨ c = '-' then rest else t
    | [] => []
  match unsigned with
  | '.' :: c :: _ => c.isDigit
  | c :: _ => c.isDigit
  | [] => false

def numberSize (t : Text) : Nat :=
  let sign := if t.head? = some '+' ∨ t.head? = some '-' then 1 else 0
  let whole := ((t.drop sign).takeWhile Char.isDigit).length
  let behind := t.drop (sign + whole)
  let fraction := match behind with
    | '.' :: rest =>
      let size := (rest.takeWhile Char.isDigit).length
      if size = 0 then 0 else size + 1
    | _ => 0
  sign + whole + fraction

/-- A number without the zeros and the sign that it does not need. -/
def plainNumber (t : Text) : Text :=
  let sign := if t.head? = some '-' then ['-'] else []
  let digits := if t.head? = some '-' ∨ t.head? = some '+' then t.drop 1 else t
  let whole := (digits.takeWhile Char.isDigit).dropWhile (· = '0')
  let fraction := (((digits.dropWhile Char.isDigit).drop 1).reverse.dropWhile (· = '0')).reverse
  if whole = [] ∧ fraction = [] then ['0']
  else if fraction = [] then sign ++ whole
  else sign ++ whole ++ '.' :: fraction

/-! ### Reading -/

def commentSize (t : Text) : Nat :=
  match Text.indexOf? ['*', '/'] (t.drop 2) with
  | some n => n + 4
  | none => t.length

/-- An address without quotes, behind its parenthesis: its content and size. -/
def address? (t : Text) : Option (Text × Nat) :=
  let start := (t.takeWhile isSpace).length
  let isPlain := fun (c : Char) =>
    !(isSpace c || c == '"' || c == '\'' || c == '(' || c == ')' || c == '\\')
  let content := (t.drop start).takeWhile isPlain
  let behind := (t.drop (start + content.length))
  let trailing := (behind.takeWhile isSpace).length
  match behind.drop trailing with
  | ')' :: _ => some (content, start + content.length + trailing + 1)
  | _ => none

def word (t : Text) : Token × Nat :=
  let (name, size) := nameFrom 0 t
  match t.drop size with
  | '(' :: behind =>
    if name.map Char.toLower = "url".toList then
      match address? behind with
      | some (content, more) => (.address content, size + 1 + more)
      | none => (.function name, size + 1)
    else (.function name, size + 1)
  | _ => (.ident name, size)

def quantity (t : Text) : Token × Nat :=
  let size := numberSize t
  let rest := t.drop size
  let digits := plainNumber (t.take size)
  if rest.head? = some '%' then (.number digits ['%'], size + 1)
  else if startsName rest then
    let (unit, more) := nameFrom 0 rest
    (.number digits unit, size + more)
  else (.number digits [], size)

/-- The token in front of a text and its size; none for a comment, and none
where a string is broken by a newline. -/
def front (t : Text) : List (Option Token) × Nat :=
  match t with
  | [] => ([], 1)
  | c :: rest =>
    if isSpace c then ([some .space], (t.takeWhile isSpace).length)
    else if Text.startsWith ['/', '*'] t then ([], commentSize t)
    else if c = '"' ∨ c = '\'' then
      match Quoted.decode c rest with
      | some (content, behind) => ([some (.text content)], t.length - behind.length)
      | none => ([none], 1)
    else if startsNumber t then
      let (token, size) := quantity t
      ([some token], size)
    else if startsName t then
      let (token, size) := word t
      ([some token], size)
    else if c = '#' ∧ (rest.head?.any isNamePart || escapes rest) then
      let (name, size) := nameFrom 0 rest
      ([some (.hash name)], size + 1)
    else if c = '@' ∧ startsName rest then
      let (name, size) := nameFrom 0 rest
      ([some (.atWord name)], size + 1)
    else ([some (.mark c)], 1)

/-- The tokens of a text, unless a string in it is broken. -/
def tokens? (t : Text) : Option (List Token) := (Text.walk front 0 t).mapM id

/-! ### Writing -/

/-- How strings are written: between double quotes, each escape's digits with
a space behind them. -/
def writeText (t : Text) : Text := Quoted.encode '"' (fun _ => true) t

def Token.write : Token → Text
  | .ident name => writeName name
  | .function name => writeName name ++ ['(']
  | .atWord name => '@' :: writeName name
  | .hash name => '#' :: name.flatMap writeNamePart
  | .text content => writeText content
  | .number digits unit => digits ++ (if unit = ['%'] then unit else writeName unit)
  | .address content => "url(".toList ++ content ++ [')']
  | .space => [' ']
  | .mark c => [c]

/-! ### Blocks -/

def Token.closing? : Token → Option Char
  | .function _ => some ')'
  | .mark '(' => some ')'
  | .mark '[' => some ']'
  | .mark '{' => some '}'
  | _ => none

/-- The tokens up to the first one that `stop` holds of and that stands in no
block, and the rest from there on. The first argument holds the marks that
close the blocks that are open, innermost first. -/
def breakAt (stop : Token → Bool) : List Char → List Token → List Token × List Token
  | _, [] => ([], [])
  | [], token :: ts =>
    if stop token then ([], token :: ts)
    else
      let (inside, rest) := breakAt stop token.closing?.toList ts
      (token :: inside, rest)
  | closing :: outer, token :: ts =>
    let opened := if token = .mark closing then outer
      else token.closing?.toList ++ closing :: outer
    let (inside, rest) := breakAt stop opened ts
    (token :: inside, rest)

def trimSpaces (ts : List Token) : List Token :=
  ((ts.dropWhile (· = .space)).reverse.dropWhile (· = .space)).reverse

end Inlay.Css
