import Inlay.Css.Token
import Inlay.Scss.Fault

/-!
Values of SCSS declarations: reading them into parts, filling in variables,
adding numbers and joining texts, and writing the result.
-/

namespace Inlay.Scss

/-- A decimal number with a unit: `mantissa` counts steps of size
`10 ^ -places`. -/
structure Quantity where
  mantissa : Int
  places : Nat
  unit : Text
  deriving DecidableEq, Repr

namespace Quantity

def negate (a : Quantity) : Quantity := { a with mantissa := -a.mantissa }

/-- Adds two numbers whose units are the same, or one of which has none. -/
def add (a b : Quantity) : Except Fault Quantity :=
  if a.unit ≠ [] ∧ b.unit ≠ [] ∧ a.unit ≠ b.unit then .error (.unlikeUnits a.unit b.unit)
  else
    let places := max a.places b.places
    .ok {
      mantissa := a.mantissa * Nat.pow 10 (places - a.places) +
        b.mantissa * Nat.pow 10 (places - b.places)
      places
      unit := if a.unit = [] then b.unit else a.unit }

def ofDigits (digits unit : Text) : Quantity :=
  let whole := digits.takeWhile Char.isDigit
  let fraction := (digits.dropWhile Char.isDigit).drop 1
  let value := (whole ++ fraction).foldl (fun n c => n * 10 + (c.toNat - '0'.toNat)) 0
  ⟨(value : Nat), fraction.length, unit⟩

def write (a : Quantity) : Text :=
  let digits := Text.decimal a.mantissa.natAbs
  let padded := List.replicate (a.places + 1 - digits.length) '0' ++ digits
  let whole := padded.take (padded.length - a.places)
  let fraction := ((padded.drop (padded.length - a.places)).reverse.dropWhile (· = '0')).reverse
  (if a.mantissa < 0 then ['-'] else []) ++ whole ++
    (if fraction = [] then [] else '.' :: fraction) ++ a.unit

end Quantity

/-- A part of a value. Words are copied as they stand. -/
inductive Part where
  | space
  | comma
  | plus
  | minus
  | variable (name : Text)
  | number (n : Quantity)
  | quoted (content : Text)
  | word (t : Text)
  deriving DecidableEq, Repr

abbrev Value := List Part

/-! ### Reading -/

/-- Underscores and hyphens are the same in names. -/
def nameKey (name : Text) : Text := name.map fun c => if c = '_' then '-' else c

def nameSize (t : Text) : Nat := (Css.nameFrom 0 t).2

/-- The number of characters of the unit in front. A hyphen in front of a
digit belongs to no unit. -/
def unitSize : Text → Nat
  | [] => 0
  | '%' :: _ => 1
  | t =>
    if Css.startsName t then go (t.take (nameSize t)) else 0
where
  go : Text → Nat
    | [] => 0
    | '-' :: c :: t => if c.isDigit then 0 else go (c :: t) + 1
    | _ :: t => go t + 1

def isWordPart (c : Char) : Bool :=
  !(Css.isSpace c || c == ',' || c == '+' || c == '$' || c == '"' || c == '\'' || c == '(' ||
    c == ')')

/-- The size of a word with an opening parenthesis behind it. An address is
one word, and so is a closing parenthesis. -/
def wordSize (t : Text) : Nat :=
  let name := t.takeWhile isWordPart
  match t.drop name.length with
  | '(' :: behind =>
    match if name = "url".toList then Css.address? behind else none with
    | some (_, size) => name.length + 1 + size
    | none => name.length + 1
  | _ => max 1 name.length

/-- The part in front of a text and its size. -/
def Part.front (t : Text) : List (Except Fault Part) × Nat :=
  match t with
  | [] => ([], 1)
  | c :: rest =>
    if Css.isSpace c then ([.ok .space], (t.takeWhile Css.isSpace).length)
    else if c = ',' then ([.ok .comma], 1)
    else if c = '+' then ([.ok .plus], 1)
    else if c = '$' ∧ Css.startsName rest then
      let size := nameSize rest
      ([.ok (.variable (nameKey (rest.take size)))], size + 1)
    else if c = '$' then ([.error (.badStatement t)], 1)
    else if c = '"' ∨ c = '\'' then
      match Css.Quoted.decode c rest with
      | some (content, behind) => ([.ok (.quoted content)], t.length - behind.length)
      | none => ([.error .unclosedText], 1)
    else if c ≠ '-' ∧ Css.startsNumber t then
      let size := Css.numberSize t
      let unit := unitSize (t.drop size)
      ([.ok (.number (.ofDigits (t.take size) ((t.drop size).take unit)))], size + unit)
    else if c = '-' ∧ !Css.startsName t then ([.ok .minus], 1)
    else
      let size := wordSize t
      ([.ok (.word (t.take size))], size)

def isGap : Part → Bool
  | .space => true
  | _ => false

def Value.trim (v : Value) : Value := ((v.dropWhile isGap).reverse.dropWhile isGap).reverse

def Value.read (t : Text) : Except Fault Value := do
  .ok (Value.trim (← (Text.walk Part.front 0 t).mapM id))

/-! ### Evaluating -/

/-- Drops the white space behind an operator, and the white space in front of
one that has some on both sides. One that has some in front only is a sign. -/
def tighten : Value → Value
  | [] => []
  | .space :: .plus :: .space :: v => .plus :: tighten v
  | .space :: .minus :: .space :: v => .minus :: tighten v
  | .plus :: .space :: v => .plus :: tighten v
  | .minus :: .space :: v => .minus :: tighten v
  | part :: v => part :: tighten v

/-- What a sum of a text and something else is. -/
def concat? : Part → Part → Option Part
  | .quoted a, .quoted b => some (.quoted (a ++ b))
  | .quoted a, .word b => some (.quoted (a ++ b))
  | .quoted a, .number b => some (.quoted (a ++ b.write))
  | .word a, .quoted b => some (.word (a ++ b))
  | .word a, .word b => some (.word (a ++ b))
  | .word a, .number b => some (.word (a ++ b.write))
  | .number a, .quoted b => some (.quoted (a.write ++ b))
  | .number a, .word b => some (.word (a.write ++ b))
  | _, _ => none

/-- Works out the sums and signs of a value. The first argument holds what is
in front, last part first. -/
def combine : Value → Value → Except Fault Value
  | done, [] => .ok done.reverse
  | .number a :: done, .plus :: .number b :: v => do combine (.number (← a.add b) :: done) v
  | .number a :: done, .minus :: .number b :: v => do
    combine (.number (← a.add b.negate) :: done) v
  | done, .minus :: .number b :: v => combine (.number b.negate :: done) v
  | a :: done, .plus :: b :: v =>
    match concat? a b with
    | some c => combine (c :: done) v
    | none => combine (b :: (if isGap a then a :: done else .plus :: a :: done)) v
  | done, part :: v => combine (part :: done) v

def Value.evaluate (find : Text → Option Value) (v : Value) : Except Fault Value := do
  let filled ← v.mapM fun
    | .variable name => match find name with
      | some value => .ok value
      | none => .error (.unknownVariable name)
    | part => .ok [part]
  combine [] (tighten filled.flatten)

/-! ### Writing -/

/-- Texts stand in double quotes, but in single ones when they hold double
quotes only. Digits of an escape are followed by a space where the next
character would be taken for one of them. -/
def writeQuoted (t : Text) : Text :=
  let q := if t.contains '"' ∧ !t.contains '\'' then '\'' else '"'
  Css.Quoted.encode q
    (fun rest => rest.head?.any fun c => (Text.hexDigit? c).isSome || c == ' ' || c == '\t') t

def Part.write : Part → Text
  | .space => [' ']
  | .comma => [',', ' ']
  | .plus => ['+']
  | .minus => ['-']
  | .variable name => '$' :: name
  | .number n => n.write
  | .quoted content => writeQuoted content
  | .word t => t

def Part.absorbs (behind : Bool) : Part → Bool
  | .comma => true
  | .word t => if behind then Text.endsWith ['('] t else t = [')']
  | _ => false

/-- Writes a value; `absorbed` says whether white space in front of it means
nothing. -/
def Value.writeFrom : Bool → Value → Text
  | _, [] => []
  | absorbed, .space :: v =>
    if absorbed || v.head?.any (Part.absorbs false) then Value.writeFrom absorbed v
    else ' ' :: Value.writeFrom false v
  | _, part :: v => part.write ++ Value.writeFrom (part.absorbs true) v

def Value.write (v : Value) : Text := Value.writeFrom true v

end Inlay.Scss
