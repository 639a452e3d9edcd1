import Inlay.Decimal.Binary64
import Inlay.Toml.Quoted
import Inlay.Toml.Table

/-!
Numbers, dates and times, and truth values of TOML documents.
-/

namespace Inlay.Toml

/-! ### Numbers -/

/-- Digits of a number, single underscores between them. -/
def isDigits (digit : Char → Bool) (t : Text) : Bool :=
  (Text.split '_' t).all fun part => part != [] && part.all digit

def unsigned (t : Text) : Text :=
  match t with
  | '+' :: t => t
  | '-' :: t => t
  | t => t

/-- Decimal digits with no zero in front of others. -/
def isDecimal (t : Text) : Bool :=
  isDigits Char.isDigit t && (t.length == 1 || t.head? != some '0')

def isExponent (t : Text) : Bool := isDigits Char.isDigit (unsigned t)

def isHex (c : Char) : Bool := (Text.hexDigit? c).isSome

def valueIn (base : Nat) (digits : Text) : Nat :=
  (digits.filter isHex).foldl (fun n c => n * base + (Text.hexDigit? c).getD 0) 0

/-- The parts of a number that is no whole number: the whole part, the
fraction and the exponent with its sign, where there are some. -/
structure Parts where
  whole : Text
  fraction : Option Text
  exponent : Option Text

def Parts.read? (t : Text) : Option Parts :=
  let startsExponent := fun (c : Char) => c == 'e' || c == 'E'
  let mantissa := t.takeWhile (!startsExponent ·)
  let exponent := match t.dropWhile (!startsExponent ·) with
    | [] => none
    | _ :: exponent => some exponent
  match Text.split '.' mantissa with
  | [whole] => some ⟨whole, none, exponent⟩
  | [whole, fraction] => some ⟨whole, some fraction, exponent⟩
  | _ => none

def Parts.isValid (p : Parts) : Bool :=
  isDecimal p.whole && p.fraction.all (isDigits Char.isDigit) && p.exponent.all isExponent &&
    (p.fraction.isSome || p.exponent.isSome)

/-- The exponent of the last digit of the fraction. -/
def Parts.lastExponent (p : Parts) : Int :=
  let power : Int := (p.exponent.map fun e =>
    let size : Int := valueIn 10 (unsigned e)
    if e.head? = some '-' then -size else size).getD 0
  power - ((p.fraction.getD []).filter Char.isDigit).length

/-- Whether a number is finite as a binary64 number. Only numbers whose leading
digit is near the greatest one's need to be rounded. -/
def Parts.isFinite (p : Parts) : Bool :=
  let digits := valueIn 10 (p.whole ++ p.fraction.getD [])
  let last := p.lastExponent
  let leading := last + (Text.decimal digits).length - 1
  digits == 0 || leading < 308 ||
    leading == 308 &&
      (Decimal.Binary64.ofRatio? (digits * Nat.pow 10 last.toNat) (Nat.pow 10 (-last).toNat)).isSome

/-- A number that is no whole number. One above the finite range is refused,
one below it is not. -/
def isFloat (t : Text) : Bool :=
  let number := unsigned t
  number == "inf".toList || number == "nan".toList ||
    (Parts.read? number).any fun p => p.isValid && (p.isFinite || t.head? == some '-')

/-- The greatest whole number, which is also the least one's size less one. -/
def wholeLimit : Nat := Nat.pow 2 63 - 1

def isWhole (t : Text) : Bool :=
  let limit := if t.head? = some '-' then wholeLimit + 1 else wholeLimit
  isDecimal (unsigned t) && valueIn 10 (unsigned t) ≤ limit

/-- A whole number of another base behind its mark. -/
def isBased (mark : String) (base : Nat) (digit : Char → Bool) (t : Text) : Bool :=
  (Text.after? mark.toList t).any fun digits =>
    isDigits digit digits && valueIn base digits ≤ wholeLimit

def isNumber (t : Text) : Bool :=
  isWhole t || isFloat t || isBased "0x" 16 isHex t ||
    isBased "0o" 8 (fun c => '0' ≤ c && c ≤ '7') t ||
    isBased "0b" 2 (fun c => c == '0' || c == '1') t

/-! ### Dates and times -/

def digits? (size low high : Nat) (t : Text) : Option (Nat × Text) :=
  let digits := t.take size
  let value := valueIn 10 digits
  if digits.length = size ∧ digits.all Char.isDigit ∧ low ≤ value ∧ value ≤ high then
    some (value, t.drop size)
  else none

def daysIn (year month : Nat) : Nat :=
  if month = 2 then
    if year % 4 = 0 ∧ (year % 100 ≠ 0 ∨ year % 400 = 0) then 29 else 28
  else if month ∈ [4, 6, 9, 11] then 30 else 31

def date? (t : Text) : Option Text := do
  let (year, t) ← digits? 4 0 9999 t
  let (month, t) ← digits? 2 1 12 (← Text.after? ['-'] t)
  let (_, t) ← digits? 2 1 (daysIn year month) (← Text.after? ['-'] t)
  some t

def time? (t : Text) : Option Text := do
  let (_, t) ← digits? 2 0 23 t
  let (_, t) ← digits? 2 0 59 (← Text.after? [':'] t)
  let (_, t) ← digits? 2 0 60 (← Text.after? [':'] t)
  match t with
  | '.' :: rest =>
    if rest.head?.any Char.isDigit then some (rest.dropWhile Char.isDigit) else none
  | t => some t

def offset? : Text → Option Text
  | [] => some []
  | c :: t =>
    if c = 'Z' ∨ c = 'z' then some t
    else if c = '+' ∨ c = '-' then do
      let (_, t) ← digits? 2 0 23 t
      let (_, t) ← digits? 2 0 59 (← Text.after? [':'] t)
      some t
    else some (c :: t)

def moment? (t : Text) : Option Text :=
  match date? t with
  | none => time? t
  | some [] => some []
  | some (c :: rest) =>
    if c = 'T' ∨ c = 't' then (time? rest).bind offset?
    else if c = ' ' ∧ rest.head?.any Char.isDigit then (time? rest).bind offset?
    else some (c :: rest)

/-! ### Words -/

def isWordPart (c : Char) : Bool := c.isAlphanum || c == '_' || c == '-' || c == '+' || c == '.'

def word? (t : Text) : Option (Value × Text) :=
  match moment? t with
  | some rest => some (.moment (t.take (t.length - rest.length)), rest)
  | none =>
    let word := t.takeWhile isWordPart
    let rest := t.drop word.length
    if word = "true".toList then some (.boolean true, rest)
    else if word = "false".toList then some (.boolean false, rest)
    else if isNumber word then some (.number word, rest)
    else none

end Inlay.Toml
