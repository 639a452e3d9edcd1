import Inlay.Json.Fault

/-!
Numbers of a JSON text, read for their kind and value. Whole numbers within
64 bits stay exact; all others become binary64, by rounding the first digits
that fit 64 bits and scaling them by a rounded power of ten.
-/

namespace Inlay.Json

open Decimal (Binary64)

def digitValue (c : Char) : Nat := c.toNat - 48

/-- Reads digits as long as the value stays within `limit`: the value, the
number of digits read, and what is left. -/
def readDigits (limit : Nat) : Nat → Text → Nat × Nat × Text
  | value, [] => (value, 0, [])
  | value, c :: t =>
    let next := value * 10 + digitValue c
    if c.isDigit ∧ next ≤ limit then
      let (final, count, rest) := readDigits limit next t
      (final, count + 1, rest)
    else (value, 0, c :: t)

def startsWithDigit (t : Text) : Bool := t.head?.any Char.isDigit

def startsWithExponent (t : Text) : Bool := t.head?.any fun c => c == 'e' || c == 'E'

def significandLimit : Nat := Nat.pow 2 64 - 1

def exponentLimit : Nat := Nat.pow 2 31 - 1

def powerLimit : Nat := 308

/-- Scales by powers of ten, at most `powerLimit` at a time; none past the
finite range. The first argument bounds the number of steps. -/
def scaleBy : Nat → Binary64 → Int → Option Binary64
  | 0, x, _ => some x
  | steps + 1, x, exponent => do
    let power ← Binary64.ofRatio? (Nat.pow 10 (min exponent.natAbs powerLimit)) 1
    if exponent.natAbs ≤ powerLimit then
      if exponent < 0 then x.div? power else x.mul? power
    else if x.m = 0 then some x
    else if exponent < 0 then scaleBy steps (← x.div? power) (exponent + powerLimit)
    else none

def scaled (significand : Nat) (exponent : Int) : Option Binary64 := do
  scaleBy (exponent.natAbs / powerLimit + 2) (← Binary64.ofRatio? significand 1) exponent

def floatOf (negative : Bool) (significand : Nat) (exponent : Int) (rest : Text) :
    Except Fault (Found × Text) :=
  match scaled significand exponent with
  | some x => .ok (.float negative x, rest)
  | none => .error (.before .numberOutOfRange rest)

/-- What follows the sign of an exponent, if it has one. -/
def afterSign (t : Text) : Text :=
  if t.head? == some '-' || t.head? == some '+' then t.drop 1 else t

def readExponent (negative : Bool) (significand : Nat) (shift : Int) (t : Text) :
    Except Fault (Found × Text) :=
  let down := t.head? == some '-'
  let digits := afterSign t
  if digits = [] then .error (.before .endOfValue [])
  else if !startsWithDigit digits then .error (.within .invalidNumber digits)
  else
    let (power, _, rest) := readDigits exponentLimit 0 digits
    if startsWithDigit rest then
      if significand ≠ 0 ∧ !down then .error (.before .numberOutOfRange (rest.drop 1))
      else .ok (.float negative ⟨0, -1074⟩, rest.dropWhile Char.isDigit)
    else floatOf negative significand (if down then shift - power else shift + power) rest

/-- Reads what follows the digits that were kept, once the number is known to
be no whole number of 64 bits. -/
def readTail (negative : Bool) (significand : Nat) (shift : Int) (t : Text) :
    Except Fault (Found × Text) :=
  if startsWithExponent t then readExponent negative significand shift (t.drop 1)
  else floatOf negative significand shift t

def readFraction (negative : Bool) (significand : Nat) (shift : Int) (t : Text) :
    Except Fault (Found × Text) :=
  let (value, count, rest) := readDigits significandLimit significand t
  if startsWithDigit rest then
    readTail negative value (shift - count) (rest.dropWhile Char.isDigit)
  else if count = 0 then
    .error (.within (if rest = [] then .endOfValue else .invalidNumber) rest)
  else readTail negative value (shift - count) rest

/-- A whole number as it is reported. A minus in front of zero, or of more
than the least 64-bit integer, makes it binary64. -/
def wholeOf (negative : Bool) (value : Nat) (rest : Text) : Except Fault (Found × Text) :=
  if negative ∧ (value = 0 ∨ value > Nat.pow 2 63) then floatOf true value 0 rest
  else .ok (.integer negative value, rest)

def readAfterWhole (negative : Bool) (value : Nat) (t : Text) : Except Fault (Found × Text) :=
  if t.head? = some '.' then readFraction negative value 0 (t.drop 1)
  else if startsWithExponent t then readExponent negative value 0 (t.drop 1)
  else wholeOf negative value t

def readNumber (negative : Bool) : Text → Except Fault (Found × Text)
  | [] => .error (.before .endOfValue [])
  | '0' :: t =>
    if startsWithDigit t then .error (.within .invalidNumber t) else readAfterWhole negative 0 t
  | c :: t =>
    if !c.isDigit then .error (.within .invalidNumber (c :: t))
    else
      let (value, _, rest) := readDigits significandLimit 0 (c :: t)
      if startsWithDigit rest then
        let dropped := rest.takeWhile Char.isDigit
        let tail := rest.dropWhile Char.isDigit
        if tail.head? = some '.' then readFraction negative value dropped.length (tail.drop 1)
        else readTail negative value dropped.length tail
      else readAfterWhole negative value rest

/-! ### Numbers that are only passed over -/

def skipExponent (t : Text) : Except Fault Text :=
  if startsWithDigit (afterSign t) then .ok ((afterSign t).dropWhile Char.isDigit)
  else .error (.within .invalidNumber (afterSign t))

def skipTail (t : Text) : Except Fault Text :=
  if startsWithExponent t then skipExponent (t.drop 1) else .ok t

def skipFraction (t : Text) : Except Fault Text :=
  if startsWithDigit t then skipTail (t.dropWhile Char.isDigit)
  else .error (.within .invalidNumber t)

def skipAfterWhole (t : Text) : Except Fault Text :=
  if t.head? = some '.' then skipFraction (t.drop 1) else skipTail t

/-- Passes over a number whose sign has been read. Its size does not matter. -/
def skipNumber : Text → Except Fault Text
  | [] => .error (.before .invalidNumber [])
  | '0' :: t =>
    if startsWithDigit t then .error (.within .invalidNumber t) else skipAfterWhole t
  | c :: t =>
    if c.isDigit then skipAfterWhole (t.dropWhile Char.isDigit)
    else .error (.within .invalidNumber (c :: t))

end Inlay.Json
