import Inlay.Text

/-!
Strings and escapes of style sheets: reading what stands between two quotes,
and writing a text between quotes so that it reads back.
-/

namespace Inlay.Css

def isNewline (c : Char) : Bool := c == '\n' || c == '\r' || c == '\x0c'

def isSpace (c : Char) : Bool := c == ' ' || c == '\t' || isNewline c

/-- The size of the newline in front, where a carriage return and the line
feed behind it are one. -/
def newlineSize : Text → Nat
  | '\r' :: '\n' :: _ => 2
  | c :: _ => if isNewline c then 1 else 0
  | [] => 0

/-- The character with a code point; a replacement for one that no character
has. -/
def charOf (n : Nat) : Char :=
  if n ≠ 0 ∧ n.isValidChar then Char.ofNat n else '\uFFFD'

/-- What an escape stands for and its size, seen from behind its backslash.
One white space character belongs to the digits in front of it. -/
def escape : Text → Char × Nat
  | [] => ('\uFFFD', 0)
  | c :: t =>
    let digits := ((c :: t).take 6).takeWhile fun c => (Text.hexDigit? c).isSome
    if digits = [] then (c, 1)
    else
      let value := digits.foldl (fun n c => n * 16 + (Text.hexDigit? c).getD 0) 0
      let rest := (c :: t).drop digits.length
      let space := if rest.head?.any isSpace then max 1 (newlineSize rest) else 0
      (charOf value, digits.length + space)

namespace Quoted

/-- Reads up to the closing quote `q`; no quote is needed where the text ends.
The first argument counts the characters that are covered already. A newline
that no backslash hides is refused. -/
def decodeFrom (q : Char) : Nat → Text → Option (Text × Text)
  | _, [] => some ([], [])
  | k + 1, _ :: t => decodeFrom q k t
  | 0, c :: t =>
    if c = q then some ([], t)
    else if isNewline c then none
    else if c = '\\' then
      if newlineSize t > 0 ∨ t = [] then decodeFrom q (newlineSize t) t
      else
        let (value, size) := escape t
        (decodeFrom q size t).map fun (more, rest) => (value :: more, rest)
    else (decodeFrom q 0 t).map fun (more, rest) => (c :: more, rest)

def decode (q : Char) (t : Text) : Option (Text × Text) := decodeFrom q 0 t

/-- Writes the content of a string. `padded` says whether a space is due
between the digits of an escape and what follows them. -/
def content (q : Char) (padded : Text → Bool) : Text → Text
  | [] => []
  | c :: t =>
    let written :=
      if c = q ∨ c = '\\' then ['\\', c]
      else if c = '\x00' then ['\uFFFD']
      else if (c.toNat < 0x20 ∧ c ≠ '\t') ∨ c = '\x7f' then
        '\\' :: Nat.toDigits 16 c.toNat ++ (if padded t then [' '] else [])
      else [c]
    written ++ content q padded t

def encode (q : Char) (padded : Text → Bool) (t : Text) : Text :=
  q :: content q padded t ++ [q]

end Quoted

end Inlay.Css
