import Inlay.Decimal.Shortest
import Inlay.Text.Hidden

/-!
What can be wrong with a JSON text, where, and how that is said. A reader
reports a fault by the number of bytes that are left at it, since it sees
only what is left; `Complaint.of` turns that into a line and a column.
-/

namespace Inlay.Json

inductive Found where
  | null
  | boolean (value : Bool)
  | integer (negative : Bool) (magnitude : Nat)
  | float (negative : Bool) (magnitude : Decimal.Binary64)
  | text (value : Text)
  | sequence
  | map
  deriving DecidableEq, Repr

inductive Expected where
  | text
  | boolean
  | sequence
  | record (name : Text)
  deriving DecidableEq, Repr

inductive Cause where
  | endOfValue
  | endOfList
  | endOfObject
  | endOfText
  | expectedColon
  | expectedListCommaOrEnd
  | expectedObjectCommaOrEnd
  | expectedIdent
  | expectedValue
  | invalidEscape
  | invalidNumber
  | numberOutOfRange
  | controlCharacter
  | keyMustBeText
  | loneSurrogate
  | endOfHexEscape
  | trailingComma
  | trailingCharacters
  | wrongType (found : Found) (expected : Expected)
  | tooFew (count : Nat) (name : Text) (fields : Nat)
  | repeatedField (name : Text)
  deriving DecidableEq, Repr

/-- A cause and the number of bytes that are left where it shows. -/
structure Fault where
  cause : Cause
  left : Nat
  deriving DecidableEq, Repr

def Fault.before (cause : Cause) (rest : Text) : Fault := ⟨cause, Text.byteSize rest⟩

/-- A fault shown by the first byte of `rest`, or by its being empty. -/
def Fault.within (cause : Cause) (rest : Text) : Fault := ⟨cause, Text.byteSize rest - 1⟩

/-- A cause with its place in the whole text: lines count from 1, columns are
the bytes since the last newline. -/
structure Complaint where
  cause : Cause
  line : Nat
  column : Nat
  deriving DecidableEq, Repr

def placeAfter : Nat → Nat → Nat → Text → Nat × Nat
  | line, column, n, [] => (line, column + n)
  | line, column, n, c :: t =>
    if n = 0 then (line, column)
    else if c = '\n' then placeAfter (line + 1) 0 (n - 1) t
    else if c.utf8Size ≤ n then placeAfter line (column + c.utf8Size) (n - c.utf8Size) t
    else (line, column + n)

def Complaint.of (whole : Text) (fault : Fault) : Complaint :=
  let (line, column) := placeAfter 1 0 (Text.byteSize whole - fault.left) whole
  ⟨fault.cause, line, column⟩

/-! ### Wording -/

/-- Numbers in messages are positional from 1e-5 to below 1e16. -/
def numberNotation : Decimal.Notation := ⟨-5, 15⟩

/-- A text as messages quote it. Hidden characters are written by their number. -/
def quoted (t : Text) : Text :=
  let escape := fun (c : Char) =>
    if c = '"' ∨ c = '\\' then ['\\', c]
    else if c = '\n' then ['\\', 'n']
    else if c = '\r' then ['\\', 'r']
    else if c = '\t' then ['\\', 't']
    else if c.toNat = 0 then ['\\', '0']
    else if Text.isHidden c then
      ['\\', 'u', '{'] ++ Nat.toDigits 16 c.toNat ++ ['}']
    else [c]
  '"' :: t.flatMap escape ++ ['"']

def Found.describe : Found → Text
  | .null => "null".toList
  | .boolean true => "boolean `true`".toList
  | .boolean false => "boolean `false`".toList
  | .integer negative n =>
    "integer `".toList ++ (if negative then ['-'] else []) ++ Text.decimal n ++ "`".toList
  | .float negative x =>
    "floating point `".toList ++ (if negative then ['-'] else []) ++
      numberNotation.write x.shortest ++ "`".toList
  | .text t => "string ".toList ++ quoted t
  | .sequence => "sequence".toList
  | .map => "map".toList

def Expected.describe : Expected → Text
  | .text => "a string".toList
  | .boolean => "a boolean".toList
  | .sequence => "a sequence".toList
  | .record name => "struct ".toList ++ name

def Cause.message : Cause → Text
  | .endOfValue => "EOF while parsing a value".toList
  | .endOfList => "EOF while parsing a list".toList
  | .endOfObject => "EOF while parsing an object".toList
  | .endOfText => "EOF while parsing a string".toList
  | .expectedColon => "expected `:`".toList
  | .expectedListCommaOrEnd => "expected `,` or `]`".toList
  | .expectedObjectCommaOrEnd => "expected `,` or `\x7d`".toList
  | .expectedIdent => "expected ident".toList
  | .expectedValue => "expected value".toList
  | .invalidEscape => "invalid escape".toList
  | .invalidNumber => "invalid number".toList
  | .numberOutOfRange => "number out of range".toList
  | .controlCharacter =>
    "control character (\\u0000-\\u001F) found while parsing a string".toList
  | .keyMustBeText => "key must be a string".toList
  | .loneSurrogate => "lone leading surrogate in hex escape".toList
  | .endOfHexEscape => "unexpected end of hex escape".toList
  | .trailingComma => "trailing comma".toList
  | .trailingCharacters => "trailing characters".toList
  | .wrongType found expected =>
    "invalid type: ".toList ++ found.describe ++ ", expected ".toList ++ expected.describe
  | .tooFew count name fields =>
    "invalid length ".toList ++ Text.decimal count ++ ", expected struct ".toList ++ name ++
      " with ".toList ++ Text.decimal fields ++ " elements".toList
  | .repeatedField name => "duplicate field `".toList ++ name ++ "`".toList

def Complaint.message (c : Complaint) : Text :=
  c.cause.message ++ " at line ".toList ++ Text.decimal c.line ++
    " column ".toList ++ Text.decimal c.column

end Inlay.Json
