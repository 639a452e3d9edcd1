import Inlay.Text

/-!
Text as UTF-8 bytes: writing it, reading it back, and reading it with a
replacement character for each stretch of bytes that no character has.
-/

namespace Inlay

abbrev Bytes := List UInt8

namespace Utf8

def encode (t : Text) : Bytes := t.flatMap String.utf8EncodeChar

/-- What may follow a first byte: a least and a greatest value for each byte
of the character. None for a byte that starts no character. -/
def followers (b : UInt8) : Option (List (UInt8 × UInt8)) :=
  if b < 0x80 then some []
  else if b < 0xC2 then none
  else if b < 0xE0 then some [(0x80, 0xBF)]
  else if b = 0xE0 then some [(0xA0, 0xBF), (0x80, 0xBF)]
  else if b = 0xED then some [(0x80, 0x9F), (0x80, 0xBF)]
  else if b < 0xF0 then some [(0x80, 0xBF), (0x80, 0xBF)]
  else if b = 0xF0 then some [(0x90, 0xBF), (0x80, 0xBF), (0x80, 0xBF)]
  else if b < 0xF4 then some [(0x80, 0xBF), (0x80, 0xBF), (0x80, 0xBF)]
  else if b = 0xF4 then some [(0x80, 0x8F), (0x80, 0xBF), (0x80, 0xBF)]
  else none

/-- Takes the bytes that fit the ranges: their number, and whether the bytes
ended before the ranges did. -/
def fitting : List (UInt8 × UInt8) → Bytes → Nat × Bool
  | [], _ => (0, false)
  | _ :: _, [] => (0, true)
  | (low, high) :: ranges, b :: bs =>
    if low ≤ b ∧ b ≤ high then
      let (n, ended) := fitting ranges bs
      (n + 1, ended)
    else (0, false)

/-- The code point of a first byte followed by `more`. -/
def codePoint (first : UInt8) (more : Bytes) : Nat :=
  let lead := match more.length with
    | 0 => first.toNat
    | 1 => first.toNat - 0xC0
    | 2 => first.toNat - 0xE0
    | _ => first.toNat - 0xF0
  more.foldl (fun n b => n * 64 + (b.toNat - 0x80)) lead

/-- A character, or a stretch of bytes that can start none. The size of such
a stretch is unknown when the bytes end within it. -/
inductive Chunk where
  | char (c : Char)
  | bad (size : Option Nat)

/-- The chunk in front of some bytes, and the number of bytes it covers. -/
def front : Bytes → List Chunk × Nat
  | [] => ([], 1)
  | b :: bs =>
    match followers b with
    | none => ([.bad (some 1)], 1)
    | some ranges =>
      let (n, ended) := fitting ranges bs
      if n = ranges.length then ([.char (Char.ofNat (codePoint b (bs.take n)))], n + 1)
      else if ended then ([.bad none], n + 1)
      else ([.bad (some (n + 1))], n + 1)

def chunks (bs : Bytes) : List Chunk := Text.walk front 0 bs

structure Fault where
  index : Nat
  size : Option Nat
  deriving DecidableEq, Repr

def collect : Nat → List Chunk → Except Fault Text
  | _, [] => .ok []
  | index, .char c :: cs => (collect (index + c.utf8Size) cs).map (c :: ·)
  | index, .bad size :: _ => .error ⟨index, size⟩

def decode (bs : Bytes) : Except Fault Text := collect 0 (chunks bs)

/-- Reads bytes with a replacement character for each bad stretch. -/
def decodeLossy (bs : Bytes) : Text :=
  (chunks bs).map fun
    | .char c => c
    | .bad _ => '\uFFFD'

def Fault.message (f : Fault) : Text :=
  match f.size with
  | some n =>
    "invalid utf-8 sequence of ".toList ++ Text.decimal n ++ " bytes from index ".toList ++
      Text.decimal f.index
  | none => "incomplete utf-8 byte sequence from index ".toList ++ Text.decimal f.index

end Utf8

end Inlay
