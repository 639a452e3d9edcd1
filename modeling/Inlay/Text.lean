/-!
Text as a list of characters, with the notions every other module uses:
sizes in bytes, white space, line breaks, and the structural walk on which
all searching is built. Nothing here knows what the text means.
-/

namespace Inlay

/-- All text of the library. Functions on it recurse on the characters. -/
abbrev Text := List Char

namespace Text

/-- The number of bytes of the UTF-8 form. -/
def byteSize : Text → Nat
  | [] => 0
  | c :: t => c.utf8Size + byteSize t

/-- The characters with the Unicode property White_Space. -/
def isBlank (c : Char) : Bool :=
  let n := c.toNat
  (0x09 ≤ n && n ≤ 0x0D) || n == 0x20 || n == 0x85 || n == 0xA0 || n == 0x1680 ||
    (0x2000 ≤ n && n ≤ 0x200A) || n == 0x2028 || n == 0x2029 || n == 0x202F ||
    n == 0x205F || n == 0x3000

def isBreak (c : Char) : Bool := c == '\r' || c == '\n'

def withoutBreaks (t : Text) : Text := t.filter (!isBreak ·)

def trimStart (t : Text) : Text := t.dropWhile isBlank

def trimEnd (t : Text) : Text := (t.reverse.dropWhile isBlank).reverse

def trim (t : Text) : Text := trimEnd (trimStart t)

/-- Each maximal run of white space becomes one space; `inRun` says whether
the last character read was in such a run. -/
def collapseFrom : Bool → Text → Text
  | _, [] => []
  | inRun, c :: t =>
    if isBlank c then
      if inRun then collapseFrom true t else ' ' :: collapseFrom true t
    else c :: collapseFrom false t

def collapse (t : Text) : Text := collapseFrom false t

def decimal (n : Nat) : Text := Nat.toDigits 10 n

def hexDigit? (c : Char) : Option Nat :=
  if c.isDigit then some (c.toNat - 48)
  else if 'a' ≤ c ∧ c ≤ 'f' then some (c.toNat - 87)
  else if 'A' ≤ c ∧ c ≤ 'F' then some (c.toNat - 55)
  else none

/-! ### Front and back -/

/-- What follows `p` when the text starts with `p`. -/
def after? : Text → Text → Option Text
  | [], t => some t
  | p :: ps, c :: t => if p = c then after? ps t else none
  | _ :: _, [] => none

def startsWith (p t : Text) : Bool := (after? p t).isSome

def before? (s t : Text) : Option Text :=
  (after? s.reverse t.reverse).map List.reverse

def endsWith (s t : Text) : Bool := (before? s t).isSome

/-- The number of characters in front of the first occurrence of `p`. -/
def indexOf? (p : Text) : Text → Option Nat
  | [] => if p = [] then some 0 else none
  | c :: t => if startsWith p (c :: t) then some 0 else (indexOf? p t).map (· + 1)

def split (sep : Char) : Text → List Text
  | [] => [[]]
  | c :: t =>
    if c = sep then [] :: split sep t
    else match split sep t with
      | [] => [[c]]
      | part :: parts => (c :: part) :: parts

def join (sep : Text) (parts : List Text) : Text := (parts.intersperse sep).flatten

/-! ### Places counted in bytes -/

/-- What is left after `n` bytes; a character that is cut is left out. -/
def dropBytes : Nat → Text → Text
  | _, [] => []
  | n, c :: t => if n = 0 then c :: t else dropBytes (n - c.utf8Size) t

/-- The characters that start within the first `n` bytes. -/
def takeBytes : Nat → Text → Text
  | _, [] => []
  | n, c :: t => if n = 0 then [] else c :: takeBytes (n - c.utf8Size) t

/-- The line, counted from 1, of the place `offset` bytes into the text. -/
def lineAt (t : Text) (offset : Nat) : Nat := (takeBytes offset t).count '\n' + 1

/-! ### Walking and searching -/

/-- Walks a list from the front. At each place that no earlier step covers,
`step` sees all that is left and answers what stands there and how many
members that covers, at least one. The first argument counts the members that
are covered already. -/
def walk (step : List β → List α × Nat) : Nat → List β → List α
  | _, [] => []
  | k + 1, _ :: t => walk step k t
  | 0, c :: t =>
    let here := step (c :: t)
    here.1 ++ walk step (here.2 - 1) t

/-- A part of a text that was searched for a pattern: a character outside
every occurrence, or an occurrence as it stands with what was read from it. -/
inductive Piece (α : Type) where
  | plain (c : Char)
  | hit (raw : Text) (value : α)

/-- Cuts a text at the occurrences of a pattern, leftmost first and without
overlap. `here` reads an occurrence at the front and gives what is left. -/
def pieces (here : Text → Option (α × Text)) : Text → List (Piece α) :=
  walk (fun t => match here t with
    | none => ((t.take 1).map Piece.plain, 1)
    | some (value, rest) =>
      let size := t.length - rest.length
      ([.hit (t.take size) value], size)) 0

end Text

/-- A stretch of a text, by the byte offsets of its two ends. -/
structure Span where
  start : Nat
  stop : Nat
  deriving DecidableEq, Repr

namespace Text

/-- The occurrences in a text that was cut into pieces, each with its span;
`offset` is where the first piece starts. -/
def located : Nat → List (Piece α) → List (Span × α)
  | _, [] => []
  | offset, .plain c :: ps => located (offset + c.utf8Size) ps
  | offset, .hit raw value :: ps =>
    (⟨offset, offset + byteSize raw⟩, value) :: located (offset + byteSize raw) ps

/-- Replaces spans that are sorted and do not overlap; `offset` is where the
text that is left starts. -/
def spliceFrom (offset : Nat) (t : Text) : List (Span × Text) → Text
  | [] => t
  | (span, replacement) :: rest =>
    takeBytes (span.start - offset) t ++ replacement ++
      spliceFrom span.stop (dropBytes (span.stop - offset) t) rest

def splice (t : Text) (replacements : List (Span × Text)) : Text :=
  spliceFrom 0 t replacements

end Text

end Inlay
