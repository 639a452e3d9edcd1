import Inlay.Text

/-!
The characters of TOML documents: white space, comments, and strings.
-/

namespace Inlay.Toml

/-! ### Characters -/

def isSpace (c : Char) : Bool := c == ' ' || c == '\t'

def skipSpace (t : Text) : Text := t.dropWhile isSpace

def isForbidden (c : Char) : Bool := (c.toNat < 0x20 && c != '\t') || c.toNat == 0x7F

def newline? : Text → Option Text
  | '\n' :: t => some t
  | '\r' :: '\n' :: t => some t
  | _ => none

def comment? (t : Text) : Option Text :=
  match t with
  | '#' :: t =>
    let rest := t.dropWhile fun c => !isForbidden c
    if rest = [] ∨ (newline? rest).isSome then some rest else none
  | _ => some t

/-- Passes over white space, newlines and comments. The first argument bounds
the number of lines. -/
def skipLines : Nat → Text → Option Text
  | 0, t => some t
  | lines + 1, t => do
    let t ← comment? (skipSpace t)
    match newline? t with
    | some rest => skipLines lines rest
    | none => some t

def endLine? (t : Text) : Option Text := do
  let t ← comment? (skipSpace t)
  if t = [] then some [] else newline? t

/-! ### Strings -/

def hexValue? (digits : Text) : Option Nat :=
  digits.foldlM (fun n c => (Text.hexDigit? c).map (n * 16 + ·)) 0

def codePoint? (size : Nat) (t : Text) : Option (Char × Nat) := do
  let digits := t.take size
  if digits.length = size then
    let n ← hexValue? digits
    if n.isValidChar then some (Char.ofNat n, size) else none
  else none

/-- The character that follows a backslash stands for, and its size. -/
def escape? : Text → Option (Char × Nat)
  | 'b' :: _ => some ('\x08', 1)
  | 't' :: _ => some ('\t', 1)
  | 'n' :: _ => some ('\n', 1)
  | 'f' :: _ => some ('\x0c', 1)
  | 'r' :: _ => some ('\r', 1)
  | '"' :: _ => some ('"', 1)
  | '\\' :: _ => some ('\\', 1)
  | 'u' :: t => (codePoint? 4 t).map fun (c, n) => (c, n + 1)
  | 'U' :: t => (codePoint? 8 t).map fun (c, n) => (c, n + 1)
  | _ => none

/-- Reads a string on one line up to its closing quote `q`; escapes count in
double quotes only. The first argument counts characters already covered. -/
def line? (q : Char) : Nat → Text → Option (Text × Text)
  | _, [] => none
  | k + 1, _ :: t => line? q k t
  | 0, c :: t =>
    if c = q then some ([], t)
    else if c = '\\' ∧ q = '"' then do
      let (e, size) ← escape? t
      let (s, rest) ← line? q size t
      some (e :: s, rest)
    else if isForbidden c then none
    else (line? q 0 t).map fun (s, rest) => (c :: s, rest)

/-- The size of the white space and the newlines in front. -/
def blankSize : Text → Nat
  | '\r' :: '\n' :: t => blankSize t + 2
  | c :: t => if isSpace c ∨ c = '\n' then blankSize t + 1 else 0
  | [] => 0

/-- Reads three closing quotes, and as a part of the string up to two quotes
in front of them. -/
def closing? (q : Char) (t : Text) : Option (Text × Text) :=
  let quotes := (t.takeWhile (· == q)).length
  if quotes < 3 then none
  else
    let spare := min (quotes - 3) 2
    some (List.replicate spare q, t.drop (spare + 3))

/-- Reads a string over several lines up to three closing quotes. A newline is
a line feed, however it is written, and a backslash in double quotes hides one
with the white space and the newlines behind it. -/
def lines? (q : Char) : Nat → Text → Option (Text × Text)
  | _, [] => none
  | k + 1, _ :: t => lines? q k t
  | 0, c :: t =>
    match closing? q (c :: t) with
    | some closed => some closed
    | none =>
      if c = '\\' ∧ q = '"' then
        if (newline? (skipSpace t)).isSome then lines? q (blankSize t) t
        else do
          let (e, size) ← escape? t
          let (s, rest) ← lines? q size t
          some (e :: s, rest)
      else match newline? (c :: t) with
        | some rest =>
          (lines? q (t.length - rest.length) t).map fun (s, rest) => ('\n' :: s, rest)
        | none =>
          if isForbidden c then none
          else (lines? q 0 t).map fun (s, rest) => (c :: s, rest)

def string? (q : Char) (t : Text) : Option (Text × Text) := do
  match Text.after? [q, q, q] t with
  | some body => lines? q 0 ((newline? body).getD body)
  | none => line? q 0 (← Text.after? [q] t)

end Inlay.Toml
