import Inlay.Text

/-!
The tokens of markup: tags, comments, the text between them, and the parts
that are copied as they stand.
-/

namespace Inlay.Html

inductive Token where
  | text (t : Text)
  | tag (raw : Text)
  | comment (raw : Text)
  | verbatim (raw : Text)
  deriving DecidableEq, Repr

def Token.raw : Token → Text
  | .text t => t
  | .tag raw => raw
  | .comment raw => raw
  | .verbatim raw => raw

/-! ### Names of tags -/

def opening (tag : Text) : Text :=
  if Text.startsWith ['<', '/'] tag then tag.take 2 else tag.take 1

def isNamePart (c : Char) : Bool :=
  c.isAlphanum || c == '-' || c == '_' || c == ':' || c == '.'

def writtenName (tag : Text) : Text := (tag.drop (opening tag).length).takeWhile isNamePart

/-- Names are compared without regard to ASCII case. -/
def lowered (t : Text) : Text := t.map Char.toLower

def tagName (tag : Text) : Text := lowered (writtenName tag)

def isClosing (tag : Text) : Bool := Text.startsWith ['<', '/'] tag

def verbatimElements : List Text :=
  ["pre", "textarea", "script", "style"].map String.toList

def hasVerbatimContent (tag : Text) : Bool :=
  !isClosing tag && !Text.endsWith ['/', '>'] tag && verbatimElements.contains (tagName tag)

/-! ### Reading tokens -/

/-- Whether a tag, a declaration or a comment starts here. -/
def opens : Text → Bool
  | '<' :: '/' :: c :: _ => c.isAlpha
  | '<' :: c :: _ => c == '!' || c == '?' || c.isAlpha
  | _ => false

/-- The number of characters up to the `>` that stands in no quotes. `quote`
is the quote that is open. -/
def tagEnd? : Option Char → Text → Option Nat
  | _, [] => none
  | some q, c :: t => (tagEnd? (if c = q then none else some q) t).map (· + 1)
  | none, c :: t =>
    if c = '>' then some 1
    else (tagEnd? (if c = '"' ∨ c = '\'' then some c else none) t).map (· + 1)

/-- The size of a comment; one that is not closed goes on to the end. -/
def commentSize (t : Text) : Nat :=
  match Text.indexOf? "-->".toList (t.drop 4) with
  | some n => n + 7
  | none => t.length

def contentSize (name t : Text) : Nat :=
  (Text.indexOf? ('<' :: '/' :: name) (lowered t)).getD t.length

def textSize : Text → Nat
  | [] => 0
  | c :: t => if opens (c :: t) then 0 else textSize t + 1

/-- The tokens that start in front of a text, and the number of characters
that they cover. -/
def front (t : Text) : List Token × Nat :=
  if Text.startsWith "<!--".toList t then
    let size := commentSize t
    ([.comment (t.take size)], size)
  else
    match if opens t then tagEnd? none t else none with
    | none =>
      let size := textSize (t.drop 1) + 1
      ([.text (t.take size)], size)
    | some size =>
      let raw := t.take size
      if Text.startsWith ['<', '!'] raw || Text.startsWith ['<', '?'] raw then
        ([.verbatim raw], size)
      else if hasVerbatimContent raw then
        let content := contentSize (tagName raw) (t.drop size)
        if content = 0 then ([.tag raw], size)
        else ([.tag raw, .verbatim ((t.drop size).take content)], size + content)
      else ([.tag raw], size)

def tokenize (t : Text) : List Token := Text.walk front 0 t

end Inlay.Html
