import Inlay.Html.Binding
import Inlay.Html.Token

/-!
Minifying a component template: white space shrinks where it means nothing,
comments go when they are not wanted, and bindings stay as they are.
-/

namespace Inlay.Html

structure Settings where
  /-- Names of tags keep their case. -/
  keepCase : Bool
  collapseSpace : Bool
  dropComments : Bool

def Settings.forTemplates (compress : Bool) : Settings := ⟨true, true, compress⟩

/-! ### Comments -/

def isConditional (comment : Text) : Bool :=
  Text.startsWith "<!--[if".toList comment || Text.startsWith "<!--<!".toList comment ||
    Text.endsWith "<![endif]-->".toList comment

def Settings.drops (s : Settings) : Token → Bool
  | .comment raw => s.dropComments && !isConditional raw
  | _ => false

def mergeTexts : List Token → List Token
  | [] => []
  | .text a :: rest =>
    match mergeTexts rest with
    | .text b :: more => .text (a ++ b) :: more
    | more => .text a :: more
  | token :: rest => token :: mergeTexts rest

def Settings.clean (s : Settings) (tokens : List Token) : List Token :=
  mergeTexts (tokens.filter fun token => !s.drops token)

/-! ### White space in text -/

/-- Elements that flow with text: a space next to them can be seen. -/
def inlineElements : List Text :=
  ["a", "abbr", "acronym", "b", "bdi", "bdo", "big", "br", "button", "cite", "code", "del",
    "dfn", "em", "font", "i", "img", "input", "ins", "kbd", "label", "mark", "math", "nobr",
    "object", "q", "rp", "rt", "rtc", "ruby", "s", "samp", "select", "small", "span",
    "strike", "strong", "sub", "sup", "svg", "textarea", "time", "tt", "u", "var",
    "wbr"].map String.toList

def voidElements : List Text := ["br", "img", "input", "wbr"].map String.toList

def keepsSpaceBehind : Option Token → Bool
  | some (.tag raw) =>
    inlineElements.contains (tagName raw) &&
      (isClosing raw || voidElements.contains (tagName raw))
  | some (.comment _) => true
  | some (.text _) => true
  | some (.verbatim _) => false
  | none => false

def keepsSpaceBefore : Option Token → Bool
  | some (.tag raw) => !isClosing raw && inlineElements.contains (tagName raw)
  | some (.comment _) => true
  | some (.text _) => true
  | some (.verbatim _) => false
  | none => false

/-- A text between two tokens with each white space run made one space, or
nothing at an end where it cannot be seen. -/
def collapseText (before : Option Token) (t : Text) (behind : Option Token) : Text :=
  let collapsed := Text.collapse t
  let started := if keepsSpaceBehind before then collapsed else Text.trimStart collapsed
  if keepsSpaceBefore behind then started else Text.trimEnd started

/-! ### White space in tags -/

/-- Makes one space of each white space run outside quotes, and nothing of one
that stands in front of the tag's end or of a marker: a binding brings its own
white space. `quote` is the quote that is open, `pending` says whether white
space was just passed. -/
def collapseTagFrom : Option Char → Bool → Text → Text
  | _, _, [] => []
  | some q, pending, c :: t => c :: collapseTagFrom (if c = q then none else some q) pending t
  | none, pending, c :: t =>
    if Text.isBlank c then collapseTagFrom none true t
    else
      let closes := c == '>' || (c == '/' && t.head? == some '>')
      let space := if pending && !closes && c != markerOpen then [' '] else []
      let quote := if c = '"' ∨ c = '\'' then some c else none
      space ++ c :: collapseTagFrom quote false t

def collapseTag (raw : Text) : Text := collapseTagFrom none false raw

def lowerName (tag : Text) : Text :=
  opening tag ++ lowered (writtenName tag) ++
    tag.drop ((opening tag).length + (writtenName tag).length)

/-! ### All together -/

/-- Writes tokens; `before` is the token in front of them. -/
def Settings.renderFrom (s : Settings) (before : Option Token) : List Token → Text
  | [] => []
  | token :: rest =>
    let written := match token with
      | .text t => if s.collapseSpace then collapseText before t rest.head? else t
      | .tag raw =>
        let tag := if s.collapseSpace then collapseTag raw else raw
        if s.keepCase then tag else lowerName tag
      | .comment raw => raw
      | .verbatim raw => raw
    written ++ s.renderFrom (some token) rest

def Settings.render (s : Settings) (tokens : List Token) : Text := s.renderFrom none tokens

def Settings.minify (s : Settings) (html : Text) : Text :=
  let guarded := protect html
  restore guarded.bindings (s.render (s.clean (tokenize guarded.text)))

end Inlay.Html
