import Inlay.Text

/-!
Annotations in source text: `styleUrls` with a list in brackets, and
`templateUrl` with an address in quotes. An annotation may have a comment's
opener in front. Each reader here reads from the front of a text and gives
what is left; where the readers succeed is where the annotations are.
-/

namespace Inlay.Annotation

def isMark (c : Char) : Bool := c == '/' || c == '*'

/-- Reads a key and the colon behind it, with white space around the colon. -/
def key? (key t : Text) : Option Text := do
  match Text.trimStart (← Text.after? key t) with
  | ':' :: rest => some (Text.trimStart rest)
  | _ => none

/-- Reads what `body` reads, behind a comment's opener. White space may follow
an opener that has a mark. -/
def opened? (body : Text → Option (α × Text)) (t : Text) : Option ((Text × α) × Text) :=
  let marks := t.takeWhile isMark
  let rest := t.dropWhile isMark
  match body rest with
  | some (value, left) => some ((marks, value), left)
  | none =>
    if marks = [] then none
    else
      let opener := marks ++ rest.takeWhile Text.isBlank
      (body (Text.trimStart rest)).map fun (value, left) => ((opener, value), left)

/-! ### Lists of style sheets -/

structure StyleUrls where
  opener : Text
  list : Text
  deriving DecidableEq, Repr

/-- Reads a list up to the first closing bracket behind its first two
characters. The second of these is no newline. -/
def list? : Text → Option (Text × Text)
  | '[' :: first :: second :: t =>
    match t.dropWhile (· ≠ ']') with
    | close :: rest =>
      if second = '\n' then none
      else some ('[' :: first :: second :: t.takeWhile (· ≠ ']') ++ [close], rest)
    | [] => none
  | _ => none

def styleKey : Text := "styleUrls".toList

def styleUrls? (t : Text) : Option (StyleUrls × Text) :=
  (opened? (fun t => (key? styleKey t).bind list?) t).map
    fun ((opener, list), left) => (⟨opener, list⟩, left)

/-! ### Addresses of templates -/

structure TemplateUrl where
  opener : Text
  url : Text
  quote : Char
  deriving DecidableEq, Repr

def url? : Text → Option ((Text × Char) × Text)
  | [] => none
  | q :: t =>
    let url := t.takeWhile (· ≠ q)
    match t.dropWhile (· ≠ q) with
    | _ :: rest => if (q = '"' ∨ q = '\'') ∧ url ≠ [] then some ((url, q), rest) else none
    | [] => none

def templateKey : Text := "templateUrl".toList

def templateUrl? (t : Text) : Option (TemplateUrl × Text) :=
  (opened? (fun t => (key? templateKey t).bind url?) t).map
    fun ((opener, url, quote), left) => (⟨opener, url, quote⟩, left)

/-! ### Annotations in a text -/

def styleUrls (t : Text) : List (Span × StyleUrls) :=
  Text.located 0 (Text.pieces styleUrls? t)

def templateUrls (t : Text) : List (Span × TemplateUrl) :=
  Text.located 0 (Text.pieces templateUrl? t)

/-- Whether a comment's opener has more than white space. -/
def commentsOut (opener : Text) : Bool := Text.trim opener ≠ []

def StyleUrls.isCommentedOut (a : StyleUrls) : Bool := commentsOut a.opener

def TemplateUrl.isCommentedOut (a : TemplateUrl) : Bool := commentsOut a.opener

end Inlay.Annotation
