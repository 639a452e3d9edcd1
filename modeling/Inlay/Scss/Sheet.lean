import Inlay.Scss.Value

/-!
SCSS style sheets as statements, and reading them.
-/

namespace Inlay.Scss

structure Selector where
  tokens : List Css.Token
  ownLine : Bool
  deriving DecidableEq, Repr

structure Parameter where
  name : Text
  fallback : Option Value
  deriving DecidableEq, Repr

/-- How far an assignment reaches: it may yield to a value that is there, and
it may concern the whole sheet wherever it stands. -/
structure Reach where
  yields : Bool
  whole : Bool
  deriving DecidableEq, Repr

/-- The statements of a sheet or a block in their order, each with the ones
behind it, so that one structural recursion sees them all. -/
inductive Body where
  | done
  | comment (content : Text) (rest : Body)
  | assign (name : Text) (value : Value) (reach : Reach) (rest : Body)
  | define (name : Text) (parameters : List Parameter) (body rest : Body)
  | expand (name : Text) (arguments : List Value) (rest : Body)
  | load (name : Text) (rest : Body)
  | declare (name : Text) (value : Value) (rest : Body)
  | rule (selectors : List Selector) (body rest : Body)
  | group (head : Text) (body rest : Body)
  | plain (statement : Text) (rest : Body)
  deriving DecidableEq, Repr

/-! ### Heads of statements -/

/-- Passes over white space and comments that end with their line. The flag
says whether such a comment is open. -/
def skipBlank : Bool → Text → Text
  | _, [] => []
  | true, c :: t => skipBlank (c ≠ '\n') t
  | false, c :: t =>
    if Css.isSpace c then skipBlank false t
    else if c = '/' ∧ t.head? = some '/' then skipBlank true t
    else c :: t

/-- Where a reader of heads is: in plain text, in quotes with or without a
backslash in front, in a comment to the end of the line, at the second
character of a comment between two marks, or in such a comment. -/
inductive Zone where
  | code
  | quoted (q : Char) (escaped : Bool)
  | lineComment
  | commentStart
  | comment (star : Bool)
  deriving DecidableEq, Repr

/-- Reads up to a semicolon or a brace. Comments become spaces. `depth` is the
number of open parentheses, in which no comment starts. -/
def readHead : Zone → Nat → Text → Except Fault (Text × Text)
  | .code, _, [] => .ok ([], [])
  | .lineComment, _, [] => .ok ([], [])
  | .quoted _ _, _, [] => .error .unclosedText
  | .commentStart, _, [] => .error .unclosedComment
  | .comment _, _, [] => .error .unclosedComment
  | .code, depth, c :: t =>
    if depth = 0 ∧ (c = ';' ∨ c = '{' ∨ c = '}') then .ok ([], c :: t)
    else if depth = 0 ∧ c = '/' ∧ t.head? = some '/' then readHead .lineComment depth t
    else if depth = 0 ∧ c = '/' ∧ t.head? = some '*' then
      (readHead .commentStart depth t).map fun (head, rest) => (' ' :: head, rest)
    else
      let zone := if c = '"' ∨ c = '\'' then .quoted c false else .code
      let depth := if c = '(' then depth + 1 else if c = ')' then depth - 1 else depth
      (readHead zone depth t).map fun (head, rest) => (c :: head, rest)
  | .quoted q escaped, depth, c :: t =>
    if c = '\n' ∧ !escaped then .error .unclosedText
    else
      let zone := if escaped then .quoted q false
        else if c = q then .code else .quoted q (c = '\\')
      (readHead zone depth t).map fun (head, rest) => (c :: head, rest)
  | .lineComment, depth, c :: t =>
    if c = '\n' then (readHead .code depth t).map fun (head, rest) => (c :: head, rest)
    else readHead .lineComment depth t
  | .commentStart, depth, _ :: t => readHead (.comment false) depth t
  | .comment star, depth, c :: t =>
    readHead (if star ∧ c = '/' then .code else .comment (c = '*')) depth t

def cutAtCommas : Nat → Option Char → Text → List Text
  | _, _, [] => [[]]
  | depth, quote, c :: t =>
    let quote' := match quote with
      | some q => if c = q then none else some q
      | none => if c = '"' ∨ c = '\'' then some c else none
    let depth' := if quote.isSome then depth
      else if c = '(' ∨ c = '[' then depth + 1
      else if c = ')' ∨ c = ']' then depth - 1 else depth
    let parts := cutAtCommas depth' quote' t
    if c = ',' ∧ depth = 0 ∧ quote.isNone then [] :: parts
    else match parts with
      | part :: more => (c :: part) :: more
      | [] => [[c]]

/-- The parts between commas; the last one may be left out. -/
def listed (t : Text) : List Text :=
  let parts := (cutAtCommas 0 none t).map Text.trim
  if parts.getLast? = some [] then parts.dropLast else parts

/-! ### Statements -/

def readSelectors (head : Text) : Except Fault (List Selector) :=
  (cutAtCommas 0 none head).mapM fun part =>
    match Css.tokens? part with
    | some tokens =>
      let tokens := Css.trimSpaces tokens
      if tokens = [] then .error (.badSelector head)
      else .ok ⟨tokens, (part.takeWhile Css.isSpace).any Css.isNewline⟩
    | none => .error (.badSelector head)

def readCall (t : Text) : Except Fault (Text × List Text) :=
  let size := nameSize t
  let name := nameKey (t.take size)
  match Text.trimStart (t.drop size) with
  | [] => if name = [] then .error (.badStatement t) else .ok (name, [])
  | '(' :: rest =>
    match Text.before? [')'] rest with
    | some inside => if name = [] then .error (.badStatement t) else .ok (name, listed inside)
    | none => .error (.badStatement t)
  | _ => .error (.badStatement t)

def atColon? (t : Text) : Option (Text × Text) :=
  match t.dropWhile (· ≠ ':') with
  | _ :: value => some (Text.trim (t.takeWhile (· ≠ ':')), Text.trim value)
  | [] => none

def readValue (name t : Text) : Except Fault Value := do
  let value ← Value.read t
  if value = [] then .error (.noValue name) else .ok value

def readVariableName (t : Text) : Except Fault Text :=
  match t with
  | '$' :: name =>
    if Css.startsName name ∧ nameSize name = name.length then .ok (nameKey name)
    else .error (.badStatement t)
  | _ => .error (.badStatement t)

def readParameter (t : Text) : Except Fault Parameter := do
  match atColon? t with
  | some (name, value) =>
    let name ← readVariableName name
    .ok ⟨name, some (← readValue name value)⟩
  | none => .ok ⟨← readVariableName t, none⟩

/-- Takes a flag off the end of a value. -/
def takeFlag : Text × Reach → Text × Reach
  | (t, reach) =>
    match Text.before? "!default".toList t, Text.before? "!global".toList t with
    | some value, _ => (Text.trimEnd value, { reach with yields := true })
    | none, some value => (Text.trimEnd value, { reach with whole := true })
    | none, none => (t, reach)

/-- A value without the flags behind it, and what these say. -/
def splitFlags (t : Text) : Text × Reach := takeFlag (takeFlag (t, ⟨false, false⟩))

def readAssignment (head : Text) (rest : Body) : Except Fault Body := do
  match atColon? head with
  | some (name, value) =>
    let name ← readVariableName name
    let (value, reach) := splitFlags value
    .ok (.assign name (← readValue name value) reach rest)
  | none => .error (.badStatement head)

def readDeclaration (head : Text) (rest : Body) : Except Fault Body := do
  match atColon? head with
  | some (name, value) =>
    if Css.startsName name ∧ nameSize name = name.length then
      .ok (.declare name (← readValue name value) rest)
    else .error (.badStatement head)
  | none => .error (.noValue head)

def isPlainImport (name : Text) : Bool :=
  Text.endsWith ".css".toList name || Text.startsWith "http://".toList name ||
    Text.startsWith "https://".toList name || Text.startsWith ['/', '/'] name

def readImport (t : Text) (rest : Body) : Except Fault Body := do
  match t with
  | [] => .error (.badStatement t)
  | q :: inside =>
    if q = '"' ∨ q = '\'' then
      match Css.Quoted.decode q inside with
      | some (name, []) =>
        if isPlainImport name then .ok (.plain ("@import ".toList ++ t) rest)
        else .ok (.load name rest)
      | some (_, _) => .ok (.plain ("@import ".toList ++ t) rest)
      | none => .error .unclosedText
    else if Text.startsWith "url(".toList t then .ok (.plain ("@import ".toList ++ t) rest)
    else .error (.badStatement t)

def splitAt (head : Text) : Text × Text :=
  let size := nameSize (head.drop 1)
  ((head.drop 1).take size, Text.trim (head.drop (size + 1)))

def readPlain (head : Text) (rest : Body) : Except Fault Body := do
  match head with
  | '$' :: _ => readAssignment head rest
  | '@' :: _ =>
    let (name, argument) := splitAt head
    if name = "include".toList then
      let (mixin, arguments) ← readCall argument
      .ok (.expand mixin (← arguments.mapM Value.read) rest)
    else if name = "import".toList then
      (listed argument).foldrM readImport rest
    else if name = "charset".toList then .ok rest
    else if name = [] ∨ name = "mixin".toList then .error (.badStatement head)
    else .ok (.plain head rest)
  | _ => readDeclaration head rest

def readBlock (head : Text) (body rest : Body) : Except Fault Body := do
  match head with
  | '@' :: _ =>
    let (name, argument) := splitAt head
    if name = "mixin".toList then
      let (mixin, parameters) ← readCall argument
      .ok (.define mixin (← parameters.mapM readParameter) body rest)
    else if name = [] ∨ name = "include".toList ∨ name = "import".toList then
      .error (.badStatement head)
    else .ok (.group (Text.collapse head) body rest)
  | _ => .ok (.rule (← readSelectors head) body rest)

/-- Reads statements up to the end of the text, or of the block if `nested`.
The first argument bounds their number. -/
def readBody : Nat → Bool → Text → Except Fault (Body × Text)
  | 0, _, _ => .error .tooDeep
  | more + 1, nested, t =>
    match skipBlank false t with
    | [] => if nested then .error .unclosedBlock else .ok (.done, [])
    | '}' :: rest => if nested then .ok (.done, rest) else .error .strayBrace
    | ';' :: rest => readBody more nested rest
    | '/' :: '*' :: inside =>
      match Text.indexOf? ['*', '/'] inside with
      | none => .error .unclosedComment
      | some size => do
        let (statements, left) ← readBody more nested (inside.drop (size + 2))
        .ok (.comment (inside.take size) statements, left)
    | start => do
      let (head, rest) ← readHead .code 0 start
      match rest with
      | '{' :: inside =>
        let (body, behind) ← readBody more true inside
        let (statements, left) ← readBody more nested behind
        .ok (← readBlock (Text.trimEnd head) body statements, left)
      | _ =>
        let (statements, left) ← readBody more nested rest
        .ok (← readPlain (Text.trimEnd head) statements, left)

/-- Reads a style sheet. Each statement has at least one character. -/
def readSheet (t : Text) : Except Fault Body :=
  (readBody (t.length + 1) false t).map Prod.fst

end Inlay.Scss
