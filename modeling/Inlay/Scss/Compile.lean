import Inlay.Css.Selector
import Inlay.Path
import Inlay.Scss.Sheet
import Inlay.Text.Utf8

/-!
Compiling SCSS: statements run from top to bottom, nested rules are written
one behind the other under full selectors, and names are looked up in the
block where they stand and then in the ones around it.
-/

namespace Inlay.Scss

/-- The style sheets that can be imported: the file at a path, if there is
one, and the directories to look in. -/
structure Library where
  file? : Text → Option Bytes
  loadPaths : List Text

/-! ### Names -/

abbrev Scope := List (Text × Value)

structure Mixin where
  parameters : List Parameter
  body : Body
  depth : Nat

/-- The scopes, innermost first, and the mixins, last one first. The last
scope is that of the whole sheet. -/
structure Names where
  scopes : List Scope
  mixins : List (Text × Mixin)

def Names.start : Names := ⟨[[]], []⟩

def Names.find? (s : Names) (name : Text) : Option Value :=
  s.scopes.findSome? (·.lookup name)

def Scope.set (name : Text) (value : Value) (scope : Scope) : Scope :=
  (name, value) :: scope.filter (·.1 ≠ name)

def setWhole (name : Text) (value : Value) : List Scope → List Scope
  | [] => []
  | [scope] => [scope.set name value]
  | scope :: outer => scope :: setWhole name value outer

/-- Sets a name in the innermost scope that has it, the last scope apart. -/
def setInner? (name : Text) (value : Value) : List Scope → Option (List Scope)
  | [] => none
  | [_] => none
  | scope :: outer =>
    if (scope.lookup name).isSome then some (scope.set name value :: outer)
    else (setInner? name value outer).map (scope :: ·)

/-- Sets a name where an assignment of that reach belongs. A new name goes
into the innermost scope, even if the whole sheet has one of that name. -/
def Names.assign (s : Names) (name : Text) (value : Value) (reach : Reach) : Names :=
  if reach.yields ∧ (s.find? name).isSome then s
  else
    let scopes :=
      if reach.whole then setWhole name value s.scopes
      else match setInner? name value s.scopes with
        | some scopes => scopes
        | none => match s.scopes with
          | scope :: outer => scope.set name value :: outer
          | [] => []
    { s with scopes }

def Names.enter (s : Names) (scope : Scope) : Names := { s with scopes := scope :: s.scopes }

def Names.leave (s : Names) : Names := { s with scopes := s.scopes.drop 1 }

def Names.value (s : Names) (v : Value) : Except Fault Value := v.evaluate s.find?

/-- The scope in which a mixin runs. The fallback of a parameter may refer to
the parameters in front of it. -/
def Names.bind (s : Names) (mixin : Text) :
    List Parameter → List Value → Scope → Except Fault Scope
  | [], [], scope => .ok scope
  | [], _ :: _, _ => .error (.spareArgument mixin)
  | parameter :: more, argument :: others, scope => do
    let value ← s.value argument
    s.bind mixin more others (scope.set parameter.name value)
  | parameter :: more, [], scope =>
    match parameter.fallback with
    | none => .error (.missingArgument parameter.name)
    | some fallback => do
      let value ← (s.enter scope).value fallback
      s.bind mixin more [] (scope.set parameter.name value)

/-! ### Selectors -/

structure FullSelector where
  text : Text
  ownLine : Bool

def isCombinator (c : Char) : Bool := c == '>' || c == '+' || c == '~'

def startsWithCombinator : List Css.Token → Bool
  | .mark c :: _ => isCombinator c
  | _ => false

/-- Writes the tokens of a selector with single spaces around combinators, and
with `parent` in the places of ampersands. `absorbed` says whether white space
in front means nothing, `depth` counts open brackets. -/
def writeSelector (parent : Text) : Bool → Nat → List Css.Token → Text
  | _, _, [] => []
  | absorbed, depth, .space :: ts =>
    if absorbed || (depth == 0 && startsWithCombinator ts) then
      writeSelector parent absorbed depth ts
    else ' ' :: writeSelector parent false depth ts
  | _, depth, token :: ts =>
    let combines := depth == 0 && startsWithCombinator [token]
    let written :=
      if token = .mark '&' then parent
      else if combines then [' '] ++ token.write ++ [' '] else token.write
    let depth := if token.closing?.isSome then depth + 1
      else if token = .mark ']' ∨ token = .mark ')' then depth - 1 else depth
    written ++ writeSelector parent combines depth ts

/-- A selector below a parent. One without an ampersand describes something
inside of what the parent describes. -/
def Selector.under (s : Selector) (parent : Option FullSelector) : Except Fault FullSelector :=
  let refers := s.tokens.contains (.mark '&')
  let written := writeSelector ((parent.map (·.text)).getD []) false 0 s.tokens
  let text := match parent with
    | some p => if refers then written else p.text ++ ' ' :: Text.trimStart written
    | none => written
  let written := (Css.tokens? text).bind (Css.Selector.write? .start)
  if written.isSome && (parent.isSome || !refers) then
    .ok ⟨text, s.ownLine || (parent.map (·.ownLine)).getD false⟩
  else .error (.badSelector text)

/-- The selectors of a rule in a rule: each parent with each child. -/
def resolve (parents : Option (List FullSelector)) (children : List Selector) :
    Except Fault (List FullSelector) :=
  match parents with
  | none => children.mapM (·.under none)
  | some parents => do
    .ok (← parents.mapM fun p => children.mapM (·.under (some p))).flatten

def writeSelectors : List FullSelector → Text
  | [] => []
  | [s] => s.text
  | s :: next :: more =>
    s.text ++ (if next.ownLine then [',', '\n'] else [',', ' ']) ++ writeSelectors (next :: more)

/-! ### Output -/

/-- Some lines of the output. An empty line follows them if they end a group
of rules and more is to come. -/
structure Block where
  lines : List Text
  endsGroup : Bool

/-- What statements leave: lines of the rule that they stand in, and blocks
behind it. -/
structure Output where
  lines : List Text
  blocks : List Block

def Output.append (a b : Output) : Output := ⟨a.lines ++ b.lines, a.blocks ++ b.blocks⟩

/-- Lines for the rule around them, or a block where there is none. -/
def Output.ofLine (inRule : Bool) (line : Text) : Output :=
  if inRule then ⟨[line], []⟩ else ⟨[], [⟨[line], false⟩]⟩

def indent (line : Text) : Text := ' ' :: ' ' :: line

def bracket (head : Text) (lines : List Text) : List Text :=
  (head ++ [' ', '{']) :: lines.map indent ++ [['}']]

def markLast : List Block → List Block
  | [] => []
  | [b] => [{ b with endsGroup := true }]
  | b :: bs => b :: markLast bs

def writeBlocks : List Block → Text
  | [] => []
  | [b] => Text.join ['\n'] b.lines ++ ['\n']
  | b :: bs =>
    Text.join ['\n'] b.lines ++ (if b.endsGroup then ['\n', '\n'] else ['\n']) ++ writeBlocks bs

/-! ### Imports -/

def candidates (path : Text) : List Text :=
  let underscored := fun (p : Text) =>
    let name := (Path.fileName? p).getD []
    p.take (p.length - name.length) ++ '_' :: name
  let hasExtension := [".scss".toList, ".css".toList].any (Text.endsWith · path)
  let full := if hasExtension then path else path ++ ".scss".toList
  [full, underscored full]

/-- Looks a name up next to the importing sheet and then in the load paths. -/
def Library.find (l : Library) (dir name : Text) : Except Fault (Text × Body) := do
  let paths := (dir :: l.loadPaths).flatMap fun d => candidates (Path.append d name)
  match paths.findSome? fun path => (l.file? path).map (path, ·) with
  | none => .error (.missingImport name)
  | some (path, content) =>
    match Utf8.decode content with
    | .error _ => .error (.unreadableImport name)
    | .ok t => .ok (path, ← readSheet t)

/-! ### Running -/

/-- Where statements stand: in a rule or in none, and in a sheet of a
directory. -/
structure Place where
  parents : Option (List FullSelector)
  dir : Text

abbrev Run := Place → Body → Names → Except Fault (Output × Names)

/-- Runs statements in their order. `deeper` runs the bodies of mixins and
imported sheets. -/
def run (library : Library) (deeper : Run) : Run
  | _, .done, s => .ok (⟨[], []⟩, s)
  | place, .comment content rest, s => do
    let line := "/*".toList ++ content ++ "*/".toList
    let (more, s) ← run library deeper place rest s
    .ok ((Output.ofLine place.parents.isSome line).append more, s)
  | place, .assign name value reach rest, s => do
    run library deeper place rest (s.assign name (← s.value value) reach)
  | place, .define name parameters body rest, s =>
    let mixin : Mixin := ⟨parameters, body, s.scopes.length⟩
    run library deeper place rest { s with mixins := (name, mixin) :: s.mixins }
  | place, .expand name arguments rest, s =>
    match s.mixins.lookup name with
    | none => .error (.unknownMixin name)
    | some mixin => do
      let inner := s.scopes.take (s.scopes.length - mixin.depth)
      let outer := { s with scopes := s.scopes.drop inner.length }
      let frame ← s.bind name mixin.parameters arguments []
      let (expanded, after) ← deeper place mixin.body (outer.enter frame)
      let (more, s) ← run library deeper place rest
        { after with scopes := inner ++ after.leave.scopes }
      .ok (expanded.append more, s)
  | place, .load name rest, s => do
    let (path, body) ← library.find place.dir name
    let dir := (Path.parent? path).getD []
    let (loaded, s) ← deeper { place with dir } body s
    let (more, s) ← run library deeper place rest s
    .ok (loaded.append more, s)
  | place, .declare name value rest, s => do
    if place.parents.isNone then .error (.strayDeclaration name)
    else
      let line := name ++ [':', ' '] ++ (← s.value value).write ++ [';']
      let (more, s) ← run library deeper place rest s
      .ok ((⟨[line], []⟩ : Output).append more, s)
  | place, .rule selectors body rest, s => do
    let full ← resolve place.parents selectors
    let (inside, s) ← run library deeper { place with parents := some full } body (s.enter [])
    let own := if inside.lines = [] then [] else
      [⟨bracket (writeSelectors full) inside.lines, false⟩]
    let blocks := own ++ inside.blocks
    let (more, s) ← run library deeper place rest s.leave
    .ok (⟨more.lines, (if place.parents.isNone then markLast blocks else blocks) ++ more.blocks⟩, s)
  | place, .group head body rest, s => do
    let (inside, s) ← run library deeper place body (s.enter [])
    let own := match place.parents with
      | some parents => if inside.lines = [] then [] else
        [⟨bracket (writeSelectors parents) inside.lines, false⟩]
      | none => []
    let lines := (own ++ inside.blocks).flatMap (·.lines)
    let blocks : List Block := if lines = [] then [] else [⟨bracket head lines, place.parents.isNone⟩]
    let (more, s) ← run library deeper place rest s.leave
    .ok (⟨more.lines, blocks ++ more.blocks⟩, s)
  | place, .plain statement rest, s => do
    let (more, s) ← run library deeper place rest s
    .ok ((Output.ofLine place.parents.isSome (statement ++ [';'])).append more, s)

/-- The greatest number of mixins and imported sheets that run in each other. -/
def depthLimit : Nat := 500

def runAt (library : Library) : Nat → Run
  | 0, _, _, _ => .error .tooDeep
  | depth + 1, place, body, s => run library (runAt library depth) place body s

/-- Compiles a style sheet. Output that is not ASCII names its encoding. -/
def compile (library : Library) (t : Text) : Except Fault Text := do
  let (output, _) ← runAt library depthLimit ⟨none, []⟩ (← readSheet t) Names.start
  let written := writeBlocks output.blocks
  if written.all (·.toNat < 0x80) then .ok written
  else .ok ("@charset \"UTF-8\";\n".toList ++ written)

end Inlay.Scss
