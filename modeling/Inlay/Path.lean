import Inlay.Text

/-!
Paths as text, read without looking at any disk: their components, the
folding join by which resource addresses resolve, and the parts of a path
that the command line needs.
-/

namespace Inlay.Path

inductive Component where
  | root
  | current
  | parent
  | name (n : Text)
  deriving DecidableEq, Repr

def isRooted (p : Text) : Bool := p.head? == some '/'

/-- What one segment between slashes contributes. Empty and `.` segments
contribute nothing. -/
def Component.ofSegment (s : Text) : Option Component :=
  if s = [] ∨ s = ['.'] then none
  else if s = ['.', '.'] then some .parent
  else some (.name s)

/-- The components of a path. A `.` counts only where the path starts with
it. -/
def components (p : Text) : List Component :=
  let segments := Text.split '/' p
  let front := if isRooted p then [.root]
    else if segments.head? = some ['.'] then [.current] else []
  front ++ segments.filterMap Component.ofSegment

/-! ### Parts of a path as written -/

/-- The front of a path that its last component never reaches into: the root,
or a leading `.`. -/
def anchor (p : Text) : Text :=
  if isRooted p then ['/']
  else if p = ['.'] ∨ Text.startsWith ['.', '/'] p then ['.'] else []

def isFiller (s : Text) : Bool := s == [] || s == ['.']

/-- The path without its last component, as written but for the slashes and
`.` segments right before that component. The root and the empty path have
none. -/
def parent? (p : Text) : Option Text :=
  let front := anchor p
  let segments := (Text.split '/' (p.drop front.length)).reverse.dropWhile isFiller
  match segments with
  | _ :: outer =>
    some (front ++ Text.join ['/'] (outer.dropWhile isFiller).reverse)
  | [] => if front = ['.'] then some [] else none

/-- The last component, when it is a name. -/
def fileName? (p : Text) : Option Text :=
  match (components p).getLast? with
  | some (.name n) => some n
  | _ => none

/-- What follows the last dot of a name; a dot in front starts no extension. -/
def extension? (name : Text) : Option Text :=
  match (Text.split '.' name).reverse with
  | ext :: rest => if Text.join ['.'] rest.reverse = [] then none else some ext
  | [] => none

/-- One path below another; an absolute `tail` stands for itself. -/
def append (dir tail : Text) : Text :=
  if isRooted tail then tail
  else if dir = [] ∨ dir.getLast? = some '/' then dir ++ tail
  else dir ++ '/' :: tail

/-- The path without its last component. The root and the empty path stay as
they are. -/
def pop (p : Text) : Text := (parent? p).getD p

/-! ### The folding join -/

/-- A path that is put together component by component; `depth` counts the
names at its end that a step up may take off again. -/
structure Joined where
  path : Text
  depth : Nat
  deriving DecidableEq, Repr

/-- Goes on with a component. A root counts only in the path that leads. A step
up takes off the last name if there is one, stays at the root, and is kept
otherwise. -/
def Joined.push (leads : Bool) (j : Joined) : Component → Joined
  | .root => if leads then { j with path := append j.path ['/'] } else j
  | .current => j
  | .parent =>
    if 0 < j.depth then ⟨pop j.path, j.depth - 1⟩
    else if isRooted j.path then j
    else { j with path := append j.path ['.', '.'] }
  | .name n => ⟨append j.path n, j.depth + 1⟩

/-- What comes of the path that leads alone. -/
def Joined.lead (base : Text) : Joined := (components base).foldl (Joined.push true) ⟨[], 0⟩

/-- Appends `tail` to `base`, even an absolute one, and folds `.` and `..`
without looking at any disk. Where nothing is left the result is `.`. -/
def resolve (base tail : Text) : Text :=
  let joined := (components tail).foldl (Joined.push false) (Joined.lead base)
  if joined.path = [] then ['.'] else joined.path

end Inlay.Path
