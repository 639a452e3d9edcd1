import Inlay.Text

/-!
Reading command line arguments from left to right: long and short switches,
clusters of short ones, values attached or in the next argument, and what
stands between them. The first argument that does not fit ends the reading.
-/

namespace Inlay.CommandLine

inductive Halt where
  | usage
  | help
  | version
  deriving DecidableEq, Repr

/-- What a switch is for. -/
inductive Role where
  /-- It is given at most once and takes no value. -/
  | flag
  /-- It may be given again and takes no value. -/
  | counter
  /-- It is given at most once and takes a value, one of `choices` if there
  are any. -/
  | value (choices : List Text)
  /-- It may be given again and takes a value. -/
  | values
  | halt (reason : Halt)
  deriving DecidableEq, Repr

structure Switch where
  short : Option Char
  long : Text
  role : Role
  deriving DecidableEq, Repr

def Switch.takesValue (s : Switch) : Bool :=
  match s.role with
  | .value _ => true
  | .values => true
  | _ => false

/-- What was read: switches with their values, empty for those that take none,
and the arguments between them, each in order. -/
structure Given where
  switches : List (Text × Text)
  inputs : List Text
  deriving DecidableEq, Repr

namespace Given

def none : Given := ⟨[], []⟩

def has (g : Given) (long : String) : Bool := g.switches.any (·.1 = long.toList)

def value? (g : Given) (long : String) : Option Text := g.switches.lookup long.toList

def values (g : Given) (long : String) : List Text :=
  (g.switches.filter (·.1 = long.toList)).map (·.2)

def addSwitch (g : Given) (s : Switch) (value : Text) : Except Halt Given :=
  let added : Given := { g with switches := g.switches ++ [(s.long, value)] }
  let isRepeated := g.switches.any (·.1 = s.long)
  match s.role with
  | .halt reason => .error reason
  | .counter => .ok added
  | .values => .ok added
  | .flag => if isRepeated then .error .usage else .ok added
  | .value choices =>
    if isRepeated ∨ (choices ≠ [] ∧ value ∉ choices) then .error .usage else .ok added

end Given

/-- The switches of a command, the greatest number of other arguments, and the
names of the commands that take over all arguments behind them. -/
structure Grammar where
  switches : List Switch
  inputLimit : Nat
  commands : List Text

namespace Grammar

def addInput (grammar : Grammar) (g : Given) (input : Text) : Except Halt Given :=
  if g.inputs.length < grammar.inputLimit then .ok { g with inputs := g.inputs ++ [input] }
  else .error .usage

/-- Reads the short switches behind a hyphen. The last one is given back if
its value must be in the next argument. -/
def readCluster (grammar : Grammar) (g : Given) : Text → Except Halt (Given × Option Switch)
  | [] => .ok (g, none)
  | c :: t =>
    match grammar.switches.find? (·.short = some c) with
    | none => .error .usage
    | some s =>
      if s.takesValue then
        match t with
        | [] => .ok (g, some s)
        | '=' :: value => do .ok (← g.addSwitch s value, none)
        | value => do .ok (← g.addSwitch s value, none)
      else do grammar.readCluster (← g.addSwitch s []) t

/-- Reads a long switch behind its hyphens. It is given back if its value must
be in the next argument. -/
def readLong (grammar : Grammar) (g : Given) (t : Text) : Except Halt (Given × Option Switch) :=
  let name := t.takeWhile (· ≠ '=')
  match grammar.switches.find? (·.long = name), t.dropWhile (· ≠ '=') with
  | none, _ => .error .usage
  | some s, [] => if s.takesValue then .ok (g, some s) else do .ok (← g.addSwitch s [], none)
  | some s, _ :: value =>
    if s.takesValue then do .ok (← g.addSwitch s value, none) else .error .usage

def readSwitch (grammar : Grammar) (g : Given) : Text → Except Halt (Given × Option Switch)
  | '-' :: '-' :: t => grammar.readLong g t
  | _ :: t => grammar.readCluster g t
  | [] => .error .usage

/-- Whether an argument is read as switches; a lone hyphen is not. -/
def isSwitch (argument : Text) : Bool := argument.head? == some '-' && argument != ['-']

/-- Reads arguments up to the name of a command, and gives that name with the
arguments behind it. Two hyphens end the switches and the commands. -/
def read (grammar : Grammar) (g : Given) : List Text → Except Halt (Given × List Text)
  | [] => .ok (g, [])
  | argument :: more =>
    if argument ∈ grammar.commands then .ok (g, argument :: more)
    else if argument = ['-', '-'] then do .ok (← more.foldlM grammar.addInput g, [])
    else if isSwitch argument then do
      match ← grammar.readSwitch g argument, more with
      | (g, none), more => grammar.read g more
      | (_, some _), [] => .error .usage
      | (g, some s), value :: more =>
        if isSwitch value then .error .usage
        else grammar.read (← g.addSwitch s value) more
    else do grammar.read (← grammar.addInput g argument) more

end Grammar

end Inlay.CommandLine
