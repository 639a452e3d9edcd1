import Inlay.CommandLine.Switch
import Inlay.Config

/-!
The commands that can be given on the command line.
-/

namespace Inlay.CommandLine

structure InlineCommand where
  input : Text
  output : Option Text
  inPlace : Bool
  recursive : Bool
  base : Option Text
  relative : Bool
  includePaths : List Text
  compress : Bool
  templatesOnly : Bool
  lessCommand : Option Text
  watch : Bool
  deriving DecidableEq, Repr

inductive Format where
  | text
  | json
  deriving DecidableEq, Repr

structure ScanCommand where
  input : Text
  recursive : Bool
  format : Format
  deriving DecidableEq, Repr

inductive Command where
  | inline (c : InlineCommand)
  | scan (c : ScanCommand)
  | none
  deriving DecidableEq, Repr

structure Arguments where
  config : Option Text
  command : Command
  deriving DecidableEq, Repr

/-! ### Grammars -/

def switch (short : Option Char) (long : String) (role : Role) : Switch :=
  ⟨short, long.toList, role⟩

def helpSwitch : Switch := switch (some 'h') "help" (.halt .help)

def inlineName : Text := "inline".toList

def scanName : Text := "scan".toList

def helpName : Text := "help".toList

def mainGrammar : Grammar where
  switches := [
    switch (some 'c') "config" (.value []),
    switch (some 'v') "verbose" .counter,
    helpSwitch,
    switch (some 'V') "version" (.halt .version)]
  inputLimit := 0
  commands := [inlineName, scanName, helpName]

def inlineGrammar : Grammar where
  switches := [
    switch (some 'o') "output" (.value []),
    switch (some 'i') "in-place" .flag,
    switch (some 'r') "recursive" .flag,
    switch (some 'b') "base" (.value []),
    switch none "relative" .flag,
    switch (some 'I') "include-path" .values,
    switch none "compress" .flag,
    switch none "template-only" .flag,
    switch none "less-command" (.value []),
    switch (some 'w') "watch" .flag,
    helpSwitch]
  inputLimit := 1
  commands := []

def scanGrammar : Grammar where
  switches := [
    switch (some 'r') "recursive" .flag,
    switch (some 'f') "format" (.value ["text".toList, "json".toList]),
    helpSwitch]
  inputLimit := 1
  commands := []

/-! ### Commands -/

def inputOf (g : Given) : Except Halt Text :=
  match g.inputs with
  | [input] => .ok input
  | _ => .error .usage

/-- Inlining in place goes with neither another output nor watching. -/
def InlineCommand.read (arguments : List Text) : Except Halt InlineCommand := do
  let (g, _) ← inlineGrammar.read .none arguments
  let input ← inputOf g
  if g.has "in-place" && (g.has "output" || g.has "watch") then .error .usage
  else .ok {
    input
    output := g.value? "output"
    inPlace := g.has "in-place"
    recursive := g.has "recursive"
    base := g.value? "base"
    relative := g.has "relative"
    includePaths := g.values "include-path"
    compress := g.has "compress"
    templatesOnly := g.has "template-only"
    lessCommand := g.value? "less-command"
    watch := g.has "watch" }

def ScanCommand.read (arguments : List Text) : Except Halt ScanCommand := do
  let (g, _) ← scanGrammar.read .none arguments
  let input ← inputOf g
  let format := if g.value? "format" = some "json".toList then .json else .text
  .ok { input, recursive := g.has "recursive", format }

/-- Help is there for each command, and for nothing else. -/
def readHelp : List Text → Halt
  | [] => .help
  | [name] => if mainGrammar.commands.contains name then .help else .usage
  | _ => .usage

def Command.read : List Text → Except Halt Command
  | [] => .ok .none
  | name :: arguments =>
    if name = inlineName then (InlineCommand.read arguments).map .inline
    else if name = scanName then (ScanCommand.read arguments).map .scan
    else .error (readHelp arguments)

def Arguments.read (arguments : List Text) : Except Halt Arguments := do
  let (g, rest) ← mainGrammar.read .none arguments
  .ok ⟨g.value? "config", ← Command.read rest⟩

/-! ### Options -/

/-- The options of a run: what the command says, then what the configuration
says. Directories for imports add up. -/
def InlineCommand.options (c : InlineCommand) (config : Config) : Options :=
  let o := config.toOptions
  Options.normalized {
    base := c.base.getD o.base
    relative := c.relative || o.relative
    includePaths := c.includePaths ++ o.includePaths
    compress := c.compress || o.compress
    templatesOnly := c.templatesOnly || o.templatesOnly
    lessCommand := c.lessCommand.getD o.lessCommand }

end Inlay.CommandLine
