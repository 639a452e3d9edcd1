import Inlay.CommandLine.ScanReport
import Inlay.Transform

/-!
Running a command on a disk: what it prints, what it changes, and how it ends.
-/

namespace Inlay.CommandLine

/-- A part of what a run prints. How long the run took is known at its end
only. -/
inductive Chunk where
  | text (t : Text)
  | elapsed
  deriving DecidableEq, Repr

def Chunk.write (elapsed : Text) : Chunk → Text
  | .text t => t
  | .elapsed => elapsed

structure Console where
  disk : Disk
  output : List Chunk
  complaints : Text

structure Setting extends Toolchain where
  formats : Config.Formats

/-- A run may fail. What it printed and changed up to then stays. -/
abbrev Running := ExceptT Error (StateM Console)

namespace Running

def print (chunks : List Chunk) : Running Unit :=
  modify fun c => { c with output := c.output ++ chunks }

def say (t : Text) : Running Unit := print [.text t]

def complain (t : Text) : Running Unit :=
  modify fun c => { c with complaints := c.complaints ++ t }

/-- Changes the disk, or fails as the system says. -/
def change (f : Disk → Except Disk.Fault Disk) : Running Unit := do
  match f (← get).disk with
  | .ok disk => modify fun c => { c with disk }
  | .error fault => throw (.disk fault)

end Running

open Running

/-! ### Inlining -/

def writeOutput (path content : Text) : Running Unit := do
  change (Disk.makeParents · path)
  change (Disk.write · path (Utf8.encode content))

/-- Inlines one source and says whether that was possible. A source that
fails is reported and left alone. -/
def inlineSource (setting : Setting) (options : Options) (target : Target) (s : Source) :
    Running Bool := do
  match transformFile setting.toToolchain options (← get).disk s.path with
  | .error e =>
    complain ("❌ ".toList ++ s.path ++ " - ".toList ++ e.message ++ ['\n'])
    return false
  | .ok inlined =>
    match target.destination? s with
    | none => say inlined
    | some destination =>
      writeOutput destination inlined
      say ("✅ ".toList ++ s.path ++ " -> ".toList ++ destination ++ ['\n'])
    return true

structure Tally where
  total : Nat
  failed : Nat

def Tally.summary (t : Tally) : List Chunk :=
  [.text ("\n📊 Inline Summary:\n   Total files: ".toList ++ Text.decimal t.total ++
      "\n   Files with errors: ".toList ++ Text.decimal t.failed ++ "\n   Time: ".toList),
    .elapsed, .text "ms\n".toList]

def inlineSources (setting : Setting) (config : Config) (c : InlineCommand) (target : Target) :
    Running Tally := do
  let sources ← collect (← get).disk c.input c.recursive
  let successes ← sources.mapM (inlineSource setting (c.options config) target)
  let tally : Tally := ⟨sources.length, successes.count false⟩
  if target ≠ .display ∧ sources.length > 1 then print tally.summary
  return tally

def watchedDir (disk : Disk) (input : Text) : Text :=
  if disk.isFolder input then input
  else
    let up := (Path.parent? input).getD []
    if up = [] then ['.'] else up

/-- Starts to watch: fails if there is nothing to watch, and inlines once. -/
def watch (setting : Setting) (config : Config) (c : InlineCommand) (target : Target) :
    Running Unit := do
  let disk := (← get).disk
  let dir := watchedDir disk c.input
  complain ("👀 Watching ".toList ++ dir ++ " for changes...\n".toList)
  match disk.entry dir with
  | .error fault => throw (.unwatchable dir (Path.append disk.workingDir.path dir) fault)
  | .ok _ =>
    try
      let _ ← inlineSources setting config c target
    catch e => complain ("❌ Initial run failed: ".toList ++ e.message ++ ['\n'])

def inline (setting : Setting) (config : Config) (c : InlineCommand) : Running Unit := do
  let target := c.target (← get).disk
  if c.watch then watch setting config c target
  else
    let tally ← inlineSources setting config c target
    if tally.failed > 0 then throw (.someFailed tally.failed tally.total)

/-! ### Scanning -/

/-- Reports on all sources; nothing is printed if one of them fails. -/
def scan (c : ScanCommand) : Running Unit := do
  let disk := (← get).disk
  let sources ← collect disk c.input c.recursive
  let files ← sources.mapM fun s => FileReport.scan disk s
  say (ScanReport.write c.format files)

/-! ### All commands -/

def loadConfig (formats : Config.Formats) (path : Text) : Running Config := do
  match (← get).disk.readText path with
  | .error fault => throw (.configNotFound path fault)
  | .ok content =>
    match formats.parse path content with
    | .ok config => return config
    | .error refusal => throw (.config refusal)

def perform (setting : Setting) (a : Arguments) : Running Unit := do
  let config ← match a.config with
    | some path => loadConfig setting.formats path
    | none => pure {}
  match a.command with
  | .inline c => inline setting config c
  | .scan c => scan c
  | .none => say "No subcommand specified. Use --help for usage information.\n".toList

structure Outcome where
  exit : Nat
  console : Console

def Outcome.output (o : Outcome) (elapsed : Text) : Text :=
  o.console.output.flatMap (Chunk.write elapsed)

def usage : Text :=
  Text.join ['\n'] (List.map String.toList [
    "Usage: nginline [-c FILE] [-v]... [COMMAND]",
    "",
    "Commands:",
    "  inline INPUT [-o PATH | -i] [-r] [-b DIR] [--relative] [-I DIR]... [--compress]",
    "         [--template-only] [--less-command CMD] [-w]",
    "  scan INPUT [-r] [-f text|json]",
    ""])

def lastWords (e : Error) : Text :=
  match e.systemMessage? with
  | some said => "IO Error: ".toList ++ said ++ ['\n']
  | none => "Inlining failed: ".toList ++ e.message ++ ['\n']

def run (setting : Setting) (disk : Disk) (arguments : List Text) : Outcome :=
  match Arguments.read arguments with
  | .error .usage => ⟨2, disk, [], usage⟩
  | .error .help => ⟨0, disk, [.text usage], []⟩
  | .error .version => ⟨0, disk, [.text "nginline 0.1.0\n".toList], []⟩
  | .ok a =>
    match StateT.run (ExceptT.run (perform setting a)) ⟨disk, [], []⟩ with
    | (.ok (), console) => ⟨0, console⟩
    | (.error e, console) =>
      ⟨1, { console with complaints := console.complaints ++ lastWords e }⟩

end Inlay.CommandLine
