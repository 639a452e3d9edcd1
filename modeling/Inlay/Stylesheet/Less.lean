import Inlay.Disk.Fault
import Inlay.Stylesheet.Reference
import Inlay.Text.Utf8

/-!
Compiling LESS with a program: its arguments, what can come of running it, and
what that means. The program reads the style sheet from its input and writes
the compiled one to its output.
-/

namespace Inlay.Stylesheet.Less

inductive Fault where
  | cannotRun (command : Text) (fault : Disk.Fault)
  | cannotWrite (fault : Disk.Fault)
  | cannotRead (fault : Disk.Fault)
  /-- The program failed and wrote this to its error output. -/
  | failed (said : Bytes)
  | notText (fault : Utf8.Fault)
  deriving DecidableEq, Repr

def Fault.message : Fault → Text
  | .cannotRun command fault =>
    "failed to run '".toList ++ command ++ "': ".toList ++ fault.message
  | .cannotWrite fault => "failed to write source: ".toList ++ fault.message
  | .cannotRead fault => fault.message
  | .failed said => Text.trim (Utf8.decodeLossy said)
  | .notText fault => fault.message

inductive Outcome where
  | notStarted (fault : Disk.Fault)
  | inputRefused (fault : Disk.Fault)
  /-- Its outputs or its end cannot be waited for. -/
  | lost (fault : Disk.Fault)
  | ended (success : Bool) (output said : Bytes)
  deriving DecidableEq, Repr

abbrev Tool := (command : Text) → (arguments : List Text) → (input : Text) → Outcome

/-- The name by which messages know a style sheet, and whose directory is
searched for imports. -/
def fileName (targetDir : Option Text) (r : Reference) : Text :=
  match targetDir with
  | some dir => Path.resolve dir r.stem
  | none => r.stem

def arguments (options : Options) (targetDir : Option Text) (r : Reference) : List Text :=
  let base := if options.base = [] then ['.'] else options.base
  let dir := (Path.parent? (fileName targetDir r)).getD []
  let searched := if dir = [] then [base] else [base, dir]
  ["--include-path=".toList ++ Text.join [':'] searched] ++
    (if options.compress then ["--compress".toList] else []) ++ [['-']]

def Outcome.result (command : Text) : Outcome → Except Fault Text
  | .notStarted fault => .error (.cannotRun command fault)
  | .inputRefused fault => .error (.cannotWrite fault)
  | .lost fault => .error (.cannotRead fault)
  | .ended false _ said => .error (.failed said)
  | .ended true output _ =>
    match Utf8.decode output with
    | .ok t => .ok t
    | .error fault => .error (.notText fault)

def compile (tool : Tool) (options : Options) (targetDir : Option Text) (r : Reference)
    (source : Text) : Except Fault Text :=
  (tool options.lessCommand (arguments options targetDir r) source).result options.lessCommand

end Inlay.Stylesheet.Less
