import Inlay.Config
import Inlay.Scss.Fault
import Inlay.Stylesheet.Less

/-!
Why an inlining run fails, with the wording of each cause.
-/

namespace Inlay

inductive Missing where
  /-- It is not among the files that are held in memory. -/
  | notHeld
  /-- There is no source at that path. -/
  | noSource
  | disk (fault : Disk.Fault)
  deriving DecidableEq, Repr

def Missing.message : Missing → Text
  | .notHeld => "entity not found".toList
  | .noSource => "no such file or directory".toList
  | .disk fault => fault.message

inductive Error where
  | disk (fault : Disk.Fault)
  /-- A directory that cannot be watched, as given and as a full path. -/
  | unwatchable (dir full : Text) (fault : Disk.Fault)
  | malformedList (list : Text) (complaint : Json.Complaint)
  | notFound (path : Text) (cause : Missing)
  | configNotFound (path : Text) (fault : Disk.Fault)
  | less (path : Text) (fault : Stylesheet.Less.Fault)
  | scss (path : Text) (fault : Scss.Fault)
  | config (refusal : Config.Refusal)
  | someFailed (failed total : Nat)
  deriving DecidableEq, Repr

namespace Error

/-- A LESS compiler whose output cannot be read fails the run like a disk. -/
def ofLess (path : Text) : Stylesheet.Less.Fault → Error
  | .cannotRead fault => .disk fault
  | fault => .less path fault

def compileMessage (dialect : Stylesheet.Dialect) (path said : Text) : Text :=
  dialect.name ++ " compile error in ".toList ++ path ++ ": ".toList ++ said

def refusalMessage : Config.Refusal → Text
  | .json complaint => "Invalid JSON config: ".toList ++ complaint.message
  | .toml => "Invalid TOML config".toList
  | .unknownFormat => "Config file must be .json or .toml format".toList

def systemMessage? : Error → Option Text
  | .disk fault => some fault.message
  | .unwatchable dir full fault =>
    some ("Failed to watch ".toList ++ dir ++ ": ".toList ++ fault.message ++
      " about [".toList ++ Json.quoted full ++ "]".toList)
  | _ => none

def message (e : Error) : Text :=
  match e with
  | .disk _ => "IO error: ".toList ++ e.systemMessage?.getD []
  | .unwatchable _ _ _ => "IO error: ".toList ++ e.systemMessage?.getD []
  | .malformedList list complaint =>
    "Malformed annotation: invalid styleUrls list ".toList ++ list ++ ": ".toList ++
      complaint.message
  | .notFound path cause => "File not found: ".toList ++ path ++ ": ".toList ++ cause.message
  | .configNotFound path fault =>
    "File not found: Config file ".toList ++ path ++ ": ".toList ++ fault.message
  | .less path fault => compileMessage .less path fault.message
  | .scss path fault => compileMessage .scss path fault.message
  | .config refusal => "Invalid format: ".toList ++ refusalMessage refusal
  | .someFailed failed total =>
    "Invalid format: ".toList ++ Text.decimal failed ++ " of ".toList ++ Text.decimal total ++
      " files failed to inline".toList

end Error

end Inlay
