import Inlay.Text

/-!
What the operating system can answer instead of a result, with its wording.
-/

namespace Inlay.Disk

inductive Fault where
  | noEntry
  | denied
  | exists
  | notDirectory
  | isDirectory
  | brokenPipe
  | nameTooLong
  | noProcesses
  | nulInPath
  | notUtf8
  deriving DecidableEq, Repr

def Fault.message : Fault → Text
  | .noEntry => "No such file or directory (os error 2)".toList
  | .denied => "Permission denied (os error 13)".toList
  | .exists => "File exists (os error 17)".toList
  | .notDirectory => "Not a directory (os error 20)".toList
  | .isDirectory => "Is a directory (os error 21)".toList
  | .brokenPipe => "Broken pipe (os error 32)".toList
  | .nameTooLong => "File name too long (os error 36)".toList
  | .noProcesses => "Function not implemented (os error 38)".toList
  | .nulInPath => "file name contained an unexpected NUL byte".toList
  | .notUtf8 => "stream did not contain valid UTF-8".toList

end Inlay.Disk
