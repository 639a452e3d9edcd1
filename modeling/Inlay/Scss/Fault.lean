import Inlay.Text

/-!
What can be wrong with a SCSS style sheet, with its wording.
-/

namespace Inlay.Scss

inductive Fault where
  | unclosedText
  | unclosedComment
  | unclosedBlock
  | strayBrace
  | badSelector (head : Text)
  | badStatement (head : Text)
  | noValue (name : Text)
  | strayDeclaration (name : Text)
  | unknownVariable (name : Text)
  | unknownMixin (name : Text)
  | missingArgument (name : Text)
  | spareArgument (mixin : Text)
  | missingImport (name : Text)
  | unreadableImport (name : Text)
  | unlikeUnits (a b : Text)
  | tooDeep
  deriving DecidableEq, Repr

def Fault.message : Fault → Text
  | .unclosedText => "expected the end of a string".toList
  | .unclosedComment => "expected the end of a comment".toList
  | .unclosedBlock => "expected \"\x7d\"".toList
  | .strayBrace => "unmatched \"\x7d\"".toList
  | .badSelector head => "expected a selector: ".toList ++ head
  | .badStatement head => "expected a statement: ".toList ++ head
  | .noValue name => "expected a value: ".toList ++ name
  | .strayDeclaration name => "declaration outside a rule: ".toList ++ name
  | .unknownVariable name => "undefined variable: ".toList ++ name
  | .unknownMixin name => "undefined mixin: ".toList ++ name
  | .missingArgument name => "missing argument: ".toList ++ name
  | .spareArgument mixin => "too many arguments: ".toList ++ mixin
  | .missingImport name => "no style sheet to import: ".toList ++ name
  | .unreadableImport name => "unreadable style sheet: ".toList ++ name
  | .unlikeUnits a b => "incompatible units ".toList ++ a ++ " and ".toList ++ b
  | .tooDeep => "blocks are nested too deeply".toList

end Inlay.Scss
