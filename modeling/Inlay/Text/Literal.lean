import Inlay.Text

/-!
String literals in source text: the escapes that put a text between quotes,
and the joining of lines into a sum of literals.
-/

namespace Inlay.Literal

def guardWith (q : Char) (t : Text) : Text :=
  t.flatMap fun c => if c = q then ['\\', c] else [c]

/-- Makes a text ready to stand between single quotes. Backslashes go first:
guarding the quotes first would double the backslashes that guard them. -/
def escapeSingle (t : Text) : Text := guardWith '\'' (guardWith '\\' t)

/-- Each maximal run of line breaks closes the literal, adds the next one on
a new line, and opens it; `inRun` says whether the last character was a
line break. -/
def joinLinesFrom (q : Char) : Bool → Text → Text
  | _, [] => []
  | inRun, c :: t =>
    if Text.isBreak c then
      if inRun then joinLinesFrom q true t
      else [q, ' ', '+', '\n', q] ++ joinLinesFrom q true t
    else c :: joinLinesFrom q false t

def joinLines (q : Char) (t : Text) : Text := joinLinesFrom q false t

end Inlay.Literal
