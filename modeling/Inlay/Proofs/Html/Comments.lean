import Inlay.Html.Minify
import Inlay.Proofs.Html.Tokens

/-!
What cleaning leaves of the tokens of a text: all of it but its comments, if
they are dropped, and of these the conditional ones stay.
-/

namespace Inlay.Html

open Text

def Token.isPlainComment : Token → Bool
  | .comment raw => !isConditional raw
  | _ => false

/-- A text with its comments cut out, but for the conditional ones. -/
def withoutComments (t : Text) : Text :=
  ((tokenize t).filter (!·.isPlainComment)).flatMap Token.raw

theorem Settings.drops_eq (s : Settings) (token : Token) :
    s.drops token = (s.dropComments && token.isPlainComment) := by
  cases token <;> simp [drops, Token.isPlainComment]

theorem flatMap_raw_mergeTexts (tokens : List Token) :
    (mergeTexts tokens).flatMap Token.raw = tokens.flatMap Token.raw := by
  induction tokens with
  | nil => rfl
  | cons token rest ih =>
      cases token with
      | text a =>
          rw [List.flatMap_cons, ← ih, mergeTexts]
          split
          · rename_i b more hmerged
            rw [hmerged]
            simp [Token.raw]
          · rfl
      | tag raw => simp [mergeTexts, ih]
      | comment raw => simp [mergeTexts, ih]
      | verbatim raw => simp [mergeTexts, ih]

theorem Settings.flatMap_raw_clean_tokenize (s : Settings) (t : Text) :
    (s.clean (tokenize t)).flatMap Token.raw =
      if s.dropComments then withoutComments t else t := by
  rw [clean, flatMap_raw_mergeTexts]
  cases hdrop : s.dropComments with
  | true => simp [withoutComments, drops_eq, hdrop]
  | false =>
      have hnone : ∀ token ∈ tokenize t, (!s.drops token) = true := by
        intro token _
        simp [drops_eq, hdrop]
      rw [List.filter_eq_self.mpr hnone, flatMap_raw_tokenize]
      rfl

end Inlay.Html
