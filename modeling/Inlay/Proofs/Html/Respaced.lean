import Inlay.Proofs.Html.Comments
import Inlay.Proofs.Html.Written
import Inlay.Proofs.Text.Blank

/-!
Minifying changes nothing but white space. `Respaced` relates a text to one in
which white space characters are left out or made into spaces; writing the
tokens of a text gives such a text.
-/

namespace Inlay.Html

open Text

def inked (t : Text) : Text := t.filter (!isBlank ·)

/-- The second text is the first one with some of its white space left out, and
some made into spaces. -/
inductive Respaced : Text → Text → Prop
  | nil : Respaced [] []
  | keep (c : Char) {t u : Text} (h : Respaced t u) : Respaced (c :: t) (c :: u)
  | drop {c : Char} {t u : Text} (hc : isBlank c = true) (h : Respaced t u) : Respaced (c :: t) u
  | space {c : Char} {t u : Text} (hc : isBlank c = true) (h : Respaced t u) :
      Respaced (c :: t) (' ' :: u)

namespace Respaced

theorem refl (t : Text) : Respaced t t := by
  induction t with
  | nil => exact .nil
  | cons c t ih => exact .keep c ih

theorem append {a b t u : Text} (h : Respaced a b) (htu : Respaced t u) :
    Respaced (a ++ t) (b ++ u) := by
  induction h with
  | nil => exact htu
  | keep c _ ih => exact .keep c ih
  | drop hc _ ih => exact .drop hc ih
  | space hc _ ih => exact .space hc ih

theorem trans {a b c : Text} (hab : Respaced a b) (hbc : Respaced b c) : Respaced a c := by
  induction hab generalizing c with
  | nil => exact hbc
  | keep d _ ih =>
      cases hbc with
      | keep _ h => exact .keep d (ih h)
      | drop hd h => exact .drop hd (ih h)
      | space hd h => exact .space hd (ih h)
  | drop hd _ ih => exact .drop hd (ih hbc)
  | space hd _ ih =>
      cases hbc with
      | keep _ h => exact .space hd (ih h)
      | drop _ h => exact .drop hd (ih h)
      | space _ h => exact .space hd (ih h)

theorem inked_eq {t u : Text} (h : Respaced t u) : inked u = inked t := by
  induction h with
  | nil => rfl
  | keep c _ ih =>
      simp only [inked] at ih ⊢
      rw [List.filter_cons, List.filter_cons, ih]
  | drop hc _ ih => simpa [inked, hc] using ih
  | space hc _ ih => simpa [inked, hc, isBlank_space] using ih

theorem of_blank {t : Text} (h : Blank t) : Respaced t [] := by
  induction t with
  | nil => exact .nil
  | cons c t ih =>
      exact .drop (h c List.mem_cons_self) (ih fun d hd => h d (List.mem_cons_of_mem c hd))

/-- What has no white space stays. -/
theorem exists_append {a t u : Text} (ha : ∀ c ∈ a, isBlank c = false)
    (h : Respaced (a ++ t) u) : ∃ v, u = a ++ v ∧ Respaced t v := by
  induction a generalizing u with
  | nil => exact ⟨u, rfl, h⟩
  | cons c a ih =>
      have hc := ha c List.mem_cons_self
      have htail := fun d hd => ha d (List.mem_cons_of_mem c hd)
      cases h with
      | keep _ h =>
          obtain ⟨v, rfl, hv⟩ := ih htail h
          exact ⟨v, rfl, hv⟩
      | drop hblank _ => simp [hc] at hblank
      | space hblank _ => simp [hc] at hblank

end Respaced

theorem mem_inked {c : Char} {t : Text} (hc : isBlank c = false) : c ∈ inked t ↔ c ∈ t := by
  simp [inked, hc]

/-! ### Texts -/

theorem respaced_collapseFrom (inRun : Bool) (t : Text) : Respaced t (collapseFrom inRun t) := by
  induction t generalizing inRun with
  | nil => exact .nil
  | cons c t ih =>
      simp only [collapseFrom]
      split
      · rename_i hc
        split
        · exact .drop hc (ih true)
        · exact .space hc (ih true)
      · exact .keep c (ih false)

theorem respaced_trimStart (t : Text) : Respaced t (trimStart t) := by
  obtain ⟨run, hrun, ht⟩ := exists_eq_append_trimStart t
  conv => lhs; rw [ht]
  exact (Respaced.of_blank hrun).append (Respaced.refl _)

theorem respaced_trimEnd (t : Text) : Respaced t (trimEnd t) := by
  obtain ⟨run, hrun, ht⟩ := exists_eq_trimEnd_append t
  have h := (Respaced.refl (trimEnd t)).append (Respaced.of_blank hrun)
  rwa [← ht, List.append_nil] at h

theorem respaced_collapseText (before : Option Token) (t : Text) (behind : Option Token) :
    Respaced t (collapseText before t behind) := by
  have hstart : Respaced t
      (if keepsSpaceBehind before then collapse t else trimStart (collapse t)) := by
    split
    · exact respaced_collapseFrom false t
    · exact (respaced_collapseFrom false t).trans (respaced_trimStart _)
  unfold collapseText
  simp only
  split
  · exact hstart
  · exact hstart.trans (respaced_trimEnd _)

/-! ### Tags -/

/-- White space that was passed is made up for by the next character: with none
passed, and with some white space `w` passed outside quotes. -/
theorem respaced_collapseTagFrom (t : Text) :
    (∀ quote, Respaced t (collapseTagFrom quote false t)) ∧
      ∀ w, isBlank w = true → Respaced (w :: t) (collapseTagFrom none true t) := by
  induction t with
  | nil =>
      refine ⟨fun quote => ?_, fun w hw => .drop hw ?_⟩
      · cases quote <;> exact .nil
      · exact .nil
  | cons c t ih =>
      obtain ⟨hplain, hpassed⟩ := ih
      refine ⟨fun quote => ?_, fun w hw => ?_⟩
      · cases quote with
        | some q => exact .keep c (hplain _)
        | none =>
            simp only [collapseTagFrom]
            split
            · rename_i hc
              exact hpassed c hc
            · exact .keep c (hplain _)
      · simp only [collapseTagFrom]
        split
        -- of two white space characters in a row the first one goes
        · rename_i hc
          exact .drop hw (hpassed c hc)
        · split
          · exact .space hw (.keep c (hplain _))
          · exact .drop hw (.keep c (hplain _))

theorem respaced_collapseTag (raw : Text) : Respaced raw (collapseTag raw) :=
  (respaced_collapseTagFrom raw).1 none

/-! ### All together -/

theorem Settings.respaced_written {s : Settings} (hcase : s.keepCase = true)
    (before : Option Token) (token : Token) (behind : Option Token) :
    Respaced token.raw (s.written before token behind) := by
  cases token with
  | text t =>
      simp only [Token.raw, written]
      split
      · exact respaced_collapseText _ _ _
      · exact .refl t
  | tag raw =>
      simp only [Token.raw, written, writtenTag, hcase, if_true]
      split
      · exact respaced_collapseTag raw
      · exact .refl raw
  | comment raw => exact .refl raw
  | verbatim raw => exact .refl raw

theorem Settings.respaced_renderFrom {s : Settings} (hcase : s.keepCase = true)
    (before : Option Token) (tokens : List Token) :
    Respaced (tokens.flatMap Token.raw) (s.renderFrom before tokens) := by
  induction tokens generalizing before with
  | nil => exact .nil
  | cons token rest ih =>
      rw [List.flatMap_cons, renderFrom_cons]
      exact (respaced_written hcase before token rest.head?).append (ih (some token))

/-- With the case of names kept, writing the tokens of a text that are left
changes its white space only. -/
theorem Settings.respaced_render {s : Settings} (hcase : s.keepCase = true) (t : Text) :
    Respaced (if s.dropComments then withoutComments t else t)
      (s.render (s.clean (tokenize t))) := by
  rw [← s.flatMap_raw_clean_tokenize]
  exact s.respaced_renderFrom hcase none (s.clean (tokenize t))

theorem Settings.renderFrom_eq_flatMap_raw {s : Settings} (hcase : s.keepCase = true)
    (hcollapse : s.collapseSpace = false) (before : Option Token) (tokens : List Token) :
    s.renderFrom before tokens = tokens.flatMap Token.raw := by
  induction tokens generalizing before with
  | nil => rfl
  | cons token rest ih =>
      have htoken : s.written before token rest.head? = token.raw := by
        cases token <;> simp [written, writtenTag, Token.raw, hcase, hcollapse]
      rw [renderFrom_cons, List.flatMap_cons, ih, htoken]

/-- The tokens of a text make it up, and nothing but white space and the
comments that are to go is lost when they are written; nothing is added or
moved. Where white space is not collapsed the comments are cut out and all else
stays as it is. -/
theorem render_keeps_all_but_comments (drop : Bool) (t : Text) :
    (tokenize t).flatMap Token.raw = t ∧
    (∀ collapse, inked (Settings.render ⟨true, collapse, drop⟩
        (Settings.clean ⟨true, collapse, drop⟩ (tokenize t))) =
      inked (if drop then withoutComments t else t)) ∧
    Settings.render ⟨true, false, drop⟩ (Settings.clean ⟨true, false, drop⟩ (tokenize t)) =
      if drop then withoutComments t else t := by
  refine ⟨flatMap_raw_tokenize t, fun collapse => ?_, ?_⟩
  · have hrespaced := Settings.respaced_render (s := ⟨true, collapse, drop⟩) rfl t
    exact hrespaced.inked_eq
  · rw [Settings.render, Settings.renderFrom_eq_flatMap_raw rfl rfl,
      Settings.flatMap_raw_clean_tokenize]

end Inlay.Html
