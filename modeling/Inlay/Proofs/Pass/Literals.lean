import Inlay.Proofs.Pass.Replacement
import Inlay.Proofs.Text.Literal

/-!
What the inlined literals stand for. A literal of style sheets always reads
back as the style sheets; a sum of literals for a template reads back as the
minified template only where that has no backslash.
-/

namespace Inlay

open Text

/-! ### Style sheets -/

def Css.OneLine (minifier : Css.Minifier) : Prop :=
  ∀ t minified, minifier t = some minified → ∀ c ∈ minified, isBreak c = false

theorem Stylesheet.isBreak_of_mem_normalize {tools : Tools} {compress : Bool} {css : Text}
    (hminifier : compress = true → Css.OneLine tools.minifier) :
    ∀ c ∈ normalize tools compress css, isBreak c = false := by
  intro c hc
  cases compress with
  | false => exact Literal.isBreak_of_mem_withoutBreaks hc
  | true =>
      simp only [normalize, if_true, Css.minifyWith] at hc
      cases hmin : tools.minifier css with
      | none =>
          rw [hmin] at hc
          exact Literal.isBreak_of_mem_withoutBreaks hc
      | some minified =>
          rw [hmin] at hc
          exact hminifier rfl css minified hmin c hc

namespace StylePass

def Compiled (job : Job) (r : Stylesheet.Reference) (css : Text) : Prop :=
  ∃ source, job.host.read r.path = .ok source ∧
    Stylesheet.compile job.tools job.options job.targetDir r source = .ok css

theorem Compiled.processed {job : Job} {r : Stylesheet.Reference} {css : Text}
    (h : Compiled job r css) :
    Processed job r (Stylesheet.flatten job.tools job.options.compress css) := by
  obtain ⟨source, hread, hcompile⟩ := h
  refine ⟨source, hread, ?_⟩
  rw [Stylesheet.process, hcompile]
  rfl

theorem gathered_of_compiled {job : Job} {urls sheets : List Text}
    (h : List.Forall₂ (Compiled job)
      (urls.map (Stylesheet.Reference.of job.options job.targetDir)) sheets) :
    Gathered job urls (sheets.map (Stylesheet.flatten job.tools job.options.compress)) := by
  rw [Gathered, List.forall₂_map_right_iff]
  exact h.imp fun _ _ => Compiled.processed

/-- Style sheets that are escaped one by one stand side by side as if they were
escaped together. -/
theorem flatten_map_flatten (tools : Stylesheet.Tools) (compress : Bool) (sheets : List Text) :
    (sheets.map (Stylesheet.flatten tools compress)).flatten =
      Literal.escapeSingle (sheets.map (Stylesheet.normalize tools compress)).flatten := by
  induction sheets with
  | nil => rfl
  | cons css sheets ih =>
      simp only [List.map_cons, List.flatten_cons, ih, Literal.escapeSingle_append]
      rfl

/-- The literal that takes the place of an annotation ends at its last quote,
has no line break, and stands for the compiled style sheets in their order. -/
theorem replacement_reads_back (job : Job) (a : Annotation.StyleUrls) (urls sheets : List Text)
    (hactive : a.isCommentedOut = false) (hurls : a.urls = .ok urls)
    (hsheets : List.Forall₂ (Compiled job)
      (urls.map (Stylesheet.Reference.of job.options job.targetDir)) sheets)
    (hminifier : job.options.compress = true → Css.OneLine job.tools.minifier)
    (before : Reads) :
    ∃ body,
      (replacement job a).outcome before =
        .ok ("styles: ['".toList ++ body ++ "']".toList) ∧
      Literal.unquote? '\'' (body ++ "']".toList) =
        some ((sheets.map fun css =>
          if job.options.compress then Css.minifyWith job.tools.minifier css
          else withoutBreaks css).flatten, [']']) ∧
      ∀ c ∈ body, isBreak c = false := by
  let inside := (sheets.map (Stylesheet.normalize job.tools job.options.compress)).flatten
  have hinside : ∀ c ∈ inside, isBreak c = false := by
    intro c hc
    obtain ⟨part, hpart, hc⟩ := List.mem_flatten.mp hc
    obtain ⟨css, -, rfl⟩ := List.mem_map.mp hpart
    exact Stylesheet.isBreak_of_mem_normalize hminifier c hc
  refine ⟨Literal.escapeSingle inside, ?_, ?_, ?_⟩
  · refine (yields_replacement job a before _).mpr ⟨_, ⟨urls, hurls, ?_⟩, rfl⟩
    rw [hactive, if_neg Bool.false_ne_true]
    exact ⟨_, gathered_of_compiled hsheets, (flatten_map_flatten _ _ _).symm⟩
  · have hend : Literal.unquote? '\'' "']".toList = some ([], [']']) := rfl
    rw [Literal.unquote?_escapeSingle_append hinside, hend]
    exact congrArg (fun t => some (t, [']'])) (List.append_nil inside)
  · intro c hc
    rcases Literal.mem_of_mem_escapeSingle hc with hc | rfl
    · exact hinside c hc
    · rfl

def quotedCss : Text := "q::before \x7b content: '\\'\\\\'; \x7d".toList

def quotedLess : Text := "'b'\r\n\\".toList

/-- Two style sheets full of quotes and backslashes. The minifier knows the
first one and refuses the second. -/
def quotedSheets : Job where
  options := { compress := true }
  targetDir := none
  host := .ofFiles [("a.css".toList, quotedCss), ("b.less".toList, quotedLess)] List.length
  tools :=
    { less := fun _ _ source => .ended true (Utf8.encode source) []
      scss := fun _ source => .ok source
      minifier := fun t =>
        if t = quotedCss then some "q:before\x7bcontent:\"'\\\\\"\x7d".toList else none }

theorem replacement_reads_back_quotedSheets :
    ∃ body,
      (replacement quotedSheets ⟨[], "['a.css', \"b.less\"]".toList⟩).outcome Reads.none =
        .ok ("styles: ['".toList ++ body ++ "']".toList) ∧
      Literal.unquote? '\'' (body ++ "']".toList) =
        some ("q:before\x7bcontent:\"'\\\\\"\x7d'b'\\".toList, [']']) ∧
      ∀ c ∈ body, isBreak c = false := by
  have hsheets : List.Forall₂ (Compiled quotedSheets)
      (["a.css".toList, "b.less".toList].map (Stylesheet.Reference.of {} none))
      [quotedCss, quotedLess] :=
    .cons ⟨quotedCss, by decide +kernel, by decide +kernel⟩
      (.cons ⟨quotedLess, by decide +kernel, by decide +kernel⟩ .nil)
  have hminifier : Css.OneLine quotedSheets.tools.minifier := by
    intro t minified h
    simp only [quotedSheets] at h
    split at h
    · obtain rfl := Option.some.inj h
      simp [isBreak]
    · contradiction
  obtain ⟨body, hwritten, hread, hbody⟩ :=
    replacement_reads_back quotedSheets ⟨[], "['a.css', \"b.less\"]".toList⟩
      ["a.css".toList, "b.less".toList] [quotedCss, quotedLess]
      (by decide +kernel) (by decide +kernel) hsheets (fun _ => hminifier) Reads.none
  exact ⟨body, hwritten, hread.trans (by decide +kernel), hbody⟩

end StylePass

/-! ### Templates -/

namespace TemplatePass

theorem literal_eq (compress : Bool) (quote : Char) (html : Text) :
    literal compress quote html = "template: ".toList ++
      quote :: (Literal.joinLines quote (Literal.guardWith quote
        ((Html.Settings.forTemplates compress).minify html)) ++ [quote]) :=
  List.append_assoc _ _ _

/-- What is written for a template is a sum of literals that stands for the
minified template, without its line breaks, exactly if that has no backslash:
quotes are escaped, but backslashes are not. -/
theorem literal_reads_back_iff (compress : Bool) (quote : Char) (html : Text)
    (hquote : quote = '"' ∨ quote = '\'') :
    (∃ sum parts, literal compress quote html = "template: ".toList ++ sum ∧
      Literal.Sum quote sum parts ∧
      parts.flatten = withoutBreaks ((Html.Settings.forTemplates compress).minify html)) ↔
    '\\' ∉ (Html.Settings.forTemplates compress).minify html := by
  rw [← Literal.exists_sum_iff hquote, literal_eq]
  constructor
  · rintro ⟨sum, parts, heq, hsum, hparts⟩
    rw [List.append_cancel_left heq]
    exact ⟨parts, hsum, hparts⟩
  · rintro ⟨parts, hsum, hparts⟩
    exact ⟨_, parts, rfl, hsum, hparts⟩

theorem literal_reads_back_iff_two_lines :
    (∃ sum parts, literal false '\'' "<pre>it's\r\n\"two\" lines</pre>".toList =
        "template: ".toList ++ sum ∧
      Literal.Sum '\'' sum parts ∧
      parts.flatten = withoutBreaks ((Html.Settings.forTemplates false).minify
        "<pre>it's\r\n\"two\" lines</pre>".toList)) ↔
    '\\' ∉ (Html.Settings.forTemplates false).minify
      "<pre>it's\r\n\"two\" lines</pre>".toList :=
  literal_reads_back_iff false '\'' "<pre>it's\r\n\"two\" lines</pre>".toList (.inr rfl)

/-- The pattern `\d+` in a template reads back as `d+`. -/
theorem literal_loses_backslash :
    ¬∃ sum parts, literal false '\'' "<input pattern=\"\\d+\">".toList =
        "template: ".toList ++ sum ∧
      Literal.Sum '\'' sum parts ∧
      parts.flatten = withoutBreaks ((Html.Settings.forTemplates false).minify
        "<input pattern=\"\\d+\">".toList) := by
  rintro ⟨sum, parts, heq, hsum, hparts⟩
  rw [literal_eq] at heq
  have hnone := (Literal.exists_sum_iff (.inr rfl) _).mp
    ⟨parts, List.append_cancel_left heq ▸ hsum, hparts⟩
  exact hnone (by decide +kernel)

end TemplatePass

end Inlay
