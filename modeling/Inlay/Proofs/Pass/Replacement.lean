import Inlay.Pass.Template
import Inlay.Proofs.Annotation.Readers
import Inlay.Proofs.Pass.StyleSheets

/-!
What a pass does to a source: new text in the places of its annotations, and
everything else as it was.
-/

namespace Inlay

open Text Reading Annotation

/-- Making new texts for what was found, one after another, and splicing them
in replaces exactly the places of what was found. -/
theorem yields_splice {found : List (Span × α)} {make : α → Reading Text}
    {P : α → Text → Prop} {t : Text} (hmake : ∀ a, (make a).Yields (P a))
    (hplaced : Placed 0 (found.map Prod.fst) t) :
    (do
      let replacements ← found.mapM fun (span, a) => do return (span, ← make a)
      return splice t replacements : Reading Text).Yields fun out =>
    ∃ news, List.Forall₂ P (found.map Prod.snd) news ∧
      Spliced 0 ((found.map Prod.fst).zip news) t out := by
  have hone : ∀ p ∈ found, (do return (p.1, ← make p.2) : Reading (Span × Text)).Yields
      fun r => ∃ new, P p.2 new ∧ r = (p.1, new) :=
    fun p _ => (hmake p.2).bind fun new _ => yields_pure (p.1, new)
  refine ((yields_mapM hone).bind fun replacements _ =>
    yields_pure (splice t replacements)).congr fun out => ?_
  -- the loop gives the spans beside the new texts
  have hzip : ∀ replacements : List (Span × Text),
      List.Forall₂ (fun p r => ∃ new, P p.2 new ∧ r = (p.1, new)) found replacements ↔
        ∃ news, List.Forall₂ P (found.map Prod.snd) news ∧
          replacements = (found.map Prod.fst).zip news := by
    clear hone hplaced
    induction found with
    | nil => simp
    | cons p found ih =>
        intro replacements
        simp only [List.forall₂_cons_left_iff, List.map_cons, ih]
        constructor
        · rintro ⟨_, _, ⟨new, hnew, rfl⟩, ⟨news, hnews, rfl⟩, rfl⟩
          exact ⟨new :: news, ⟨new, news, hnew, hnews, rfl⟩, rfl⟩
        · rintro ⟨_, ⟨new, news, hnew, hnews, rfl⟩, rfl⟩
          exact ⟨_, _, ⟨new, hnew, rfl⟩, ⟨news, hnews, rfl⟩, rfl⟩
  have hspliced : ∀ news, List.Forall₂ P (found.map Prod.snd) news →
      (Spliced 0 ((found.map Prod.fst).zip news) t out ↔
        out = splice t ((found.map Prod.fst).zip news)) := by
    intro news hnews
    apply spliced_iff
    rwa [List.map_fst_zip (Nat.le_of_eq (by simpa using hnews.length_eq))]
  constructor
  · rintro ⟨replacements, hreplacements, rfl⟩
    obtain ⟨news, hnews, rfl⟩ := (hzip replacements).mp hreplacements
    exact ⟨news, hnews, (hspliced news hnews).mpr rfl⟩
  · rintro ⟨news, hnews, hout⟩
    exact ⟨_, (hzip _).mpr ⟨news, hnews, rfl⟩, (hspliced news hnews).mp hout⟩

theorem StylePass.yields_apply (job : Job) (t : Text) :
    (StylePass.apply job t).Yields fun out => ∃ news,
      List.Forall₂ (fun a new => ∃ body, Body job a body ∧ new = literal body)
        ((styleUrls t).map Prod.snd) news ∧
      Spliced 0 (((styleUrls t).map Prod.fst).zip news) t out :=
  yields_splice (yields_replacement job) (placed_styleUrls t)

namespace TemplatePass

def active (t : Text) : List (Span × TemplateUrl) :=
  (templateUrls t).filter fun (_, a) => !a.isCommentedOut

theorem placed_active (t : Text) : Placed 0 ((active t).map Prod.fst) t :=
  (placed_templateUrls t).sublist (List.filter_sublist.map Prod.fst)

theorem yields_replacement (job : Job) (a : TemplateUrl) :
    (replacement job a).Yields fun new => ∃ html,
      job.host.read (job.options.resolve job.targetDir a.url) = .ok html ∧
      new = literal job.options.compress a.quote html :=
  (job.host.yields_get _).bind fun html _ => yields_pure (literal job.options.compress a.quote html)

theorem yields_apply (job : Job) (t : Text) :
    (TemplatePass.apply job t).Yields fun out => ∃ news,
      List.Forall₂ (fun a new => ∃ html,
          job.host.read (job.options.resolve job.targetDir a.url) = .ok html ∧
          new = literal job.options.compress a.quote html)
        ((active t).map Prod.snd) news ∧
      Spliced 0 (((active t).map Prod.fst).zip news) t out :=
  yields_splice (yields_replacement job) (placed_active t)

end TemplatePass

/-- Each pass succeeds with exactly one text: the source with new texts at the
places of its annotations, which stand apart from each other on whole
characters. A list of style sheets gives way to their texts, or to nothing if
it is commented out; of the templates, those that are commented out stay. -/
theorem passes_replace_only_annotations (job : Job) (t : Text) :
    (WellPlaced t ((styleUrls t).map Prod.fst) ∧
      WellPlaced t ((templateUrls t).map Prod.fst)) ∧
    (∀ out, (StylePass.apply job t).run.1 = .ok out ↔ ∃ news,
      List.Forall₂ (fun a new => ∃ body, StylePass.Body job a body ∧
          new = "styles: ['".toList ++ body ++ "']".toList)
        ((styleUrls t).map Prod.snd) news ∧
      Spliced 0 (((styleUrls t).map Prod.fst).zip news) t out) ∧
    (∀ out, (TemplatePass.apply job t).run.1 = .ok out ↔ ∃ news,
      List.Forall₂ (fun a new => ∃ html inner,
          job.host.read (job.options.resolve job.targetDir a.url) = .ok html ∧
          new = TemplatePass.literal job.options.compress a.quote html ∧
          new = "template: ".toList ++ a.quote :: inner ++ [a.quote])
        ((TemplatePass.active t).map Prod.snd) news ∧
      Spliced 0 (((TemplatePass.active t).map Prod.fst).zip news) t out) ∧
    (styleUrls t = [] → (StylePass.apply job t).run = (.ok t, Reads.none)) ∧
    (templateUrls t = [] → (TemplatePass.apply job t).run = (.ok t, Reads.none)) := by
  refine ⟨⟨wellPlaced_found Annotation.takesFront_styleUrls? t,
    wellPlaced_found Annotation.takesFront_templateUrl? t⟩, ?_, ?_, ?_, ?_⟩
  · intro out
    rw [run_fst]
    exact StylePass.yields_apply job t Reads.none out
  · intro out
    rw [run_fst]
    refine (TemplatePass.yields_apply job t Reads.none out).trans ?_
    have hinner : ∀ (a : TemplateUrl) (html : Text), ∃ inner,
        TemplatePass.literal job.options.compress a.quote html =
          "template: ".toList ++ a.quote :: inner ++ [a.quote] := fun _ _ => ⟨_, rfl⟩
    constructor
    · rintro ⟨news, hnews, hout⟩
      refine ⟨news, hnews.imp ?_, hout⟩
      rintro a new ⟨html, hread, rfl⟩
      obtain ⟨inner, hinner⟩ := hinner a html
      exact ⟨html, inner, hread, rfl, hinner⟩
    · rintro ⟨news, hnews, hout⟩
      refine ⟨news, hnews.imp ?_, hout⟩
      rintro a new ⟨html, inner, hread, hnew, -⟩
      exact ⟨html, hread, hnew⟩
  · intro hnone
    rw [StylePass.apply, hnone]
    rfl
  · intro hnone
    rw [TemplatePass.apply, hnone]
    rfl

end Inlay
