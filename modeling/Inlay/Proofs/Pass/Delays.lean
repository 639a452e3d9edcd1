import Inlay.Proofs.Pass.Replacement
import Inlay.Proofs.Pass.Rounds

/-!
How long reads take. The style sheets of a list are read side by side, but the
outcome of the pass is that of reading them one after another; delays only
show in the order in which reads end.
-/

namespace Inlay

open Reading Annotation

def Job.delayed (job : Job) (delay : Text → Nat) : Job :=
  { job with host := { job.host with delay } }

namespace StylePass

/-! ### One after another -/

def sheetInTurn (job : Job) (url : Text) : Reading Text := do
  let r := Stylesheet.Reference.of job.options job.targetDir url
  let source ← job.host.get r.path
  Stylesheet.process job.tools job.options job.targetDir r source

/-- The style sheets of a list, each read and processed before the next. -/
def sheetsInTurn (job : Job) (urls : List Text) : Reading Text :=
  return (← urls.mapM (sheetInTurn job)).flatten

/-- The pass, in whichever way the style sheets of a list are gathered. -/
def applyWith (sheets : List Text → Reading Text) (t : Text) : Reading Text := do
  let replacements ← (styleUrls t).mapM fun (span, a) => do
    return (span, ← replacementWith sheets a)
  return Text.splice t replacements

theorem yields_sheetsInTurn (job : Job) (urls : List Text) :
    (sheetsInTurn job urls).Yields fun css =>
      ∃ parts, Gathered job urls parts ∧ css = parts.flatten := by
  have hsheet : ∀ url ∈ urls, (sheetInTurn job url).Yields
      (Processed job (Stylesheet.Reference.of job.options job.targetDir url)) :=
    fun url _ => (job.host.yields_get _).bind fun source _ => yields_except _
  refine ((yields_mapM hsheet).bind fun parts _ => yields_pure parts.flatten).congr fun css => ?_
  simp only [Gathered, List.forall₂_map_left_iff]

theorem yields_applyWith {job : Job} {sheets : List Text → Reading Text}
    (hsheets : ∀ urls, (sheets urls).Yields fun css =>
      ∃ parts, Gathered job urls parts ∧ css = parts.flatten) (t : Text) :
    (applyWith sheets t).Yields fun out => ∃ news,
      List.Forall₂ (fun a new => ∃ body, Body job a body ∧ new = literal body)
        ((styleUrls t).map Prod.snd) news ∧
      Text.Spliced 0 (((styleUrls t).map Prod.fst).zip news) t out :=
  yields_splice (yields_replacementWith hsheets) (placed_styleUrls t)

/-- Gathering style sheets in two ways makes no difference if each gives the
style sheets of the list in its order. -/
theorem outcome_applyWith {job : Job} {sheets sheets' : List Text → Reading Text}
    (hsheets : ∀ urls, (sheets urls).Yields fun css =>
      ∃ parts, Gathered job urls parts ∧ css = parts.flatten)
    (hsheets' : ∀ urls, (sheets' urls).Yields fun css =>
      ∃ parts, Gathered job urls parts ∧ css = parts.flatten) (t out : Text) :
    (applyWith sheets t).run.1 = .ok out ↔ (applyWith sheets' t).run.1 = .ok out :=
  (yields_applyWith hsheets t _ out).trans (yields_applyWith hsheets' t _ out).symm

/-! ### Any delays -/

/-- The pass only succeeds where all lists are well-formed. -/
theorem urls_eq_listed {job : Job} {t out : Text} (h : (apply job t).run.1 = .ok out) :
    ∀ p ∈ styleUrls t, p.2.urls = .ok p.2.listed := by
  obtain ⟨news, hnews, -⟩ := (StylePass.yields_apply job t _ out).mp h
  have hurls : List.Forall₂ (fun a _ => a.urls = .ok a.listed ∧ True)
      ((styleUrls t).map Prod.snd) news := by
    refine hnews.imp fun a new ⟨body, ⟨urls, hurls, _⟩, _⟩ => ⟨?_, trivial⟩
    rw [StyleUrls.listed_eq hurls, hurls]
  intro p hp
  exact ((List.forall₂_and_left _ _).mp hurls).1 p.2 (List.mem_map_of_mem hp)

/-- Whatever reads take, the pass ends as if style sheets were read strictly
one after another. If it succeeds, reads were started in the order of the
source; those of one list ended by their delays, and in the order of the list
where these are the same. -/
theorem outcome_independent_of_delays (job : Job) (t : Text) (y₁ y₂ : Text → Nat) :
    (∀ out, (apply (job.delayed y₁) t).run.1 = .ok out ↔
      (apply (job.delayed y₂) t).run.1 = .ok out) ∧
    (∀ out, (apply (job.delayed y₁) t).run.1 = .ok out ↔
      (applyWith (sheetsInTurn job) t).run.1 = .ok out) ∧
    (∀ out, (apply (job.delayed y₁) t).run.1 = .ok out →
      ∃ lists, List.Forall₂ (fun a urls => a.urls = .ok urls) (active t) lists ∧
        (apply (job.delayed y₁) t).run.2 =
          ⟨lists.flatMap fun urls => urls.map (job.options.resolve job.targetDir),
            lists.flatMap fun urls => (urls.map (job.options.resolve job.targetDir)).mergeSort
              fun p q => y₁ p ≤ y₁ q⟩) := by
  have hsheets : ∀ y urls, (compileAll (job.delayed y) urls).Yields fun css =>
      ∃ parts, Gathered job urls parts ∧ css = parts.flatten :=
    fun y urls => yields_compileAll (job.delayed y) urls
  refine ⟨outcome_applyWith (hsheets y₁) (hsheets y₂) t,
    outcome_applyWith (hsheets y₁) (yields_sheetsInTurn job) t, fun out hout => ?_⟩
  refine ⟨(active t).map StyleUrls.listed, ?_, ?_⟩
  · rw [List.forall₂_map_right_iff, List.forall₂_same]
    intro a ha
    obtain ⟨p, hp, rfl⟩ := List.mem_map.mp (List.mem_filter.mp ha).1
    exact urls_eq_listed hout p hp
  · rw [(follows_apply (job.delayed y₁) t).reads_eq hout]
    simp only [passReads, Reads.concat, List.flatMap_map]
    rfl

end StylePass

end Inlay
