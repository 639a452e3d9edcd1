import Inlay.Proofs.Annotation.Rescan
import Inlay.Proofs.Pass.Agreement
import Inlay.Transform
import Mathlib.Data.List.Perm.Basic

/-!
The reads of a whole run. Style sheets are read as a report of the source
announces them. Templates are looked for in what the style pass leaves, the
texts of style sheets included; where no annotation reaches into such a text,
they are those of the report.
-/

namespace Inlay

open Text Reading Annotation

/-- Addresses lead to the same places once the defaults are put in, since an
empty base counts as the default one already. -/
theorem Options.resolve_normalized (options : Options) :
    options.normalized.resolve = options.resolve := by
  funext targetDir url
  have hroot : (if options.normalized.base = [] then ['.', '/'] else options.normalized.base) =
      if options.base = [] then ['.', '/'] else options.base := by
    by_cases hbase : options.base = []
    · have hdefault : options.normalized.base = ['.', '/'] := if_pos hbase
      rw [hdefault, if_neg (List.cons_ne_nil _ _), if_pos hbase]
    · have hkept : options.normalized.base = options.base := if_neg hbase
      rw [hkept]
  rw [resolve, resolve, hroot]
  rfl

/-! ### Reads of both passes -/

theorem StylePass.completed_perm (job : Job) (t : Text) :
    (passReads job t).completed.Perm (passReads job t).started := by
  simp only [passReads, Reads.concat, List.flatMap_map]
  exact List.Perm.flatMap_left _ fun a _ => List.mergeSort_perm _ _

theorem StylePass.started_normalized {job : Job} {t : Text} {r : Report}
    (hr : Report.scan t = .ok r) : (passReads job.normalized t).started =
      (r.ofKind .styleUrls).activeUrls.map (job.options.resolve job.targetDir) := by
  rw [(reads_of_scan hr).1]
  exact congrArg (List.map · _) (congrFun (Options.resolve_normalized _) _)

namespace TemplatePass

theorem paths_normalized (job : Job) (t : Text) : paths job.normalized t = paths job t := by
  unfold paths
  rw [show job.normalized.options.resolve = job.options.resolve from
    Options.resolve_normalized job.options]
  rfl

/-- A run that succeeds reads all templates of the source, one after another. -/
theorem follows_apply (job : Job) (t : Text) :
    (TemplatePass.apply job t).Follows ⟨paths job t, paths job t⟩ := by
  have hloop := Follows.mapM (active t) fun p _ =>
    ((job.host.follows_get (job.options.resolve job.targetDir p.2.url)).bind fun _ html _ =>
      follows_pure (literal job.options.compress p.2.quote html)).bind fun _ new _ =>
        follows_pure (p.1, new)
  have hall := hloop.bind fun _ replacements _ => follows_pure (Text.splice t replacements)
  have hplan : Reads.concat ((active t).map fun p =>
      ⟨[job.options.resolve job.targetDir p.2.url], [job.options.resolve job.targetDir p.2.url]⟩) =
        ⟨paths job t, paths job t⟩ := by
    simp only [Reads.concat, List.flatMap_map, ← List.map_eq_flatMap, paths]
  simp only [Reads.append_none, hplan] at hall
  exact hall

end TemplatePass

/-- The reads of a run that succeeds are those of its two passes. The second
one goes over the text that the first one leaves. -/
theorem exists_styled_of_transform {job : Job} {t out : Text}
    (hstyles : job.options.templatesOnly = false) (hout : (transform job t).run.1 = .ok out) :
    ∃ styled, (StylePass.apply job.normalized t).run.1 = .ok styled ∧
      (transform job t).run.2 = StylePass.passReads job.normalized t ++
        ⟨TemplatePass.paths job styled, TemplatePass.paths job styled⟩ := by
  have htransform : transform job t =
      StylePass.apply job.normalized t >>= TemplatePass.apply job.normalized := by
    have hnormalized : job.normalized.options.templatesOnly = false := hstyles
    simp only [transform, hnormalized, Bool.false_eq_true, if_false]
  rw [htransform] at hout ⊢
  simp only [← TemplatePass.paths_normalized job]
  exact (StylePass.follows_apply _ t).exists_of_bind
    (fun styled => TemplatePass.follows_apply _ styled) hout

theorem Report.activeUrls_perm (r : Report) :
    ((r.ofKind .styleUrls).activeUrls ++ (r.ofKind .templateUrl).activeUrls).Perm
      r.activeUrls := by
  have hkinds : (r.ofKind .styleUrls ++ r.ofKind .templateUrl).Perm r := by
    have hother : ∀ entry : Report.Entry,
        decide (entry.kind = .templateUrl) = !decide (entry.kind = .styleUrls) := by
      intro entry
      cases entry.kind <;> rfl
    simp only [ofKind, hother]
    exact List.filter_append_perm _ r
  simp only [activeUrls, ← List.flatMap_append, ← List.filter_append]
  exact (hkinds.filter _).flatMap_right _

/-- Replaced style sheets do not change which templates are read if no
annotation of a template reaches into a list of style sheets, nor, behind the
style pass, into the text that has taken its place. -/
theorem TemplatePass.paths_of_spliced {job : Job} {t styled : Text}
    {replacements : List (Span × Text)} (h : Spliced 0 replacements t styled)
    (hold : ∀ p ∈ templateUrls t, ∀ r ∈ replacements, p.1.Apart r.1)
    (hnew : ∀ p ∈ templateUrls styled, ∀ span ∈ inserted replacements, p.1.Apart span) :
    paths job styled = paths job t := by
  have hsame : (templateUrls styled).map Prod.snd = (templateUrls t).map Prod.snd :=
    map_snd_located_of_spliced exact_templateUrl? startsApart_templateKey.opened_ne_nil h hold hnew
  have hpaths : ∀ t, paths job t = (((templateUrls t).map Prod.snd).filter
      fun a => !a.isCommentedOut).map fun a => job.options.resolve job.targetDir a.url := by
    intro t
    rw [List.filter_map, List.map_map]
    rfl
  rw [hpaths, hpaths, hsame]

/-- A run that succeeds reads the style sheets of a report, and then the
templates of the text that the style pass leaves. These reads are the announced
ones exactly if its templates are those of the source, up to their order. They
are if no annotation of a template reaches into a list of style sheets or into
a text that has taken its place. -/
theorem transform_reads_announced_iff (job : Job) (t out : Text)
    (hstyles : job.options.templatesOnly = false) (hout : (transform job t).run.1 = .ok out) :
    ∃ r styled news, Report.scan t = .ok r ∧
      (StylePass.apply job.normalized t).run.1 = .ok styled ∧
      List.Forall₂ (fun a new => ∃ body, StylePass.Body job.normalized a body ∧
        new = StylePass.literal body) ((styleUrls t).map Prod.snd) news ∧
      Spliced 0 (((styleUrls t).map Prod.fst).zip news) t styled ∧
      let announced := r.activeUrls.map (job.options.resolve job.targetDir)
      let reads := (transform job t).run.2
      reads.started = (r.ofKind .styleUrls).activeUrls.map (job.options.resolve job.targetDir) ++
        TemplatePass.paths job styled ∧
      reads.completed.Perm reads.started ∧
      (reads.started.Perm announced ↔
        (TemplatePass.paths job styled).Perm (TemplatePass.paths job t)) ∧
      ((∀ p ∈ templateUrls t, ∀ q ∈ styleUrls t, p.1.Apart q.1) →
        (∀ p ∈ templateUrls styled,
          ∀ span ∈ inserted (((styleUrls t).map Prod.fst).zip news), p.1.Apart span) →
        reads.started.Perm announced) := by
  obtain ⟨styled, hstyled, hreads⟩ := exists_styled_of_transform hstyles hout
  obtain ⟨news, hnews, hspliced⟩ := (StylePass.yields_apply _ t _ styled).mp hstyled
  obtain ⟨r, hr⟩ := StylePass.exists_scan_eq_ok hstyled
  have hstarted : (transform job t).run.2.started =
      (r.ofKind .styleUrls).activeUrls.map (job.options.resolve job.targetDir) ++
        TemplatePass.paths job styled := by
    rw [hreads, Reads.started_append, StylePass.started_normalized hr]
  have hannounced : ((r.ofKind .styleUrls).activeUrls.map (job.options.resolve job.targetDir) ++
      TemplatePass.paths job t).Perm (r.activeUrls.map (job.options.resolve job.targetDir)) := by
    have hkinds := r.activeUrls_perm.map (job.options.resolve job.targetDir)
    rwa [List.map_append, Report.activeUrls_templates hr, List.map_map] at hkinds
  have hiff : (transform job t).run.2.started.Perm
      (r.activeUrls.map (job.options.resolve job.targetDir)) ↔
        (TemplatePass.paths job styled).Perm (TemplatePass.paths job t) := by
    rw [hstarted, ← hannounced.congr_right, List.perm_append_left_iff]
  refine ⟨r, styled, news, hr, hstyled, hnews, hspliced, hstarted, ?_, hiff, fun hold hnew => ?_⟩
  · rw [hreads, Reads.completed_append, Reads.started_append]
    exact (StylePass.completed_perm _ t).append_right _
  · refine hiff.mpr (List.Perm.of_eq (TemplatePass.paths_of_spliced hspliced ?_ hnew))
    intro p hp q hq
    obtain ⟨q', hq', heq⟩ := List.mem_map.mp (List.of_mem_zip hq).1
    rw [← heq]
    exact hold p hp q' hq'

def plainFiles (files : Files) : Job where
  options := {}
  targetDir := none
  host := .ofFiles files fun _ => 0
  tools :=
    { less := fun _ _ source => .ended true (Utf8.encode source) []
      scss := fun _ source => .ok source
      minifier := fun _ => none }

def harmless : Job := plainFiles
  [("a.css".toList, "x\x7by: templateUrl\x7d".toList), ("t.html".toList, "<p></p>".toList)]

theorem transform_reads_announced_iff_harmless :
    ∃ r, Report.scan "styleUrls: ['a.css'], templateUrl: 't.html'".toList = .ok r ∧
      (transform harmless "styleUrls: ['a.css'], templateUrl: 't.html'".toList).run.2.started.Perm
        (r.activeUrls.map (harmless.options.resolve harmless.targetDir)) := by
  obtain ⟨r, styled, news, hr, hstyled, -, -, -, -, hiff, -⟩ :=
    transform_reads_announced_iff harmless "styleUrls: ['a.css'], templateUrl: 't.html'".toList
      "styles: ['x\x7by: templateUrl\x7d'], template: '<p></p>'".toList
      (by decide +kernel) (by decide +kernel)
  have hpass : (StylePass.apply harmless.normalized
      "styleUrls: ['a.css'], templateUrl: 't.html'".toList).run.1 =
        .ok "styles: ['x\x7by: templateUrl\x7d'], templateUrl: 't.html'".toList := by
    decide +kernel
  obtain rfl := Except.ok.inj (hstyled.symm.trans hpass)
  exact ⟨r, hr, hiff.mpr (by decide +kernel)⟩

/-- A style sheet that reads like the annotation of a template. -/
def misleading : Job := plainFiles
  [("a.css".toList, "x\x7by: templateUrl: \"t.html\"\x7d".toList),
    ("t.html".toList, "<p></p>".toList)]

/-- A template is read that no annotation of the source names, and its text is
put into the text of the style sheet. -/
theorem transform_reads_unannounced :
    (transform misleading "styleUrls: ['a.css']".toList).run =
      (.ok "styles: ['x\x7by: template: \"<p></p>\"\x7d']".toList,
        ⟨["a.css".toList, "t.html".toList], ["a.css".toList, "t.html".toList]⟩) ∧
    Report.scan "styleUrls: ['a.css']".toList = .ok [⟨.styleUrls, 1, ["a.css".toList], false⟩] ∧
    ¬(transform misleading "styleUrls: ['a.css']".toList).run.2.started.Perm
      (Report.activeUrls [⟨.styleUrls, 1, ["a.css".toList], false⟩] |>.map
        (misleading.options.resolve misleading.targetDir)) := by
  refine ⟨by decide +kernel, by decide +kernel, by decide +kernel⟩

end Inlay
