import Inlay.Proofs.Pass.Failure

/-!
Reports and passes agree. A report fails where the style pass would for its
lists alone, and what the passes read is what a report of the source names.
-/

namespace Inlay

open Reading Annotation

namespace StylePass

def leading (t : Text) : List (Span × StyleUrls) :=
  (styleUrls t).takeWhile fun p => p.2.urls.isOk

theorem mem_leading {t : Text} {front back : List (Span × StyleUrls)}
    (hall : styleUrls t = front ++ back) (hfront : ∀ p ∈ front, ∃ urls, p.2.urls = .ok urls)
    {p : Span × StyleUrls} (hp : p ∈ front) : p ∈ leading t := by
  rw [leading, hall, List.takeWhile_append_of_pos]
  · exact List.mem_append_left _ hp
  · intro q hq
    obtain ⟨urls, hurls⟩ := hfront q hq
    rw [hurls]
    rfl

/-- All style sheets can be read and processed that the pass asks for up to
the first malformed list. -/
def AllProcessed (job : Job) (t : Text) : Prop :=
  ∀ p ∈ leading t, p.2.isCommentedOut = false → ∀ url ∈ p.2.listed, ∃ css,
    Processed job (Stylesheet.Reference.of job.options job.targetDir url) css

theorem AllProcessed.not_faulty {job : Job} {t : Text} (h : AllProcessed job t)
    {p : Span × StyleUrls} (hp : p ∈ leading t) : ¬Faulty job p.2 := by
  have hok : p.2.urls.isOk = true := List.all_eq_true.mp List.all_takeWhile p hp
  rintro (⟨e, he⟩ | ⟨hactive, url, hurl, e, he⟩)
  · simp [he, Except.isOk, Except.toBool] at hok
  · obtain ⟨css, hcss⟩ := h p hp hactive url hurl
    rw [← sheet_eq_ok_iff, ← sheetAt, he] at hcss
    contradiction

/-- The pass fails with the first malformed list. -/
theorem apply_eq_error {job : Job} {t : Text} (h : AllProcessed job t) {e : Error}
    (he : Report.FirstMalformed t e) : (apply job t).run.1 = .error e := by
  obtain ⟨front, p, back, hall, hfront, hp⟩ := he
  obtain ⟨complaint, rfl⟩ := exists_of_urls_eq_error hp
  -- nothing in front of the list fails, so the pass gets there
  have hsound : ∀ q ∈ front, ¬Faulty job q.2 :=
    fun q hq => h.not_faulty (mem_leading hall hfront hq)
  exact (fails_apply hall hsound (.malformed hp)).run.1

/-- Where style sheets are no obstacle, the pass fails as a report does. -/
theorem apply_eq_error_iff {job : Job} {t : Text} (h : AllProcessed job t) {e : Error} :
    (apply job t).run.1 = .error e ↔ Report.scan t = .error e := by
  cases hscan : Report.scan t with
  | error e' =>
      simp [apply_eq_error h (Report.scan_eq_error_iff.mp hscan)]
  | ok r =>
      have hsound : ∀ p ∈ styleUrls t, ¬Faulty job p.2 := fun p hp =>
        h.not_faulty (mem_leading (List.append_nil (styleUrls t)).symm
          (Report.scan_eq_ok_iff.mp hscan).1 hp)
      obtain ⟨out, hout⟩ := exists_apply_eq_ok hsound
      simp [hout]

end StylePass

/-! ### Reads of the template pass -/

namespace TemplatePass

def paths (job : Job) (t : Text) : List Text :=
  (active t).map fun p => job.options.resolve job.targetDir p.2.url

theorem tries_replacement (job : Job) (a : TemplateUrl) :
    (replacement job a).Tries job.host [job.options.resolve job.targetDir a.url] :=
  (job.host.tries_get _).bind fun _ => tries_pure _ _

theorem tries_apply (job : Job) (t : Text) :
    (TemplatePass.apply job t).Tries job.host (paths job t) := by
  have hloop := Tries.mapM (active t) fun p _ =>
    (tries_replacement job p.2).bind fun new => tries_pure job.host (p.1, new)
  have hall := hloop.bind fun replacements => tries_pure job.host (Text.splice t replacements)
  simp only [List.append_nil] at hall
  exact hall

end TemplatePass

/-! ### Reports and passes -/

namespace Report

/-- A report fails with the complaint about the first malformed list. -/
theorem scan_eq_malformed_iff {t : Text} {e : Error} :
    scan t = .error e ↔ ∃ front p back complaint, styleUrls t = front ++ p :: back ∧
      (∀ q ∈ front, ∃ urls, q.2.urls = .ok urls) ∧
      p.2.urls = .error (.malformedList p.2.list complaint) ∧
      e = .malformedList p.2.list complaint := by
  rw [scan_eq_error_iff]
  constructor
  · rintro ⟨front, p, back, hall, hfront, hp⟩
    obtain ⟨complaint, rfl⟩ := exists_of_urls_eq_error hp
    exact ⟨front, p, back, complaint, hall, hfront, hp, rfl⟩
  · rintro ⟨front, p, back, complaint, hall, hfront, hp, rfl⟩
    exact ⟨front, p, back, hall, hfront, hp⟩

theorem activeUrls_styles {t : Text} {r : Report} (h : scan t = .ok r) :
    (r.ofKind .styleUrls).activeUrls = (StylePass.active t).flatMap StyleUrls.listed := by
  rw [(ofKind_scan h).1, activeUrls, StylePass.active, List.filter_map, List.filter_map,
    List.flatMap_map, List.flatMap_map]
  rfl

theorem activeUrls_templates {t : Text} {r : Report} (h : scan t = .ok r) :
    (r.ofKind .templateUrl).activeUrls = (TemplatePass.active t).map fun p => p.2.url := by
  rw [(ofKind_scan h).2, activeUrls, TemplatePass.active, List.filter_map, List.flatMap_map,
    List.map_eq_flatMap]
  rfl

end Report

theorem Host.has_iff {host : Host} {path : Text} :
    host.has path = true ↔ ∃ content, host.read path = .ok content := by
  rw [has]
  cases host.read path <;> simp [Except.isOk, Except.toBool]

theorem TemplatePass.apply_of_scan (job : Job) {t : Text} {r : Report}
    (hr : Report.scan t = .ok r) :
    let paths := (r.ofKind .templateUrl).activeUrls.map (job.options.resolve job.targetDir)
    (TemplatePass.apply job t).run.2.started = job.host.upToMissing paths ∧
      ((∃ out, (TemplatePass.apply job t).run.1 = .ok out) ↔
        ∀ path ∈ paths, ∃ html, job.host.read path = .ok html) := by
  intro paths
  have hpaths : TemplatePass.paths job t = paths := by
    simp only [paths, Report.activeUrls_templates hr, List.map_map]
    rfl
  obtain ⟨hok, hstarted⟩ := (tries_apply job t).run
  rw [hpaths] at hok hstarted
  refine ⟨hstarted, ?_⟩
  simp only [← Host.has_iff, ← List.all_eq_true, ← hok]
  cases (TemplatePass.apply job t).run.1 <;> simp [Except.isOk, Except.toBool]

theorem StylePass.reads_of_scan {job : Job} {t : Text} {r : Report} (hr : Report.scan t = .ok r) :
    (passReads job t).started =
        (r.ofKind .styleUrls).activeUrls.map (job.options.resolve job.targetDir) ∧
      (passReads job t).completed =
        ((r.ofKind .styleUrls).filter fun entry => !entry.commentedOut).flatMap fun entry =>
          (entry.urls.map (job.options.resolve job.targetDir)).mergeSort
            fun p q => job.host.delay p ≤ job.host.delay q := by
  constructor
  · simp only [Report.activeUrls_styles hr, passReads, Reads.concat, List.map_flatMap,
      List.flatMap_map]
    rfl
  · rw [(Report.ofKind_scan hr).1, List.filter_map, List.flatMap_map]
    simp only [passReads, Reads.concat, List.flatMap_map, active, List.filter_map]
    rfl

theorem StylePass.exists_scan_eq_ok {job : Job} {t out : Text}
    (h : (StylePass.apply job t).run.1 = .ok out) : ∃ r, Report.scan t = .ok r :=
  ⟨_, Report.scan_eq_ok_iff.mpr ⟨fun p hp => ⟨_, urls_eq_listed h p hp⟩, rfl⟩⟩

/-- Where style sheets are no obstacle, the style pass fails as a report does:
at the first malformed list, be it commented out. Templates are read in the
order of a report up to the first that is missing, and a style pass that
succeeds has read the style sheets of a report, annotation by annotation. No
pass reads anything for an annotation that is commented out. -/
theorem scan_agrees_with_passes (job : Job) (t : Text) :
    (StylePass.AllProcessed job t → ∀ e,
      (StylePass.apply job t).run.1 = .error e ↔ Report.scan t = .error e) ∧
    (∀ e, Report.scan t = .error e ↔ ∃ front p back complaint,
      styleUrls t = front ++ p :: back ∧ (∀ q ∈ front, ∃ urls, q.2.urls = .ok urls) ∧
        p.2.urls = .error (.malformedList p.2.list complaint) ∧
        e = .malformedList p.2.list complaint) ∧
    (∀ r, Report.scan t = .ok r →
      r.ofKind .styleUrls = (styleUrls t).map (Report.listEntry t) ∧
      r.ofKind .templateUrl = (templateUrls t).map (fun p => Report.templateEntry t p.1 p.2) ∧
      let paths := (r.ofKind .templateUrl).activeUrls.map (job.options.resolve job.targetDir)
      (TemplatePass.apply job t).run.2.started = job.host.upToMissing paths ∧
        ((∃ out, (TemplatePass.apply job t).run.1 = .ok out) ↔
          ∀ path ∈ paths, ∃ html, job.host.read path = .ok html)) ∧
    (∀ out, (StylePass.apply job t).run.1 = .ok out → ∃ r, Report.scan t = .ok r ∧
      (StylePass.apply job t).run.2.started =
        (r.ofKind .styleUrls).activeUrls.map (job.options.resolve job.targetDir) ∧
      (StylePass.apply job t).run.2.completed =
        ((r.ofKind .styleUrls).filter fun entry => !entry.commentedOut).flatMap fun entry =>
          (entry.urls.map (job.options.resolve job.targetDir)).mergeSort
            fun p q => job.host.delay p ≤ job.host.delay q) ∧
    (StylePass.apply job t).run.2.started <+: (StylePass.active t).flatMap (fun a =>
      a.listed.map (job.options.resolve job.targetDir)) ∧
    (TemplatePass.apply job t).run.2.started <+: (TemplatePass.active t).map fun p =>
      job.options.resolve job.targetDir p.2.url := by
  refine ⟨fun h e => StylePass.apply_eq_error_iff h, fun e => Report.scan_eq_malformed_iff,
    fun r hr => ⟨(Report.ofKind_scan hr).1, (Report.ofKind_scan hr).2,
      TemplatePass.apply_of_scan job hr⟩, fun out hout => ?_, ?_, ?_⟩
  · obtain ⟨r, hr⟩ := StylePass.exists_scan_eq_ok hout
    rw [(StylePass.follows_apply job t).reads_eq hout]
    exact ⟨r, hr, StylePass.reads_of_scan hr⟩
  · have hprefix := (StylePass.follows_apply job t).started_isPrefix
    simp only [StylePass.passReads, Reads.concat, List.flatMap_map] at hprefix
    exact hprefix
  · have hstarted := (TemplatePass.tries_apply job t).run.2
    rw [hstarted]
    exact job.host.upToMissing_isPrefix _

end Inlay
