import Inlay.Proofs.Annotation.Report
import Inlay.Proofs.Pass.StyleSheets
import Inlay.Proofs.Reads

/-!
The reads of the style pass. The sheets of a list are started in its order; a
round ends the reads that are due in it, so that all are ended in the order of
their delays, and in the order of the list where these are the same.
-/

namespace Inlay.StylePass

open Reading Annotation

theorem follows_finish (job : Job) (r : Stylesheet.Reference) :
    (finish job r).Follows ⟨[], [r.path]⟩ :=
  (job.host.follows_finish r.path).bind fun _ source _ =>
    (follows_except (Stylesheet.process job.tools job.options job.targetDir r source)).bind
      fun _ css _ => follows_pure (Slot.done css)

/-! ### Rounds -/

def Slot.due (n : Nat) : Slot → List Text
  | .waiting rounds r => if rounds = n then [r.path] else []
  | .done _ => []

theorem follows_resume (job : Job) (slot : Slot) :
    (resume job slot).Follows ⟨[], slot.due 0⟩ := by
  match slot with
  | .waiting 0 r => exact follows_finish job r
  | .waiting (rounds + 1) r => exact follows_pure _
  | .done css => exact follows_pure _

theorem follows_begin (job : Job) (r : Stylesheet.Reference) :
    (begin job r).Follows ⟨[r.path], (Slot.waiting (job.host.delay r.path) r).due 0⟩ := by
  rw [begin_eq]
  exact (Host.follows_start r.path).bind fun _ _ _ => follows_resume job _

/-- A round brings all that is due one round nearer. -/
theorem Slot.due_of_after_one {job : Job} {slot later : Slot} (h : slot.After job 1 later)
    (n : Nat) : later.due n = slot.due (n + 1) := by
  obtain ⟨r, css, rfl, -, rfl⟩ | ⟨rounds, r, rfl, rfl⟩ | ⟨css, rfl, rfl⟩ := Slot.after_one_cases h
  · simp [Slot.due]
  · simp [Slot.due]
  · rfl

theorem due_of_forall₂_after_one {job : Job} {slots later : List Slot}
    (h : List.Forall₂ (Slot.After job 1) slots later) (n : Nat) :
    later.flatMap (Slot.due n) = slots.flatMap (Slot.due (n + 1)) := by
  induction h with
  | nil => rfl
  | cons h _ ih => rw [List.flatMap_cons, List.flatMap_cons, ih, Slot.due_of_after_one h]

/-- Some rounds end the reads that are due in them, round by round. -/
theorem follows_resumeAll (job : Job) (rounds : Nat) (slots : List Slot) :
    (resumeAll job rounds slots).Follows
      ⟨[], (List.range rounds).flatMap fun n => slots.flatMap (Slot.due n)⟩ := by
  induction rounds generalizing slots with
  | zero => exact follows_pure slots
  | succ rounds ih =>
      have hround := Follows.mapM slots fun slot _ => follows_resume job slot
      have hall := hround.bind fun before mid hmid => by
        have hafter := ((yields_mapM fun slot _ => yields_resume job slot) before mid).mp hmid
        simpa only [due_of_forall₂_after_one hafter] using ih mid
      have hplan : Reads.concat (slots.map fun slot => ⟨[], slot.due 0⟩) ++
          ⟨[], (List.range rounds).flatMap fun n => slots.flatMap (Slot.due (n + 1))⟩ =
          ⟨[], (List.range (rounds + 1)).flatMap fun n => slots.flatMap (Slot.due n)⟩ := by
        show Reads.mk _ _ = Reads.mk _ _
        simp [Reads.concat, List.range_succ_eq_map, List.flatMap_map]
      rwa [hplan] at hall

/-! ### Lists and annotations -/

def listReads (job : Job) (urls : List Text) : Reads :=
  let paths := urls.map (job.options.resolve job.targetDir)
  ⟨paths, paths.mergeSort fun p q => job.host.delay p ≤ job.host.delay q⟩

theorem flatMap_due_at (job : Job) (urls : List Text) (n : Nat) :
    (urls.map (Slot.at job)).flatMap (Slot.due n) =
      (urls.map (pathOf job)).filter (job.host.delay · = n) := by
  induction urls with
  | nil => rfl
  | cons url urls ih =>
      rw [List.map_cons, List.flatMap_cons, ih, List.map_cons, List.filter_cons]
      simp only [Slot.due, Slot.at, decide_eq_true_eq]
      split <;> rfl

/-- The first round of a list starts all its style sheets. -/
theorem follows_begins (job : Job) (urls : List Text) :
    ((urls.map (Stylesheet.Reference.of job.options job.targetDir)).mapM (begin job)).Follows
      ⟨urls.map (pathOf job), (urls.map (Slot.at job)).flatMap (Slot.due 0)⟩ := by
  have hall := Follows.mapM (urls.map (Stylesheet.Reference.of job.options job.targetDir))
    fun r _ => follows_begin job r
  rw [Reads.concat, List.map_map, List.flatMap_map, List.flatMap_map] at hall
  rw [List.map_eq_flatMap (f := pathOf job), List.flatMap_map]
  exact hall

theorem follows_compileAll (job : Job) (urls : List Text) :
    (compileAll job urls).Follows (listReads job urls) := by
  let refer := Stylesheet.Reference.of job.options job.targetDir
  let rounds := ((urls.map refer).map fun r => job.host.delay r.path).foldl max 0
  have hall := (follows_begins job urls).bind fun before slots hslots => by
    have hafter := (yields_begins job urls before slots).mp hslots
    have hrest := follows_resumeAll job rounds slots
    simp only [due_of_forall₂_after_one hafter] at hrest
    exact hrest.bind fun _ later _ => follows_pure (later.flatMap Slot.text)
  have hdelays : ∀ path ∈ urls.map (pathOf job), job.host.delay path < rounds + 1 := by
    intro path hpath
    obtain ⟨url, hurl, rfl⟩ := List.mem_map.mp hpath
    refine Nat.lt_succ_of_le (le_foldl_max (.inr ?_))
    rw [List.map_map]
    exact List.mem_map.mpr ⟨url, hurl, rfl⟩
  have hplan : Reads.mk (urls.map (pathOf job)) ((urls.map (Slot.at job)).flatMap (Slot.due 0)) ++
      (⟨[], (List.range rounds).flatMap fun n =>
        (urls.map (Slot.at job)).flatMap (Slot.due (n + 1))⟩ ++ .none) = listReads job urls := by
    have hsorted := Sorting.flatMap_filter_eq_mergeSort job.host.delay hdelays
    rw [List.range_succ_eq_map, List.flatMap_cons, List.flatMap_map] at hsorted
    simp only [flatMap_due_at, Reads.append_none]
    show Reads.mk _ _ = Reads.mk (urls.map (pathOf job)) ((urls.map (pathOf job)).mergeSort _)
    rw [← hsorted]
    simp
  rwa [hplan] at hall

def annotationReads (job : Job) (a : StyleUrls) : Reads :=
  if a.isCommentedOut then .none else listReads job a.listed

theorem follows_replacement (job : Job) (a : StyleUrls) :
    (replacement job a).Follows (annotationReads job a) := by
  rw [← Reads.none_append (annotationReads job a)]
  refine (follows_except a.urls).bind fun _ urls hurls => ?_
  rw [annotationReads, StyleUrls.listed_eq hurls]
  cases a.isCommentedOut with
  | true => exact follows_pure (literal [])
  | false =>
      have hlist := (follows_compileAll job urls).bind fun _ css _ => follows_pure (literal css)
      rwa [Reads.append_none] at hlist

def active (t : Text) : List StyleUrls :=
  ((styleUrls t).map Prod.snd).filter fun a => !a.isCommentedOut

def passReads (job : Job) (t : Text) : Reads :=
  .concat ((active t).map fun a => listReads job a.listed)

theorem concat_annotationReads (job : Job) (annotations : List StyleUrls) :
    Reads.concat (annotations.map (annotationReads job)) =
      .concat ((annotations.filter fun a => !a.isCommentedOut).map
        fun a => listReads job a.listed) := by
  induction annotations with
  | nil => rfl
  | cons a annotations ih =>
      rw [List.map_cons, Reads.concat_cons, ih, annotationReads, List.filter_cons]
      cases a.isCommentedOut <;> rfl

theorem follows_apply (job : Job) (t : Text) : (apply job t).Follows (passReads job t) := by
  have hall := (Follows.mapM (styleUrls t) fun p _ =>
    (follows_replacement job p.2).bind fun _ new _ => follows_pure (p.1, new)).bind
      fun _ replacements _ => follows_pure (Text.splice t replacements)
  rw [passReads, active, ← concat_annotationReads, List.map_map]
  simp only [Reads.append_none] at hall
  exact hall

end Inlay.StylePass
