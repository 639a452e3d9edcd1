import Inlay.Pass.Style
import Inlay.Proofs.Reading

/-!
What the style sheets of an annotation come to. They are read together in
rounds, but a text that comes of it is always the processed style sheets in
the order of the list.
-/

namespace Inlay.StylePass

open Reading

def Processed (job : Job) (r : Stylesheet.Reference) (css : Text) : Prop :=
  ∃ source, job.host.read r.path = .ok source ∧
    Stylesheet.process job.tools job.options job.targetDir r source = .ok css

theorem yields_finish (job : Job) (r : Stylesheet.Reference) :
    (finish job r).Yields fun slot => ∃ css, Processed job r css ∧ slot = .done css := by
  refine ((job.host.yields_finish r.path).bind fun source _ => (yields_except _).bind
    fun css _ => yields_pure (Slot.done css)).congr fun slot => ?_
  constructor
  · rintro ⟨source, hsource, css, hcss, rfl⟩
    exact ⟨css, ⟨source, hsource, hcss⟩, rfl⟩
  · rintro ⟨css, ⟨source, hsource, hcss⟩, rfl⟩
    exact ⟨source, hsource, css, hcss, rfl⟩

/-! ### Rounds -/

/-- What a slot can be after some rounds: a read ends in the round behind
those that it waits for. -/
def Slot.After (job : Job) : Nat → Slot → Slot → Prop
  | rounds, .waiting left r, later =>
    if rounds ≤ left then later = .waiting (left - rounds) r
    else ∃ css, Processed job r css ∧ later = .done css
  | _, .done css, later => later = .done css

/-- What one round does to a slot. -/
theorem Slot.after_one_cases {job : Job} {slot later : Slot} (h : slot.After job 1 later) :
    (∃ r css, slot = .waiting 0 r ∧ Processed job r css ∧ later = .done css) ∨
      (∃ rounds r, slot = .waiting (rounds + 1) r ∧ later = .waiting rounds r) ∨
      ∃ css, slot = .done css ∧ later = .done css := by
  match slot with
  | .waiting 0 r =>
      rw [Slot.After, if_neg (by omega)] at h
      obtain ⟨css, hcss, rfl⟩ := h
      exact .inl ⟨r, css, rfl, hcss, rfl⟩
  | .waiting (rounds + 1) r =>
      rw [Slot.After, if_pos (by omega)] at h
      exact .inr (.inl ⟨rounds, r, rfl, h⟩)
  | .done css => exact .inr (.inr ⟨css, rfl, h⟩)

theorem yields_resume (job : Job) (slot : Slot) :
    (resume job slot).Yields (slot.After job 1) := by
  match slot with
  | .waiting 0 r => exact yields_finish job r
  | .waiting (rounds + 1) r =>
      refine (yields_pure _).congr fun later => ?_
      simp [Slot.After]
  | .done css => exact yields_pure _

/-- A read that starts takes part in the round at once. -/
theorem begin_eq (job : Job) (r : Stylesheet.Reference) :
    begin job r =
      Host.start r.path >>= fun _ => resume job (.waiting (job.host.delay r.path) r) := by
  unfold begin
  cases job.host.delay r.path <;> rfl

theorem yields_begin (job : Job) (r : Stylesheet.Reference) :
    (begin job r).Yields ((Slot.waiting (job.host.delay r.path) r).After job 1) := by
  rw [begin_eq]
  exact ((yields_modify _).bind fun _ _ => yields_resume job _).congr (by simp)

theorem Slot.after_add (job : Job) (m n : Nat) (slot later : Slot) :
    slot.After job (m + n) later ↔ ∃ mid, slot.After job m mid ∧ mid.After job n later := by
  cases slot with
  | done css => simp [Slot.After]
  | waiting left r =>
      by_cases hm : m ≤ left
      · simp only [Slot.After, hm, if_true, exists_eq_left]
        by_cases hmn : m + n ≤ left
        · rw [if_pos hmn, if_pos (by omega), Nat.sub_sub]
        · rw [if_neg hmn, if_neg (by omega)]
      · rw [Slot.After, if_neg (by omega)]
        constructor
        · rintro ⟨css, hcss, rfl⟩
          refine ⟨.done css, ?_, rfl⟩
          rw [Slot.After, if_neg hm]
          exact ⟨css, hcss, rfl⟩
        · rintro ⟨mid, hmid, hlater⟩
          rw [Slot.After, if_neg hm] at hmid
          obtain ⟨css, hcss, rfl⟩ := hmid
          exact ⟨css, hcss, hlater⟩

theorem forall₂_after_add (job : Job) (m n : Nat) (slots later : List Slot) :
    List.Forall₂ (Slot.After job (m + n)) slots later ↔
      ∃ mid, List.Forall₂ (Slot.After job m) slots mid ∧
        List.Forall₂ (Slot.After job n) mid later := by
  constructor
  · intro h
    induction h with
    | nil => exact ⟨[], .nil, .nil⟩
    | cons hslot _ ih =>
        obtain ⟨mid, hfirst, hsecond⟩ := (Slot.after_add job m n _ _).mp hslot
        obtain ⟨mids, hfirsts, hseconds⟩ := ih
        exact ⟨mid :: mids, .cons hfirst hfirsts, .cons hsecond hseconds⟩
  · rintro ⟨mid, hfirsts, hseconds⟩
    induction hfirsts generalizing later with
    | nil =>
        cases hseconds
        exact .nil
    | cons hfirst _ ih =>
        cases hseconds with
        | cons hsecond hseconds =>
            exact .cons ((Slot.after_add job m n _ _).mpr ⟨_, hfirst, hsecond⟩) (ih _ hseconds)

theorem yields_resumeAll (job : Job) (rounds : Nat) (slots : List Slot) :
    (resumeAll job rounds slots).Yields (List.Forall₂ (Slot.After job rounds) slots) := by
  induction rounds generalizing slots with
  | zero =>
      refine (yields_pure slots).congr fun later => ?_
      have hzero : Slot.After job 0 = (· = ·) := by
        funext slot later
        cases slot <;> simp [Slot.After, eq_comm]
      rw [hzero, List.forall₂_eq_eq_eq]
      exact eq_comm
  | succ rounds ih =>
      refine ((yields_mapM fun slot _ => yields_resume job slot).bind fun mid _ =>
        ih mid).congr fun later => ?_
      rw [Nat.add_comm, forall₂_after_add]

/-! ### A whole list -/

def pathOf (job : Job) (url : Text) : Text := job.options.resolve job.targetDir url

def Slot.at (job : Job) (url : Text) : Slot :=
  .waiting (job.host.delay (pathOf job url)) (Stylesheet.Reference.of job.options job.targetDir url)

theorem yields_begins (job : Job) (urls : List Text) :
    ((urls.map (Stylesheet.Reference.of job.options job.targetDir)).mapM (begin job)).Yields
      (List.Forall₂ (Slot.After job 1) (urls.map (Slot.at job))) := by
  refine (yields_mapM fun r _ => yields_begin job r).congr fun slots => ?_
  rw [List.forall₂_map_left_iff, List.forall₂_map_left_iff]
  rfl

theorem le_foldl_max {n m : Nat} {delays : List Nat} (h : n ≤ m ∨ n ∈ delays) :
    n ≤ delays.foldl max m := by
  induction delays generalizing m with
  | nil => simpa using h
  | cons d delays ih =>
      apply ih
      rcases h with h | h
      · exact .inl (by omega)
      · rcases List.mem_cons.mp h with rfl | h
        · exact .inl (by omega)
        · exact .inr h

def Gathered (job : Job) (urls : List Text) (parts : List Text) : Prop :=
  List.Forall₂ (Processed job) (urls.map (Stylesheet.Reference.of job.options job.targetDir)) parts

/-- There are as many rounds as the slowest read takes. -/
theorem forall₂_after_begin_iff (job : Job) {rounds : Nat} {urls : List Text}
    (hrounds : ∀ url ∈ urls, job.host.delay (pathOf job url) ≤ rounds) (later : List Slot) :
    List.Forall₂ (Slot.After job (1 + rounds)) (urls.map (Slot.at job)) later ↔
      ∃ parts, Gathered job urls parts ∧ later = parts.map .done := by
  induction urls generalizing later with
  | nil => simp [Gathered]
  | cons url urls ih =>
      have hurl : ¬1 + rounds ≤ job.host.delay (pathOf job url) := by
        have hle := hrounds url List.mem_cons_self
        omega
      have ih := ih fun other h => hrounds other (List.mem_cons_of_mem _ h)
      simp only [Gathered, List.map_cons, List.forall₂_cons_left_iff, Slot.at, Slot.After,
        if_neg hurl]
      constructor
      · rintro ⟨slot, slots, ⟨css, hcss, rfl⟩, hslots, rfl⟩
        obtain ⟨parts, hparts, rfl⟩ := (ih slots).mp hslots
        exact ⟨css :: parts, ⟨css, parts, hcss, hparts, rfl⟩, rfl⟩
      · rintro ⟨_, ⟨css, parts, hcss, hparts, rfl⟩, rfl⟩
        exact ⟨.done css, parts.map .done, ⟨css, hcss, rfl⟩, (ih _).mpr ⟨parts, hparts, rfl⟩, rfl⟩

theorem exists_gathered {job : Job} {urls : List Text}
    (h : ∀ url ∈ urls, ∃ css,
      Processed job (Stylesheet.Reference.of job.options job.targetDir url) css) :
    ∃ parts, Gathered job urls parts := by
  induction urls with
  | nil => exact ⟨[], .nil⟩
  | cons url urls ih =>
      obtain ⟨css, hcss⟩ := h url List.mem_cons_self
      obtain ⟨parts, hparts⟩ := ih fun other hother => h other (List.mem_cons_of_mem _ hother)
      exact ⟨css :: parts, .cons hcss hparts⟩

theorem yields_compileAll (job : Job) (urls : List Text) :
    (compileAll job urls).Yields fun css =>
      ∃ parts, Gathered job urls parts ∧ css = parts.flatten := by
  let rs := urls.map (Stylesheet.Reference.of job.options job.targetDir)
  let rounds := (rs.map fun r => job.host.delay r.path).foldl max 0
  have hrounds : ∀ url ∈ urls, job.host.delay (pathOf job url) ≤ rounds := fun url hurl =>
    le_foldl_max (.inr (List.mem_map.mpr ⟨_, List.mem_map_of_mem hurl, rfl⟩))
  -- starting counts as a first round, after which the slowest read has `rounds` to go
  have hslots : (rs.mapM (begin job) >>= resumeAll job rounds).Yields fun later =>
      ∃ parts, Gathered job urls parts ∧ later = parts.map .done := by
    refine ((yields_begins job urls).bind fun slots _ =>
      yields_resumeAll job rounds slots).congr fun later => ?_
    rw [← forall₂_after_begin_iff job hrounds, forall₂_after_add]
  have hcompile : compileAll job urls =
      (rs.mapM (begin job) >>= resumeAll job rounds) >>=
        fun later => pure (later.flatMap Slot.text) := by
    rw [bind_assoc]
    rfl
  rw [hcompile]
  refine (hslots.bind fun later _ => yields_pure (later.flatMap Slot.text)).congr fun css => ?_
  constructor
  · rintro ⟨_, ⟨parts, hparts, rfl⟩, rfl⟩
    exact ⟨parts, hparts, by simp [List.flatMap_map, Slot.text]⟩
  · rintro ⟨parts, hparts, rfl⟩
    exact ⟨_, ⟨parts, hparts, rfl⟩, by simp [List.flatMap_map, Slot.text]⟩

def Body (job : Job) (a : Annotation.StyleUrls) (body : Text) : Prop :=
  ∃ urls, a.urls = .ok urls ∧
    if a.isCommentedOut then body = []
    else ∃ parts, Gathered job urls parts ∧ body = parts.flatten

/-- What to put in the place of an annotation, in whichever way the style
sheets of a list are gathered. -/
def replacementWith (sheets : List Text → Reading Text) (a : Annotation.StyleUrls) :
    Reading Text := do
  let urls ← a.urls
  if a.isCommentedOut then return literal []
  else return literal (← sheets urls)

theorem yields_replacementWith {job : Job} {sheets : List Text → Reading Text}
    (hsheets : ∀ urls, (sheets urls).Yields fun css =>
      ∃ parts, Gathered job urls parts ∧ css = parts.flatten) (a : Annotation.StyleUrls) :
    (replacementWith sheets a).Yields fun new => ∃ body, Body job a body ∧ new = literal body := by
  have hurls : ∀ urls, (if a.isCommentedOut then (return literal [])
      else (return literal (← sheets urls)) : Reading Text).Yields fun new =>
      ∃ body, (if a.isCommentedOut then body = []
        else ∃ parts, Gathered job urls parts ∧ body = parts.flatten) ∧ new = literal body := by
    intro urls
    by_cases ha : a.isCommentedOut
    · simp only [ha, if_true, exists_eq_left]
      exact yields_pure _
    · simp only [ha, Bool.false_eq_true, if_false]
      exact (hsheets urls).bind fun css _ => yields_pure (literal css)
  refine ((yields_except a.urls).bind fun urls _ => hurls urls).congr fun new => ?_
  simp only [Body]
  tauto

theorem yields_replacement (job : Job) (a : Annotation.StyleUrls) :
    (replacement job a).Yields fun new => ∃ body, Body job a body ∧ new = literal body :=
  yields_replacementWith (yields_compileAll job) a

end Inlay.StylePass
