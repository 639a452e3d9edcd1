import Inlay.Proofs.Pass.Delays

/-!
How the style pass fails. The first annotation fails that is malformed or has a
style sheet that cannot be read and processed; among its style sheets it is the
one whose read ends first. What was started by then is known exactly.
-/

namespace Inlay.StylePass

open Reading Annotation

/-! ### Style sheets -/

def sheet (job : Job) (r : Stylesheet.Reference) : Except Error Text := do
  let source ← job.host.read r.path
  Stylesheet.process job.tools job.options job.targetDir r source

theorem sheet_eq_ok_iff {job : Job} {r : Stylesheet.Reference} {css : Text} :
    sheet job r = .ok css ↔ Processed job r css := by
  unfold sheet Processed
  cases job.host.read r.path <;> simp [bind, Except.bind]

theorem fails_finish {job : Job} {r : Stylesheet.Reference} {e : Error}
    (h : sheet job r = .error e) : (finish job r).Fails e [] := by
  unfold sheet at h
  cases hread : job.host.read r.path with
  | error e' =>
      rw [hread] at h
      obtain rfl : e' = e := Except.error.inj h
      have hfinish : (job.host.finish r.path).Fails e' [] := by
        rw [Host.finish, hread]
        exact (fails_except e').bind _
      exact hfinish.bind _
  | ok source =>
      rw [hread] at h
      have hprocess :
          Stylesheet.process job.tools job.options job.targetDir r source = .error e := h
      have hread' := (job.host.yields_finish r.path).congr fun content =>
        show job.host.read r.path = .ok content ↔ content = source by simp [hread, eq_comm]
      refine (job.host.follows_finish r.path).fails_bind (hread'.succeeds ⟨source, rfl⟩)
        fun before content hcontent => ?_
      rw [(hread' before content).mp hcontent, hprocess]
      exact (fails_except e).bind _

/-! ### Rounds -/

def Slot.FailsIn (job : Job) (n : Nat) (e : Error) : Slot → Prop
  | .waiting rounds r => rounds = n ∧ sheet job r = .error e
  | .done _ => False

theorem fails_resume {job : Job} {slot : Slot} {e : Error} (h : slot.FailsIn job 0 e) :
    (resume job slot).Fails e [] := by
  match slot, h with
  | .waiting 0 r, ⟨_, h⟩ => exact fails_finish h

theorem exists_after_one {job : Job} {slot : Slot} (h : ∀ e, ¬slot.FailsIn job 0 e) :
    ∃ later, slot.After job 1 later := by
  match slot with
  | .waiting 0 r =>
      cases hsheet : sheet job r with
      | error e => exact (h e ⟨rfl, hsheet⟩).elim
      | ok css =>
          refine ⟨.done css, ?_⟩
          rw [Slot.After, if_neg (by omega)]
          exact ⟨css, sheet_eq_ok_iff.mp hsheet, rfl⟩
  | .waiting (rounds + 1) r =>
      refine ⟨.waiting rounds r, ?_⟩
      rw [Slot.After, if_pos (by omega)]
      rfl
  | .done css => exact ⟨.done css, rfl⟩

/-- A round brings all failures one round nearer. -/
theorem Slot.failsIn_of_after_one {job : Job} {slot later : Slot} (h : slot.After job 1 later)
    (n : Nat) (e : Error) : later.FailsIn job n e ↔ slot.FailsIn job (n + 1) e := by
  obtain ⟨r, css, rfl, -, rfl⟩ | ⟨rounds, r, rfl, rfl⟩ | ⟨css, rfl, rfl⟩ := Slot.after_one_cases h
  · simp [Slot.FailsIn]
  · simp [Slot.FailsIn]
  · rfl

theorem exists_cut_of_forall₂ {R : α → β → Prop} {front back : List α} {x : α} {ys : List β}
    (h : List.Forall₂ R (front ++ x :: back) ys) : ∃ front' y back', ys = front' ++ y :: back' ∧
      List.Forall₂ R front front' ∧ R x y ∧ List.Forall₂ R back back' := by
  induction front generalizing ys with
  | nil =>
      obtain ⟨y, back', hy, hback, rfl⟩ := List.forall₂_cons_left_iff.mp h
      exact ⟨[], y, back', rfl, .nil, hy, hback⟩
  | cons z front ih =>
      obtain ⟨w, ws, hw, hws, rfl⟩ := List.forall₂_cons_left_iff.mp h
      obtain ⟨front', y, back', rfl, hfront, hy, hback⟩ := ih hws
      exact ⟨w :: front', y, back', rfl, .cons hw hfront, hy, hback⟩

/-- Of some slots this one fails first: behind `n` rounds, earlier than those
in front of it and no later than those behind it. -/
structure FailsFirst (job : Job) (n : Nat) (e : Error) (front : List Slot) (slot : Slot)
    (back : List Slot) : Prop where
  fails : slot.FailsIn job n e
  earlier : ∀ s ∈ front, ∀ m ≤ n, ∀ e', ¬s.FailsIn job m e'
  noLater : ∀ s ∈ back, ∀ m < n, ∀ e', ¬s.FailsIn job m e'

/-- No slot fails in a round in front of the first failure. -/
theorem FailsFirst.not_failsIn {job : Job} {n m : Nat} {e : Error} {front back : List Slot}
    {slot : Slot} (h : FailsFirst job n e front slot back) (hm : m < n) :
    ∀ s ∈ front ++ slot :: back, ∀ e', ¬s.FailsIn job m e' := by
  intro s hs e'
  rcases List.mem_append.mp hs with hs | hs
  · exact h.earlier s hs m (Nat.le_of_lt hm) e'
  · rcases List.mem_cons.mp hs with rfl | hs
    · match s, h.fails with
      | .waiting rounds r, ⟨hrounds, _⟩ =>
          rintro ⟨hrounds', _⟩
          omega
    · exact h.noLater s hs m hm e'

theorem FailsFirst.after_one {job : Job} {n : Nat} {e : Error} {front back later : List Slot}
    {slot : Slot} (h : FailsFirst job (n + 1) e front slot back)
    (hlater : List.Forall₂ (Slot.After job 1) (front ++ slot :: back) later) :
    ∃ front' slot' back', later = front' ++ slot' :: back' ∧
      FailsFirst job n e front' slot' back' := by
  obtain ⟨front', slot', back', rfl, hfront, hslot, hback⟩ := exists_cut_of_forall₂ hlater
  -- what a slot is a round later fails in one round less
  have hnearer : ∀ {slots slots' : List Slot} {p : Nat → Prop},
      List.Forall₂ (Slot.After job 1) slots slots' →
      (∀ s ∈ slots, ∀ m, p m → ∀ e', ¬s.FailsIn job m e') →
      ∀ s ∈ slots', ∀ m, p (m + 1) → ∀ e', ¬s.FailsIn job m e' := by
    intro slots slots' p hslots hnone
    induction hslots with
    | nil => simp
    | cons hone _ ih =>
        intro s hs m hm e'
        rcases List.mem_cons.mp hs with rfl | hs
        · rw [Slot.failsIn_of_after_one hone]
          exact hnone _ List.mem_cons_self _ hm e'
        · exact ih (fun s hs => hnone s (List.mem_cons_of_mem _ hs)) s hs m hm e'
  refine ⟨front', slot', back', rfl, (Slot.failsIn_of_after_one hslot n e).mpr h.fails, ?_, ?_⟩
  · exact fun s hs m hm => hnearer hfront h.earlier s hs m (Nat.succ_le_succ hm)
  · exact fun s hs m hm => hnearer hback h.noLater s hs m (Nat.succ_lt_succ hm)

/-- Some rounds fail as the first slot that does, once there are enough. -/
theorem fails_resumeAll {job : Job} {rounds n : Nat} {e : Error} {front back : List Slot}
    {slot : Slot} (h : FailsFirst job n e front slot back) (hn : n < rounds) :
    (resumeAll job rounds (front ++ slot :: back)).Fails e [] := by
  induction rounds generalizing n front slot back with
  | zero => omega
  | succ rounds ih =>
      cases n with
      | zero =>
          have hfront : ∀ s ∈ front, (resume job s).Follows ⟨[], s.due 0⟩ ∧
              (resume job s).Succeeds := fun s hs =>
            ⟨follows_resume job s, (yields_resume job s).succeeds
              (exists_after_one fun e' => h.earlier s hs 0 (Nat.le_refl 0) e')⟩
          have hround := Fails.mapM hfront (fails_resume h.fails) back
          have hnone : (front.flatMap fun s => (Reads.mk [] (s.due 0)).started) ++ [] = [] := by
            simp
          rw [hnone] at hround
          exact hround.bind (resumeAll job rounds)
      | succ n =>
          have hyields := yields_mapM fun s (_ : s ∈ front ++ slot :: back) => yields_resume job s
          have hsucceeds := Succeeds.mapM fun s hs => (yields_resume job s).succeeds
            (exists_after_one (h.not_failsIn (Nat.succ_pos n) s hs))
          have hround := Follows.mapM (front ++ slot :: back) fun s _ => follows_resume job s
          have hall := hround.fails_bind hsucceeds fun before later hlater => by
            obtain ⟨front', slot', back', rfl, hfirst⟩ :=
              h.after_one ((hyields before later).mp hlater)
            exact ih hfirst (Nat.lt_of_succ_lt_succ hn)
          have hnone : (Reads.concat ((front ++ slot :: back).map fun s =>
              ⟨[], s.due 0⟩)).started ++ [] = [] := by
            rw [List.append_nil, Reads.concat, List.flatMap_map]
            exact List.flatMap_eq_nil_iff.mpr fun _ _ => rfl
          rw [hnone] at hall
          exact hall

/-! ### Lists -/

theorem fails_begin {job : Job} {r : Stylesheet.Reference} {e : Error}
    (h : (Slot.waiting (job.host.delay r.path) r).FailsIn job 0 e) :
    (begin job r).Fails e [r.path] := by
  rw [begin_eq]
  have hstarts : (Host.start r.path).Succeeds := (yields_modify _).succeeds ⟨(), trivial⟩
  exact (Host.follows_start r.path).fails_bind hstarts fun _ _ _ => fails_resume h

/-- Of the members with a property there is one with the least key that stands
in front of all others with that key. -/
theorem exists_first_least {p : α → Prop} (key : α → Nat) {xs : List α} (h : ∃ x ∈ xs, p x) :
    ∃ front x back, xs = front ++ x :: back ∧ p x ∧ (∀ y ∈ front, p y → key x < key y) ∧
      ∀ y ∈ back, p y → key x ≤ key y := by
  induction xs with
  | nil => simp at h
  | cons y ys ih =>
      by_cases hys : ∃ x ∈ ys, p x
      · obtain ⟨front, x, back, rfl, hx, hfront, hback⟩ := ih hys
        by_cases hy : p y ∧ key y ≤ key x
        · refine ⟨[], y, front ++ x :: back, rfl, hy.1, by simp, fun z hz hpz => ?_⟩
          have hleast : key x ≤ key z := by
            rcases List.mem_append.mp hz with hz | hz
            · exact Nat.le_of_lt (hfront z hz hpz)
            · rcases List.mem_cons.mp hz with rfl | hz
              · exact Nat.le_refl _
              · exact hback z hz hpz
          exact Nat.le_trans hy.2 hleast
        · refine ⟨y :: front, x, back, rfl, hx, fun z hz hpz => ?_, hback⟩
          rcases List.mem_cons.mp hz with rfl | hz
          · exact Nat.lt_of_not_le fun hle => hy ⟨hpz, hle⟩
          · exact hfront z hz hpz
      · obtain ⟨x, hx, hpx⟩ := h
        rcases List.mem_cons.mp hx with rfl | hx
        · exact ⟨[], x, ys, rfl, hpx, by simp, fun z hz hpz => (hys ⟨z, hz, hpz⟩).elim⟩
        · exact (hys ⟨x, hx, hpx⟩).elim

def sheetAt (job : Job) (url : Text) : Except Error Text :=
  sheet job (Stylesheet.Reference.of job.options job.targetDir url)

/-- Of the style sheets of a list this one fails first, with this error: its
read takes fewer rounds than that of any in front of it that fails, and no more
than that of any behind it that fails. -/
structure FirstToFail (job : Job) (front : List Text) (url : Text) (back : List Text)
    (e : Error) : Prop where
  fails : sheetAt job url = .error e
  sooner : ∀ other ∈ front, (∃ e', sheetAt job other = .error e') →
    job.host.delay (pathOf job url) < job.host.delay (pathOf job other)
  noLater : ∀ other ∈ back, (∃ e', sheetAt job other = .error e') →
    job.host.delay (pathOf job url) ≤ job.host.delay (pathOf job other)

theorem exists_firstToFail {job : Job} {urls : List Text}
    (h : ∃ url ∈ urls, ∃ e, sheetAt job url = .error e) :
    ∃ front url back e, urls = front ++ url :: back ∧ FirstToFail job front url back e := by
  obtain ⟨front, url, back, hurls, ⟨e, he⟩, hfront, hback⟩ :=
    exists_first_least (fun url => job.host.delay (pathOf job url)) h
  exact ⟨front, url, back, e, hurls, he, hfront, hback⟩

theorem FirstToFail.failsFirst {job : Job} {front back : List Text} {url : Text} {e : Error}
    (h : FirstToFail job front url back e) :
    FailsFirst job (job.host.delay (pathOf job url)) e (front.map (Slot.at job))
      (Slot.at job url) (back.map (Slot.at job)) where
  fails := ⟨rfl, h.fails⟩
  earlier := by
    intro s hs m hm e'
    obtain ⟨other, hother, rfl⟩ := List.mem_map.mp hs
    rintro ⟨rfl, he'⟩
    exact Nat.not_lt_of_le hm (h.sooner other hother ⟨e', he'⟩)
  noLater := by
    intro s hs m hm e'
    obtain ⟨other, hother, rfl⟩ := List.mem_map.mp hs
    rintro ⟨rfl, he'⟩
    exact Nat.not_le_of_lt hm (h.noLater other hother ⟨e', he'⟩)

/-! ### The first round -/

theorem succeeds_begin {job : Job} {url : Text} (h : ∀ e, ¬(Slot.at job url).FailsIn job 0 e) :
    (begin job (Stylesheet.Reference.of job.options job.targetDir url)).Succeeds :=
  (yields_begin job _).succeeds (exists_after_one h)

/-- A list fails in its first round before it has started what is behind the
style sheet that fails. -/
theorem fails_compileAll_now {job : Job} {front back : List Text} {url : Text} {e : Error}
    (h : FirstToFail job front url back e) (hdelay : job.host.delay (pathOf job url) = 0) :
    (compileAll job (front ++ url :: back)).Fails e ((front ++ [url]).map (pathOf job)) := by
  let refer := Stylesheet.Reference.of job.options job.targetDir
  have hfirst := h.failsFirst
  rw [hdelay] at hfirst
  have hfront : ∀ r ∈ front.map refer, (begin job r).Follows ⟨[r.path],
      (Slot.waiting (job.host.delay r.path) r).due 0⟩ ∧ (begin job r).Succeeds := by
    intro r hr
    obtain ⟨other, hother, rfl⟩ := List.mem_map.mp hr
    exact ⟨follows_begin job _, succeeds_begin
      (hfirst.earlier (Slot.at job other) (List.mem_map_of_mem hother) 0 (Nat.le_refl 0))⟩
  have hloop := Fails.mapM hfront (fails_begin (r := refer url) ⟨hdelay, h.fails⟩) (back.map refer)
  have hstarted : ((front.map refer).flatMap fun r => (Reads.mk [r.path]
      ((Slot.waiting (job.host.delay r.path) r).due 0)).started) ++ [(refer url).path] =
      (front ++ [url]).map (pathOf job) := by
    rw [List.flatMap_map, List.map_append, List.map_eq_flatMap]
    rfl
  rw [hstarted, ← List.map_cons, ← List.map_append] at hloop
  exact hloop.bind _

/-- A list that fails behind its first round has started all its style sheets. -/
theorem fails_compileAll_later {job : Job} {front back : List Text} {url : Text} {e : Error}
    (h : FirstToFail job front url back e) {n : Nat}
    (hdelay : job.host.delay (pathOf job url) = n + 1) :
    (compileAll job (front ++ url :: back)).Fails e ((front ++ url :: back).map (pathOf job)) := by
  have hfirst := h.failsFirst
  rw [hdelay] at hfirst
  obtain ⟨urls, hurls⟩ : ∃ urls, urls = front ++ url :: back := ⟨_, rfl⟩
  have hslots : urls.map (Slot.at job) =
      front.map (Slot.at job) ++ Slot.at job url :: back.map (Slot.at job) := by
    rw [hurls, List.map_append, List.map_cons]
  rw [← hurls]
  have hsucceeds : ((urls.map (Stylesheet.Reference.of job.options job.targetDir)).mapM
      (begin job)).Succeeds := by
    refine Succeeds.mapM fun r hr => ?_
    obtain ⟨other, hother, rfl⟩ := List.mem_map.mp hr
    have hslot : Slot.at job other ∈ urls.map (Slot.at job) := List.mem_map_of_mem hother
    rw [hslots] at hslot
    exact succeeds_begin (hfirst.not_failsIn (Nat.succ_pos n) _ hslot)
  have hrounds : n < ((urls.map (Stylesheet.Reference.of job.options job.targetDir)).map
      fun r => job.host.delay r.path).foldl max 0 := by
    refine Nat.lt_of_succ_le (le_foldl_max (.inr ?_))
    rw [List.map_map, List.mem_map]
    exact ⟨url, by simp [hurls], hdelay⟩
  rw [← List.append_nil (urls.map (pathOf job))]
  refine (follows_begins job urls).fails_bind hsucceeds fun before slots hbegun => ?_
  have hafter := (yields_begins job urls before slots).mp hbegun
  rw [hslots] at hafter
  obtain ⟨front', slot', back', rfl, hlater⟩ := hfirst.after_one hafter
  exact (fails_resumeAll hlater hrounds).bind _

/-- A list fails as the first of its style sheets. If that needs no further
round, the style sheets behind it have not been started. -/
theorem fails_compileAll {job : Job} {front back : List Text} {url : Text} {e : Error}
    (h : FirstToFail job front url back e) :
    (compileAll job (front ++ url :: back)).Fails e
      ((if job.host.delay (pathOf job url) = 0 then front ++ [url]
        else front ++ url :: back).map (pathOf job)) := by
  cases hdelay : job.host.delay (pathOf job url) with
  | zero => exact fails_compileAll_now h hdelay
  | succ n => exact fails_compileAll_later h hdelay

/-! ### Annotations -/

/-- The pass cannot get past this annotation: its list is malformed, or it is
not commented out and one of its style sheets cannot be read and processed. -/
def Faulty (job : Job) (a : StyleUrls) : Prop :=
  (∃ e, a.urls = .error e) ∨
    a.isCommentedOut = false ∧ ∃ url ∈ a.listed, ∃ e, sheetAt job url = .error e

inductive FailsWith (job : Job) (a : StyleUrls) : Error → List Text → Prop
  | malformed {complaint : Json.Complaint}
      (hlist : a.urls = .error (.malformedList a.list complaint)) :
      FailsWith job a (.malformedList a.list complaint) []
  | sheet {front back : List Text} {url : Text} {e : Error}
      (hlist : a.urls = .ok (front ++ url :: back)) (hactive : a.isCommentedOut = false)
      (hfirst : FirstToFail job front url back e) :
      FailsWith job a e ((if job.host.delay (pathOf job url) = 0 then front ++ [url]
        else front ++ url :: back).map (pathOf job))

theorem Faulty.exists_failsWith {job : Job} {a : StyleUrls} (h : Faulty job a) :
    ∃ e started, FailsWith job a e started := by
  cases hlist : a.urls with
  | error e =>
      obtain ⟨complaint, rfl⟩ := exists_of_urls_eq_error hlist
      exact ⟨_, _, .malformed hlist⟩
  | ok urls =>
      rcases h with ⟨e, he⟩ | ⟨hactive, hsheet⟩
      · simp [hlist] at he
      · rw [StyleUrls.listed_eq hlist] at hsheet
        obtain ⟨front, url, back, e, rfl, hfirst⟩ := exists_firstToFail hsheet
        exact ⟨_, _, .sheet hlist hactive hfirst⟩

theorem FailsWith.fails_replacement {job : Job} {a : StyleUrls} {e : Error} {started : List Text}
    (h : FailsWith job a e started) : (replacement job a).Fails e started := by
  unfold replacement
  cases h with
  | malformed hlist =>
      rw [hlist]
      exact (fails_except _).bind _
  | sheet hlist hactive hfirst =>
      rw [hlist, hactive]
      exact (fails_compileAll hfirst).bind _

theorem succeeds_replacement {job : Job} {a : StyleUrls} (h : ¬Faulty job a) :
    (replacement job a).Succeeds := by
  refine (yields_replacement job a).succeeds ?_
  rw [Faulty, not_or] at h
  cases hlist : a.urls with
  | error e => exact (h.1 ⟨e, hlist⟩).elim
  | ok urls =>
      cases ha : a.isCommentedOut with
      | true => exact ⟨_, [], ⟨urls, hlist, by rw [if_pos ha]⟩, rfl⟩
      | false =>
          have hsheets : ∀ url ∈ urls, ∃ css,
              Processed job (Stylesheet.Reference.of job.options job.targetDir url) css := by
            intro url hurl
            cases hsheet : sheetAt job url with
            | error e =>
                exact (h.2 ⟨ha, url, by rwa [StyleUrls.listed_eq hlist], e, hsheet⟩).elim
            | ok css => exact ⟨css, sheet_eq_ok_iff.mp hsheet⟩
          obtain ⟨parts, hparts⟩ := exists_gathered hsheets
          exact ⟨_, parts.flatten, ⟨urls, hlist, by simpa [ha] using ⟨parts, hparts, rfl⟩⟩, rfl⟩

/-! ### The whole pass -/

theorem started_annotationReads (job : Job) (annotations : List StyleUrls) :
    (annotations.flatMap fun a => (annotationReads job a).started) =
      (annotations.filter fun a => !a.isCommentedOut).flatMap fun a =>
        a.listed.map (pathOf job) := by
  have hconcat := congrArg Reads.started (concat_annotationReads job annotations)
  simp only [Reads.concat, List.flatMap_map] at hconcat
  exact hconcat

/-- The pass fails as the first annotation that it cannot get past, behind the
reads of those in front of it. -/
theorem fails_apply {job : Job} {t : Text} {front back : List (Span × StyleUrls)}
    {p : Span × StyleUrls} {e : Error} {started : List Text}
    (hall : styleUrls t = front ++ p :: back) (hfront : ∀ q ∈ front, ¬Faulty job q.2)
    (hp : FailsWith job p.2 e started) :
    (apply job t).Fails e ((((front.map Prod.snd).filter fun a => !a.isCommentedOut).flatMap
      fun a => a.listed.map (pathOf job)) ++ started) := by
  have hsteps : ∀ q ∈ front,
      (do return (q.1, ← replacement job q.2) : Reading (Span × Text)).Follows
        (annotationReads job q.2) ∧
      (do return (q.1, ← replacement job q.2) : Reading (Span × Text)).Succeeds := by
    intro q hq
    refine ⟨?_, (succeeds_replacement (hfront q hq)).bind fun new => succeeds_pure (q.1, new)⟩
    rw [← Reads.append_none (annotationReads job q.2)]
    exact (follows_replacement job q.2).bind fun _ new _ => follows_pure (q.1, new)
  have hloop := Fails.mapM hsteps (hp.fails_replacement.bind fun new => pure (p.1, new)) back
  rw [← hall, ← List.flatMap_map Prod.snd fun a => (annotationReads job a).started,
    started_annotationReads] at hloop
  exact hloop.bind _

theorem exists_apply_eq_ok {job : Job} {t : Text} (h : ∀ p ∈ styleUrls t, ¬Faulty job p.2) :
    ∃ out, (apply job t).run.1 = .ok out := by
  have hloop := Succeeds.mapM fun p hp =>
    (succeeds_replacement (h p hp)).bind fun new => succeeds_pure (p.1, new)
  exact hloop.bind (fun replacements => succeeds_pure (Text.splice t replacements)) Reads.none

/-- The pass succeeds if it can get past all annotations. Otherwise it fails as
the first that it cannot get past, in one way only: with the complaint about
its list, or as that style sheet which fails in the first round in which one
does, and there is the first in the list. Started are the style sheets of the
annotations in front of it; of its own none if the list is malformed, those up
to the failing one if that fails in the first round, and else all. -/
theorem failure_located (job : Job) (t : Text) :
    ((∃ out, (apply job t).run.1 = .ok out) ↔ ∀ p ∈ styleUrls t, ¬Faulty job p.2) ∧
    ∀ front p back, styleUrls t = front ++ p :: back → (∀ q ∈ front, ¬Faulty job q.2) →
      Faulty job p.2 →
      (∃ e started, FailsWith job p.2 e started) ∧
      ∀ e started, FailsWith job p.2 e started →
        (apply job t).run.1 = .error e ∧
        (apply job t).run.2.started =
          (((front.map Prod.snd).filter fun a => !a.isCommentedOut).flatMap
            fun a => a.listed.map (pathOf job)) ++ started := by
  refine ⟨⟨?_, exists_apply_eq_ok⟩, fun front p back hall hfront hp =>
    ⟨hp.exists_failsWith, fun e started h => (fails_apply hall hfront h).run⟩⟩
  rintro ⟨out, hout⟩ p hp hfaulty
  -- of the annotations that are in the way, one is the first
  obtain ⟨front, q, back, hall, hq, hfront, -⟩ :=
    exists_first_least (p := fun q => Faulty job q.2) (fun _ => 0) ⟨p, hp, hfaulty⟩
  obtain ⟨e, started, h⟩ := hq.exists_failsWith
  have hsound : ∀ q ∈ front, ¬Faulty job q.2 := fun q hq hfaulty =>
    absurd (hfront q hq hfaulty) (Nat.lt_irrefl 0)
  have herror := (fails_apply hall hsound h).run.1
  rw [hout] at herror
  contradiction

/-- One style sheet cannot be compiled, and the others are missing. Longer
paths take longer. -/
def lessOnly : Job where
  options := {}
  targetDir := none
  host := .ofFiles [("a.less".toList, [])] List.length
  tools :=
    { less := fun _ _ _ => .notStarted .noEntry
      scss := fun _ source => .ok source
      minifier := fun _ => none }

def threeLists : Text :=
  "// styleUrls: ['x']\nstyleUrls: ['a.less', 'b.css'], styleUrls: ['c']".toList

/-- The second style sheet of the second list fails first. -/
theorem failure_located_in_second_list :
    (apply lessOnly threeLists).run.1 = .error (.notFound "b.css".toList .notHeld) ∧
    (apply lessOnly threeLists).run.2.started = ["a.less".toList, "b.css".toList] := by
  let hidden : Span × StyleUrls := (⟨0, 19⟩, ⟨"// ".toList, "['x']".toList⟩)
  let sheets : Span × StyleUrls := (⟨20, 50⟩, ⟨[], "['a.less', 'b.css']".toList⟩)
  let behind : Span × StyleUrls := (⟨52, 68⟩, ⟨[], "['c']".toList⟩)
  have hall : styleUrls threeLists = [hidden] ++ sheets :: [behind] := by decide +kernel
  have hlist : sheets.2.urls = .ok (["a.less".toList] ++ "b.css".toList :: []) := by
    decide +kernel
  have hmissing : sheetAt lessOnly "b.css".toList =
      .error (.notFound "b.css".toList .notHeld) := by decide +kernel
  -- the first list is well-formed, and what it names is not read
  have hhidden : ∀ q ∈ [hidden], ¬Faulty lessOnly q.2 := by
    intro q hq
    obtain rfl := List.mem_singleton.mp hq
    rintro (⟨e, he⟩ | ⟨hactive, -⟩)
    · rw [show hidden.2.urls = .ok ["x".toList] by decide +kernel] at he
      contradiction
    · exact absurd hactive (by decide +kernel)
  have hfaulty : Faulty lessOnly sheets.2 :=
    .inr ⟨by decide +kernel, "b.css".toList, by decide +kernel, _, hmissing⟩
  have hfirst : FirstToFail lessOnly ["a.less".toList] "b.css".toList []
      (.notFound "b.css".toList .notHeld) := by
    refine ⟨hmissing, fun other hother _ => ?_, by simp⟩
    obtain rfl := List.mem_singleton.mp hother
    decide +kernel
  obtain ⟨-, hlocated⟩ := (failure_located lessOnly _).2 _ _ _ hall hhidden hfaulty
  exact hlocated _ _ (.sheet hlist (by decide +kernel) hfirst)

end Inlay.StylePass
