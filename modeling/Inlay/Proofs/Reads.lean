import Inlay.Proofs.Reading

/-!
Which files a computation reads. Its reads stand behind those that were made
before it. `Ends` says what a computation can end with, reads included;
`Follows` names the reads of a run that succeeds, of which a run that fails
has started the first ones; `Fails` names the error of a run and what it has
started by then; `Tries` names the files that a run tries to read, and nothing
else makes it fail.
-/

namespace Inlay

namespace Reads

def append (a b : Reads) : Reads := ⟨a.started ++ b.started, a.completed ++ b.completed⟩

instance : Append Reads := ⟨append⟩

@[simp] theorem started_none : none.started = [] := rfl

@[simp] theorem started_append (a b : Reads) : (a ++ b).started = a.started ++ b.started := rfl

@[simp] theorem completed_append (a b : Reads) :
    (a ++ b).completed = a.completed ++ b.completed := rfl

@[simp] theorem none_append (a : Reads) : none ++ a = a := rfl

@[simp] theorem append_none (a : Reads) : a ++ none = a := by
  show Reads.mk (a.started ++ []) (a.completed ++ []) = a
  rw [List.append_nil, List.append_nil]

theorem append_assoc (a b c : Reads) : a ++ b ++ c = a ++ (b ++ c) := by
  show Reads.mk _ _ = Reads.mk _ _
  simp only [started_append, completed_append, List.append_assoc]

def concat (all : List Reads) : Reads :=
  ⟨all.flatMap Reads.started, all.flatMap Reads.completed⟩

@[simp] theorem concat_nil : concat [] = none := rfl

@[simp] theorem concat_cons (a : Reads) (all : List Reads) :
    concat (a :: all) = a ++ concat all := rfl

end Reads

namespace Reading

/-- After any reads, the computation ends with a result and with further
reads that satisfy `P`. -/
def Ends (m : Reading α) (P : Except Error α → Reads → Prop) : Prop :=
  ∀ before, ∃ result reads,
    StateT.run (ExceptT.run m) before = (result, before ++ reads) ∧ P result reads

theorem Ends.run {m : Reading α} {P : Except Error α → Reads → Prop} (h : m.Ends P) :
    P m.run.1 m.run.2 := by
  obtain ⟨result, reads, hrun, hP⟩ := h Reads.none
  rw [Reads.none_append] at hrun
  rw [Reading.run, hrun]
  exact hP

theorem Ends.mono {m : Reading α} {P Q : Except Error α → Reads → Prop} (h : m.Ends P)
    (hPQ : ∀ result reads, P result reads → Q result reads) : m.Ends Q := by
  intro before
  obtain ⟨result, reads, hrun, hP⟩ := h before
  exact ⟨result, reads, hrun, hPQ result reads hP⟩

theorem ends_pure (a : α) :
    Ends (pure a) fun result reads => result = .ok a ∧ reads = .none := by
  intro before
  exact ⟨.ok a, .none, by rw [Reads.append_none]; rfl, rfl, rfl⟩

theorem ends_except (e : Except Error α) :
    Ends (liftM e) fun result reads => result = e ∧ reads = .none := by
  intro before
  exact ⟨e, .none, by rw [Reads.append_none]; rfl, rfl, rfl⟩

/-- A computation that adds reads and nothing else. -/
theorem ends_modify (reads : Reads) {f : Reads → Reads}
    (hf : ∀ before, f before = before ++ reads) :
    Ends (modify f : Reading Unit) fun result reads' => result = .ok () ∧ reads' = reads := by
  intro before
  refine ⟨.ok (), reads, ?_, rfl, rfl⟩
  rw [← hf before]
  rfl

theorem Ends.bind {m : Reading α} {f : α → Reading β} {P : Except Error α → Reads → Prop}
    {Q : α → Except Error β → Reads → Prop} (hm : m.Ends P)
    (hf : ∀ before a, m.outcome before = .ok a → (f a).Ends (Q a)) :
    (m >>= f).Ends fun result reads =>
      (∃ e, result = .error e ∧ P (.error e) reads) ∨
        ∃ a first second, P (.ok a) first ∧ Q a result second ∧ reads = first ++ second := by
  intro before
  obtain ⟨result, first, hrun, hP⟩ := hm before
  rw [runFrom_bind, hrun]
  cases result with
  | error e => exact ⟨.error e, first, rfl, .inl ⟨e, rfl, hP⟩⟩
  | ok a =>
      have hout : m.outcome before = .ok a := by rw [outcome, hrun]
      obtain ⟨result, second, hrun', hQ⟩ := hf before a hout (before ++ first)
      refine ⟨result, first ++ second, ?_, .inr ⟨a, first, second, hP, hQ, rfl⟩⟩
      rw [← Reads.append_assoc]
      exact hrun'

/-! ### Planned reads -/

/-- A run that succeeds makes the planned reads. One that fails has started
the first of them, as far as it went. -/
def Follows (m : Reading α) (plan : Reads) : Prop :=
  m.Ends fun result reads =>
    reads.started <+: plan.started ∧ ∀ a, result = .ok a → reads = plan

theorem Follows.reads_eq {m : Reading α} {plan : Reads} (h : m.Follows plan) {a : α}
    (ha : m.run.1 = .ok a) : m.run.2 = plan :=
  h.run.2 a ha

theorem Follows.started_isPrefix {m : Reading α} {plan : Reads} (h : m.Follows plan) :
    m.run.2.started <+: plan.started :=
  h.run.1

theorem follows_pure (a : α) : Follows (pure a) .none :=
  (ends_pure a).mono fun _ _ ⟨_, hreads⟩ => ⟨hreads ▸ List.prefix_rfl, fun _ _ => hreads⟩

theorem follows_except (e : Except Error α) : Follows (liftM e) .none :=
  (ends_except e).mono fun _ _ ⟨_, hreads⟩ => ⟨hreads ▸ List.prefix_rfl, fun _ _ => hreads⟩

theorem follows_modify (reads : Reads) {f : Reads → Reads}
    (hf : ∀ before, f before = before ++ reads) : Follows (modify f : Reading Unit) reads :=
  (ends_modify reads hf).mono fun _ _ ⟨_, hreads⟩ => ⟨hreads ▸ List.prefix_rfl, fun _ _ => hreads⟩

theorem Follows.bind {m : Reading α} {f : α → Reading β} {p q : Reads} (hm : m.Follows p)
    (hf : ∀ before a, m.outcome before = .ok a → (f a).Follows q) :
    (m >>= f).Follows (p ++ q) := by
  refine (Ends.bind hm hf).mono ?_
  rintro result reads (⟨e, rfl, hstarted, -⟩ | ⟨a, first, second, hfirst, ⟨hstarted, hok⟩, rfl⟩)
  · exact ⟨hstarted.trans (List.prefix_append _ _), by simp⟩
  · rw [hfirst.2 a rfl]
    refine ⟨(List.prefix_append_right_inj _).mpr hstarted, fun b hb => ?_⟩
    rw [hok b hb]

/-- A run of two computations that succeeds makes the reads of both. -/
theorem Follows.exists_of_bind {m : Reading α} {f : α → Reading β} {p : Reads} {q : α → Reads}
    (hm : m.Follows p) (hf : ∀ a, (f a).Follows (q a)) {b : β} (h : (m >>= f).run.1 = .ok b) :
    ∃ a, m.run.1 = .ok a ∧ (m >>= f).run.2 = p ++ q a := by
  obtain ⟨result, first, hfirst, -, hp⟩ := hm Reads.none
  rw [Reading.run, runFrom_bind, hfirst] at h
  cases result with
  | error e => simp at h
  | ok a =>
      obtain ⟨result', second, hsecond, -, hq⟩ := hf a (Reads.none ++ first)
      simp only [hsecond] at h
      refine ⟨a, by rw [Reading.run, hfirst], ?_⟩
      rw [Reading.run, runFrom_bind, hfirst]
      simp only [hsecond]
      rw [hp a rfl, hq b h, Reads.none_append]

theorem Follows.mapM {f : α → Reading β} {plan : α → Reads} (xs : List α)
    (hf : ∀ x ∈ xs, (f x).Follows (plan x)) : (xs.mapM f).Follows (.concat (xs.map plan)) := by
  induction xs with
  | nil => exact follows_pure []
  | cons x xs ih =>
      rw [List.mapM_cons]
      have hxs := ih fun y hy => hf y (by simp [hy])
      have hall := (hf x (by simp)).bind fun _ y _ =>
        hxs.bind fun _ ys _ => follows_pure (y :: ys)
      simpa using hall

/-! ### Computations that fail -/

def Fails (m : Reading α) (e : Error) (started : List Text) : Prop :=
  m.Ends fun result reads => result = .error e ∧ reads.started = started

def Succeeds (m : Reading α) : Prop := ∀ before, ∃ a, m.outcome before = .ok a

theorem succeeds_pure (a : α) : Succeeds (pure a) := fun _ => ⟨a, rfl⟩

theorem Succeeds.bind {m : Reading α} {f : α → Reading β} (hm : m.Succeeds)
    (hf : ∀ a, (f a).Succeeds) : (m >>= f).Succeeds := by
  intro before
  obtain ⟨a, ha⟩ := hm before
  obtain ⟨after, hafter⟩ := outcome_bind_ok ha f
  rw [hafter]
  exact hf a after

theorem Succeeds.mapM {f : α → Reading β} {xs : List α} (hf : ∀ x ∈ xs, (f x).Succeeds) :
    (xs.mapM f).Succeeds := by
  induction xs with
  | nil => exact succeeds_pure []
  | cons x xs ih =>
      rw [List.mapM_cons]
      have hxs := ih fun y hy => hf y (by simp [hy])
      exact (hf x (by simp)).bind fun y => hxs.bind fun ys => succeeds_pure (y :: ys)

theorem Yields.succeeds {m : Reading α} {P : α → Prop} (h : m.Yields P) (hP : ∃ a, P a) :
    m.Succeeds := by
  obtain ⟨a, ha⟩ := hP
  exact fun before => ⟨a, (h before a).mpr ha⟩

theorem fails_except (e : Error) : Fails (liftM (.error e : Except Error α)) e [] := by
  refine (ends_except _).mono ?_
  rintro _ _ ⟨rfl, rfl⟩
  exact ⟨rfl, rfl⟩

theorem Fails.bind {m : Reading α} {e : Error} {started : List Text} (h : m.Fails e started)
    (f : α → Reading β) : (m >>= f).Fails e started := by
  have hnone : ∀ before a, m.outcome before = .ok a → (f a).Ends fun _ _ => False := by
    intro before a ha
    obtain ⟨result, reads, hrun, rfl, -⟩ := h before
    simp [outcome, hrun] at ha
  refine (Ends.bind h hnone).mono ?_
  rintro result reads (⟨e', rfl, heq, hstarted⟩ | ⟨a, first, second, -, hfalse, -⟩)
  · exact ⟨by rw [Except.error.inj heq], hstarted⟩
  · exact hfalse.elim

/-- A computation that fails behind one that succeeds. -/
theorem Follows.fails_bind {m : Reading α} {plan : Reads} {f : α → Reading β} {e : Error}
    {started : List Text} (hm : m.Follows plan) (hok : m.Succeeds)
    (hf : ∀ before a, m.outcome before = .ok a → (f a).Fails e started) :
    (m >>= f).Fails e (plan.started ++ started) := by
  have hends : m.Ends fun result reads => (∃ a, result = .ok a) ∧ reads = plan := by
    intro before
    obtain ⟨result, reads, hrun, -, hplan⟩ := hm before
    obtain ⟨a, ha⟩ := hok before
    obtain rfl : result = .ok a := by simpa [outcome, hrun] using ha
    exact ⟨.ok a, reads, hrun, ⟨a, rfl⟩, hplan a rfl⟩
  refine (Ends.bind hends hf).mono ?_
  rintro result reads (⟨e', -, ⟨a, ha⟩, -⟩ | ⟨a, first, second, ⟨-, rfl⟩, ⟨rfl, rfl⟩, rfl⟩)
  · contradiction
  · exact ⟨rfl, rfl⟩

/-- A loop fails as the first step does that fails, behind the reads of those
in front of it. -/
theorem Fails.mapM {f : α → Reading β} {plan : α → Reads} {front : List α} {x : α} {e : Error}
    {started : List Text} (hfront : ∀ y ∈ front, (f y).Follows (plan y) ∧ (f y).Succeeds)
    (hx : (f x).Fails e started) (back : List α) :
    ((front ++ x :: back).mapM f).Fails e
      ((front.flatMap fun y => (plan y).started) ++ started) := by
  induction front with
  | nil =>
      rw [List.nil_append, List.mapM_cons]
      exact hx.bind _
  | cons y front ih =>
      have hmore := ih fun z hz => hfront z (by simp [hz])
      obtain ⟨hfollows, hsucceeds⟩ := hfront y List.mem_cons_self
      rw [List.cons_append, List.mapM_cons, List.flatMap_cons, List.append_assoc]
      exact hfollows.fails_bind hsucceeds fun _ _ _ => hmore.bind _

end Reading

namespace Host

open Reading

theorem follows_start (path : Text) : (start path).Follows ⟨[path], []⟩ :=
  follows_modify ⟨[path], []⟩ fun before => by
    show _ = Reads.mk _ _
    simp

theorem follows_finish (host : Host) (path : Text) : (host.finish path).Follows ⟨[], [path]⟩ := by
  have hcompleted : Follows (modify fun reads =>
      { reads with completed := reads.completed ++ [path] } : Reading Unit) ⟨[], [path]⟩ :=
    follows_modify ⟨[], [path]⟩ fun before => by
      show _ = Reads.mk _ _
      simp
  exact (follows_except (host.read path)).bind fun _ content _ =>
    hcompleted.bind fun _ _ _ => follows_pure content

theorem follows_get (host : Host) (path : Text) : (host.get path).Follows ⟨[path], [path]⟩ :=
  (follows_start path).bind fun _ _ _ => host.follows_finish path

end Host

/-! ### Reads up to a missing file -/

namespace Host

def has (host : Host) (path : Text) : Bool := (host.read path).isOk

/-- Paths up to the first that cannot be read, which is the last. -/
def upToMissing (host : Host) (paths : List Text) : List Text :=
  paths.takeWhile host.has ++ (paths.dropWhile host.has).take 1

theorem upToMissing_cons (host : Host) (path : Text) (paths : List Text) :
    host.upToMissing (path :: paths) =
      path :: if host.has path then host.upToMissing paths else [] := by
  simp only [upToMissing, List.takeWhile_cons, List.dropWhile_cons]
  split <;> simp

theorem upToMissing_append (host : Host) (p q : List Text) :
    host.upToMissing (p ++ q) =
      if p.all host.has then p ++ host.upToMissing q else host.upToMissing p := by
  induction p with
  | nil => rfl
  | cons path p ih =>
      rw [List.cons_append, upToMissing_cons, upToMissing_cons, List.all_cons, ih]
      cases host.has path
      · rfl
      · cases p.all host.has <;> rfl

theorem upToMissing_isPrefix (host : Host) (paths : List Text) :
    host.upToMissing paths <+: paths := by
  conv_rhs => rw [← List.takeWhile_append_dropWhile (p := host.has) (l := paths)]
  exact (List.prefix_append_right_inj _).mpr (List.take_prefix 1 _)

theorem upToMissing_all {host : Host} {paths : List Text} (h : paths.all host.has = true) :
    host.upToMissing paths = paths := by
  simpa [h, upToMissing] using host.upToMissing_append paths []

end Host

namespace Reading

/-- The computation reads these files one after another, and fails exactly if
one is missing, behind which it reads no more. -/
def Tries (m : Reading α) (host : Host) (paths : List Text) : Prop :=
  m.Ends fun result reads =>
    result.isOk = paths.all host.has ∧ reads.started = host.upToMissing paths

theorem tries_pure (host : Host) (a : α) : Tries (pure a) host [] := by
  refine (ends_pure a).mono ?_
  rintro _ _ ⟨rfl, rfl⟩
  exact ⟨rfl, rfl⟩

theorem Tries.bind {m : Reading α} {f : α → Reading β} {host : Host} {p q : List Text}
    (hm : m.Tries host p) (hf : ∀ a, (f a).Tries host q) : (m >>= f).Tries host (p ++ q) := by
  refine (Ends.bind hm fun _ a _ => hf a).mono ?_
  rintro result reads (⟨e, rfl, hfail, hstarted⟩ | ⟨a, first, second, hfirst, hsecond, rfl⟩)
  · have hmissing : p.all host.has = false := hfail.symm
    rw [List.all_append, host.upToMissing_append, hmissing]
    exact ⟨rfl, hstarted⟩
  · have hfound : p.all host.has = true := hfirst.1.symm
    rw [List.all_append, host.upToMissing_append, hfound, Bool.true_and, if_pos rfl,
      Reads.started_append, hfirst.2, Host.upToMissing_all hfound, hsecond.2]
    exact ⟨hsecond.1, rfl⟩

theorem Tries.mapM {f : α → Reading β} {host : Host} {path : α → Text} (xs : List α)
    (hf : ∀ x ∈ xs, (f x).Tries host [path x]) : (xs.mapM f).Tries host (xs.map path) := by
  induction xs with
  | nil => exact tries_pure host []
  | cons x xs ih =>
      rw [List.mapM_cons]
      have hxs := ih fun y hy => hf y (by simp [hy])
      have hall := (hf x (by simp)).bind fun y =>
        hxs.bind fun ys => tries_pure host (y :: ys)
      simpa using hall

end Reading

theorem Host.tries_get (host : Host) (path : Text) : (host.get path).Tries host [path] := by
  intro before
  cases hread : host.read path with
  | error e =>
      refine ⟨.error e, ⟨[path], []⟩, ?_, ?_⟩
      · show _ = (_, Reads.mk _ (before.completed ++ []))
        rw [List.append_nil, get, finish, hread]
        rfl
      · simp [upToMissing, has, hread, Except.isOk, Except.toBool]
  | ok content =>
      refine ⟨.ok content, ⟨[path], [path]⟩, ?_, ?_⟩
      · rw [get, finish, hread]
        rfl
      · simp [upToMissing, has, hread, Except.isOk, Except.toBool]

end Inlay
