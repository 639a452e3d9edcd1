import Inlay.Reading
import Mathlib.Data.List.Forall2

/-!
What a computation that reads files ends with. `Yields` says exactly which
values a computation can end with, whatever was read before it; each way of
putting computations together has a rule for it.
-/

namespace Inlay

/-- A computation with a state and failure goes on with the value and the state
that the one before it leaves. -/
theorem runFrom_bind (m : ExceptT ε (StateM σ) α) (f : α → ExceptT ε (StateM σ) β) (before : σ) :
    StateT.run (ExceptT.run (m >>= f)) before =
      match StateT.run (ExceptT.run m) before with
      | (.ok a, after) => StateT.run (ExceptT.run (f a)) after
      | (.error e, after) => (.error e, after) := by
  show ExceptT.bindCont f (StateT.run (ExceptT.run m) before).1
    (StateT.run (ExceptT.run m) before).2 = _
  rcases StateT.run (ExceptT.run m) before with ⟨e | a, after⟩ <;> rfl

end Inlay

namespace Inlay.Reading

def outcome (m : Reading α) (before : Reads) : Except Error α :=
  (StateT.run (ExceptT.run m) before).1

theorem run_fst (m : Reading α) : m.run.1 = m.outcome Reads.none := rfl

theorem outcome_bind_ok {m : Reading α} {a : α} {before : Reads} (h : m.outcome before = .ok a)
    (f : α → Reading β) : ∃ after, (m >>= f).outcome before = (f a).outcome after := by
  rw [outcome] at h
  rw [outcome, runFrom_bind]
  rcases hrun : StateT.run (ExceptT.run m) before with ⟨e | a', after⟩
  · simp [hrun] at h
  · obtain rfl : a' = a := by simpa [hrun] using h
    exact ⟨after, rfl⟩

theorem outcome_bind_error {m : Reading α} {e : Error} {before : Reads}
    (h : m.outcome before = .error e) (f : α → Reading β) :
    (m >>= f).outcome before = .error e := by
  rw [outcome] at h
  rw [outcome, runFrom_bind]
  rcases hrun : StateT.run (ExceptT.run m) before with ⟨e' | a, after⟩
  · simpa [hrun] using h
  · simp [hrun] at h

/-- After any reads, the computation ends with the value that satisfies `P`,
and fails if there is none. -/
def Yields (m : Reading α) (P : α → Prop) : Prop :=
  ∀ before a, m.outcome before = .ok a ↔ P a

theorem Yields.congr {m : Reading α} {P Q : α → Prop} (h : m.Yields P)
    (hPQ : ∀ a, P a ↔ Q a) : m.Yields Q :=
  fun before a => (h before a).trans (hPQ a)

theorem yields_pure (a : α) : Yields (pure a) (· = a) := by
  intro before b
  show Except.ok a = Except.ok b ↔ b = a
  rw [Except.ok.injEq]
  exact eq_comm

/-- A computation that only changes what counts as read has no value. -/
theorem yields_modify (f : Reads → Reads) : Yields (modify f : Reading Unit) fun _ => True := by
  intro before a
  exact iff_of_true rfl trivial

theorem yields_except (e : Except Error α) : Yields (liftM e : Reading α) (e = .ok ·) := by
  intro before a
  rfl

theorem Yields.bind {m : Reading α} {f : α → Reading β} {P : α → Prop} {Q : α → β → Prop}
    (hm : m.Yields P) (hf : ∀ a, P a → (f a).Yields (Q a)) :
    (m >>= f).Yields fun b => ∃ a, P a ∧ Q a b := by
  intro before b
  cases hout : m.outcome before with
  | error e =>
      rw [outcome_bind_error hout]
      refine iff_of_false (by simp) ?_
      rintro ⟨a, ha, -⟩
      have hok := (hm before a).mpr ha
      simp [hout] at hok
  | ok a =>
      have ha : P a := (hm before a).mp hout
      obtain ⟨after, hafter⟩ := outcome_bind_ok hout f
      rw [hafter]
      refine (hf a ha after b).trans ⟨fun hb => ⟨a, ha, hb⟩, ?_⟩
      rintro ⟨a', ha', hb⟩
      obtain rfl : a = a' := Except.ok.inj (hout.symm.trans ((hm before a').mpr ha'))
      exact hb

theorem yields_mapM {f : α → Reading β} {P : α → β → Prop} {xs : List α}
    (hf : ∀ x ∈ xs, (f x).Yields (P x)) : (xs.mapM f).Yields (List.Forall₂ P xs) := by
  induction xs with
  | nil =>
      rw [List.mapM_nil]
      refine (yields_pure []).congr fun ys => ?_
      rw [List.forall₂_nil_left_iff]
  | cons x xs ih =>
      rw [List.mapM_cons]
      have hxs := ih fun y hy => hf y (by simp [hy])
      refine ((hf x (by simp)).bind fun y _ =>
        hxs.bind fun ys _ => yields_pure (y :: ys)).congr fun zs => ?_
      rw [List.forall₂_cons_left_iff]
      simp only [exists_and_left]

end Inlay.Reading

namespace Inlay.Host

open Reading

theorem yields_finish (host : Host) (path : Text) :
    (host.finish path).Yields (host.read path = .ok ·) :=
  ((yields_except _).bind fun content _ =>
    (yields_modify _).bind fun _ _ => yields_pure content).congr (by simp)

theorem yields_get (host : Host) (path : Text) :
    (host.get path).Yields (host.read path = .ok ·) :=
  ((yields_modify _).bind fun _ _ => host.yields_finish path).congr (by simp)

end Inlay.Host
