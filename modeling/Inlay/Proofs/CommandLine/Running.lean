import Inlay.CommandLine.Run
import Inlay.Proofs.Reading

/-!
What running a command does to the disk. `Leaves` says what a run ends with and
which disk it leaves, whatever was printed before it and whatever it prints;
each way of putting runs together has a rule for it.
-/

namespace Inlay.CommandLine.Running

variable {disk middle final : Disk} {result : Except Error α}

def exec (m : Running α) (before : Console) : Except Error α × Console :=
  StateT.run (ExceptT.run m) before

/-- Started on a disk, the run ends with a result and leaves a disk. -/
def Leaves (m : Running α) (disk : Disk) (result : Except Error α) (final : Disk) : Prop :=
  ∀ before : Console, before.disk = disk →
    ∃ after, exec m before = (result, after) ∧ after.disk = final

theorem leaves_pure (a : α) : Leaves (pure a) disk (.ok a) disk :=
  fun before h => ⟨before, rfl, h⟩

theorem leaves_throw (e : Error) : Leaves (throw e : Running α) disk (.error e) disk :=
  fun before h => ⟨before, rfl, h⟩

theorem leaves_except (e : Except Error α) : Leaves (liftM e : Running α) disk e disk :=
  fun before h => ⟨before, rfl, h⟩

theorem leaves_print (chunks : List Chunk) : Leaves (print chunks) disk (.ok ()) disk :=
  fun _ h => ⟨_, rfl, h⟩

theorem leaves_complain (t : Text) : Leaves (complain t) disk (.ok ()) disk :=
  fun _ h => ⟨_, rfl, h⟩

theorem Leaves.bind {m : Running α} {a : α} {f : α → Running β} {result : Except Error β}
    (hm : Leaves m disk (.ok a) middle) (hf : Leaves (f a) middle result final) :
    Leaves (m >>= f) disk result final := by
  intro before hbefore
  obtain ⟨between, hrun, hbetween⟩ := hm before hbefore
  obtain ⟨after, hrest, hafter⟩ := hf between hbetween
  refine ⟨after, ?_, hafter⟩
  rw [exec, runFrom_bind, show StateT.run (ExceptT.run m) before = _ from hrun]
  exact hrest

/-- A run that first looks at the disk. -/
theorem leaves_get_bind {f : Console → Running α}
    (h : ∀ console : Console, console.disk = disk → Leaves (f console) disk result final) :
    Leaves (get >>= f) disk result final := by
  intro before hbefore
  obtain ⟨after, hrun, hafter⟩ := h before hbefore before hbefore
  exact ⟨after, hrun, hafter⟩

theorem leaves_change {f : Disk → Except Disk.Fault Disk} (h : f disk = .ok final) :
    Leaves (change f) disk (.ok ()) final := by
  refine leaves_get_bind fun console hconsole => ?_
  rw [hconsole, h]
  exact fun _ _ => ⟨_, rfl, rfl⟩

end Inlay.CommandLine.Running
