import Inlay.CommandLine.Sources
import Inlay.Proofs.Disk.Changes

/-!
Sources that have their turns one after another, each on the disk that the
turns before it left. What is written stays, since no two sources are written
to the same place, and only what is written changes.
-/

namespace Inlay.Disk

def save (disk : Disk) (path content : Text) : Except Fault Disk := do
  write (← disk.makeParents path) path (Utf8.encode content)

theorem exists_writes_of_save {disk changed : Disk} {path content : Text}
    (h : disk.save path content = .ok changed) :
    ∃ place, Writes disk place (Utf8.encode content) changed ∧
      changed.locate path = .ok place := by
  rw [save, bind_eq_ok_iff] at h
  obtain ⟨middle, hparents, hwrite⟩ := h
  obtain ⟨place, hwrites, hlocate⟩ := exists_writes_of_write hwrite
  exact ⟨place, (addsFolders_makeParents hparents).writes hwrites, hlocate⟩

end Inlay.Disk

namespace Inlay.CommandLine

open Disk (Apart Keeps SameOrAdded)

/-- The sources have their turns, and every write succeeds. A turn gives what
the source is transformed to, which is written to its destination, or the error
of a source that fails; the disk stays as it is then. -/
inductive Turns (transform : Disk → Text → Except Error Text) (destination : Source → Text) :
    Disk → List Source → List (Except Error Text) → Disk → Prop
  | done (disk : Disk) : Turns transform destination disk [] [] disk
  | fails {disk final : Disk} {s : Source} {sources : List Source} {e : Error}
      {results : List (Except Error Text)} (failed : transform disk s.path = .error e)
      (rest : Turns transform destination disk sources results final) :
      Turns transform destination disk (s :: sources) (.error e :: results) final
  | writes {disk changed final : Disk} {s : Source} {sources : List Source} {text : Text}
      {results : List (Except Error Text)} (inlined : transform disk s.path = .ok text)
      (saved : disk.save (destination s) text = .ok changed)
      (rest : Turns transform destination changed sources results final) :
      Turns transform destination disk (s :: sources) (.ok text :: results) final

namespace Turns

variable {transform : Disk → Text → Except Error Text} {destination : Source → Text}
  {disk final : Disk} {sources : List Source} {results : List (Except Error Text)}

theorem length_eq (h : Turns transform destination disk sources results final) :
    results.length = sources.length := by
  induction h with
  | done => rfl
  | fails _ _ ih => rw [List.length_cons, List.length_cons, ih]
  | writes _ _ _ ih => rw [List.length_cons, List.length_cons, ih]

theorem keeps (h : Turns transform destination disk sources results final) :
    Keeps disk final := by
  induction h with
  | done disk => exact .refl disk
  | fails _ _ ih => exact ih
  | writes _ saved _ ih =>
      obtain ⟨_, hwrites, -⟩ := Disk.exists_writes_of_save saved
      exact hwrites.keeps.trans ih

/-- Where no destination leads that was written to, all is as it was but for
directories that were added. -/
theorem elsewhere (h : Turns transform destination disk sources results final)
    {place : Disk.Place} (hplace : ∀ s text, (s, .ok text) ∈ sources.zip results →
      final.locate (destination s) ≠ .ok place) :
    SameOrAdded disk final place := by
  induction h with
  | done disk => exact .inl rfl
  | fails _ _ ih => exact ih fun s text hs => hplace s text (List.mem_cons_of_mem _ hs)
  | @writes disk changed final s sources text results _ saved rest ih =>
      obtain ⟨written, hwrites, hlocate⟩ := Disk.exists_writes_of_save saved
      have hne : place ≠ written := by
        rintro rfl
        exact hplace s text List.mem_cons_self (rest.keeps.locate hlocate)
      exact (hwrites.elsewhere place hne).trans
        (ih fun s text hs => hplace s text (List.mem_cons_of_mem _ hs))

/-- What was written is there at the end, as no later destination leads to the
same place. -/
theorem written (h : Turns transform destination disk sources results final)
    (hapart : sources.Pairwise fun s s' => Apart (destination s) (destination s'))
    {s : Source} {text : Text} (hs : (s, .ok text) ∈ sources.zip results) :
    ∃ place, final.locate (destination s) = .ok place ∧
      final.look place = some (.file (Utf8.encode text)) := by
  induction h with
  | done disk => simp at hs
  | fails _ _ ih =>
      rcases List.mem_cons.mp hs with heq | hs
      · cases heq
      · exact ih (List.pairwise_cons.mp hapart).2 hs
  | @writes disk changed final first sources inlined results _ saved rest ih =>
      obtain ⟨hfirst, hrest⟩ := List.pairwise_cons.mp hapart
      rcases List.mem_cons.mp hs with heq | hs
      · obtain ⟨rfl, htext⟩ := Prod.mk.inj heq
        obtain rfl := Except.ok.inj htext
        obtain ⟨place, hwrites, hlocate⟩ := Disk.exists_writes_of_save saved
        have hfinal := rest.keeps.locate hlocate
        refine ⟨place, hfinal, ?_⟩
        have hlater : SameOrAdded changed final place :=
          rest.elsewhere fun s' _ hs' => hfirst s' (List.of_mem_zip hs').1 final place hfinal
        exact (hlater.file_iff _).mpr hwrites.written
      · exact ih hrest hs

theorem read_written (h : Turns transform destination disk sources results final)
    (hapart : sources.Pairwise fun s s' => Apart (destination s) (destination s'))
    {s : Source} {text : Text} (hs : (s, .ok text) ∈ sources.zip results) :
    final.read (destination s) = .ok (Utf8.encode text) := by
  obtain ⟨place, hlocate, hlook⟩ := h.written hapart hs
  exact Disk.read_eq_ok_iff.mpr ⟨place, hlocate, hlook⟩

end Turns

end Inlay.CommandLine
