import Inlay.Proofs.Disk.Access

/-!
What the operations on a disk change. Making directories adds directories where
nothing was; writing a file sets what the names of its path stand for. Nothing
else changes.
-/

namespace Inlay.Disk

variable {disk changed : Disk} {path name : Text} {place outer : Place} {entry : Entry}
  {t : Target} {content : Bytes}

/-- A plain file or an empty directory is put in a directory, in place of a file
or of nothing. -/
theorem look_put (houter : disk.look outer = some .folder)
    (hfree : disk.look (name :: outer) ≠ some .folder) (hentry : entry.IsLeaf) (place : Place) :
    (disk.put (name :: outer) entry).look place =
      if place = name :: outer then some entry.kind else disk.look place := by
  rw [look_eq] at houter hfree
  rw [List.reverse_cons] at hfree
  have hput : ∀ names, (disk.tree.put (outer.reverse ++ [name]) entry).look names =
      if names = outer.reverse ++ [name] then some entry.kind else disk.tree.look names :=
    fun names => Folder.look_put houter hfree hentry
  rw [← List.reverse_cons] at hput
  refine (hput place.reverse).trans ?_
  simp only [List.reverse_inj]
  rfl

/-! ### The target of a path -/

/-- What is known of a target with a name: the segment of that name comes last
but for slashes, and is looked up in a directory. -/
structure Names (disk : Disk) (path : Text) (t : Target) (name : Text) : Prop where
  check : checkPath path = .ok ()
  place : disk.look t.place = some .folder
  isFiller : Path.isFiller name = false
  ne_parent : name ≠ ['.', '.']
  size : Text.byteSize name ≤ nameLimit
  split : t.slashed = false → ∃ outer, Text.split '/' path = outer ++ [name] ∧
    disk.follow (disk.origin path) outer = .ok t.place

theorem names_of_target (h : disk.target path = .ok t) (hname : t.name = some name) :
    Names disk path t name := by
  unfold target at h
  rw [bind_eq_ok_iff] at h
  obtain ⟨_, hcheck, h⟩ := h
  dsimp only at h
  split at h
  · obtain rfl := Except.ok.inj h
    contradiction
  · rename_i last outer hdrop
    rw [bind_eq_ok_iff] at h
    obtain ⟨place, hplace, h⟩ := h
    split at h
    · rw [bind_eq_ok_iff] at h
      obtain ⟨up, -, h⟩ := h
      obtain rfl := Except.ok.inj h
      contradiction
    · rename_i hlast
      rw [bind_eq_ok_iff] at h
      obtain ⟨_, hstep, h⟩ := h
      split at h
      · contradiction
      · rename_i hsize
        obtain rfl := Except.ok.inj h
        obtain rfl := Option.some.inj hname
        have hne : last ≠ [] := by
          have hhead := List.head?_dropWhile_not (fun s => s = []) (Text.split '/' path).reverse
          rw [hdrop] at hhead
          simpa using hhead
        rw [not_or] at hlast
        refine ⟨hcheck, (step_eq_ok_iff.mp hstep).1, ?_, hlast.2, Nat.le_of_not_lt hsize, ?_⟩
        · simp [Path.isFiller, hne, hlast.1]
        · intro hslashed
          refine ⟨outer.reverse, ?_, hplace⟩
          rw [← List.reverse_eq_cons_iff]
          cases hsegments : (Text.split '/' path).reverse with
          | nil => simp [hsegments] at hdrop
          | cons first rest =>
              have hfirst : first ≠ [] := by simpa [hsegments] using hslashed
              rwa [hsegments, List.dropWhile_cons_of_neg (by simpa using hfirst)] at hdrop

/-! ### Making directories -/

def SameOrAdded (disk changed : Disk) (place : Place) : Prop :=
  changed.look place = disk.look place ∨
    disk.look place = none ∧ changed.look place = some .folder

section SameOrAdded

variable (h : SameOrAdded disk changed place)

include h

theorem SameOrAdded.trans {later : Disk} (h' : SameOrAdded changed later place) :
    SameOrAdded disk later place := by
  rcases h with heq | ⟨hnone, hadded⟩ <;> rcases h' with heq' | ⟨hnone', hadded'⟩
  · exact .inl (heq'.trans heq)
  · exact .inr ⟨heq.symm.trans hnone', hadded'⟩
  · exact .inr ⟨hnone, heq'.trans hadded⟩
  · exact .inr ⟨hnone, hadded'⟩

theorem SameOrAdded.folder (hfolder : disk.look place = some .folder) :
    changed.look place = some .folder := by
  rcases h with heq | ⟨-, hadded⟩
  · rwa [heq]
  · exact hadded

theorem SameOrAdded.isSome (hsome : (disk.look place).isSome) : (changed.look place).isSome := by
  rcases h with heq | ⟨-, hadded⟩
  · rwa [heq]
  · rw [hadded]
    rfl

theorem SameOrAdded.file_iff (bytes : Bytes) :
    changed.look place = some (.file bytes) ↔ disk.look place = some (.file bytes) := by
  rcases h with heq | ⟨hnone, hadded⟩
  · rw [heq]
  · simp [hnone, hadded]

end SameOrAdded

structure AddsFolders (disk changed : Disk) : Prop where
  workingDir_eq : changed.workingDir = disk.workingDir
  everywhere : ∀ place, SameOrAdded disk changed place

theorem AddsFolders.refl (disk : Disk) : AddsFolders disk disk := ⟨rfl, fun _ => .inl rfl⟩

theorem AddsFolders.trans {later : Disk} (h : AddsFolders disk changed)
    (h' : AddsFolders changed later) : AddsFolders disk later where
  workingDir_eq := h'.workingDir_eq.trans h.workingDir_eq
  everywhere place := (h.everywhere place).trans (h'.everywhere place)

theorem addsFolders_makeFolder (h : disk.makeFolder path = .ok changed) :
    AddsFolders disk changed := by
  unfold makeFolder at h
  rw [bind_eq_ok_iff] at h
  obtain ⟨t, htarget, h⟩ := h
  split at h
  · contradiction
  · rename_i name hname
    split at h
    · contradiction
    · rename_i hfree
      obtain rfl := Except.ok.inj h
      have houter : disk.look t.place = some .folder := (names_of_target htarget hname).place
      have hnone : disk.look (name :: t.place) = none := by
        rw [look, Option.map_eq_none_iff]
        simpa using hfree
      have hfree : disk.look (name :: t.place) ≠ some .folder := by simp [hnone]
      have hput := look_put houter hfree (show (Entry.folder .empty).IsLeaf from rfl)
      refine ⟨rfl, fun place => ?_⟩
      rw [SameOrAdded, hput]
      split
      · rename_i hplace
        exact .inr ⟨hplace ▸ hnone, rfl⟩
      · exact .inl rfl

theorem addsFolders_ensureFolder (h : disk.ensureFolder path = .ok changed) :
    AddsFolders disk changed := by
  unfold ensureFolder at h
  split at h
  · rename_i made hmade
    obtain rfl := Except.ok.inj h
    exact addsFolders_makeFolder hmade
  · split at h
    · obtain rfl := Except.ok.inj h
      exact .refl _
    · contradiction

theorem addsFolders_makeFoldersFrom {above : Nat}
    (h : makeFoldersFrom above disk path = .ok changed) : AddsFolders disk changed := by
  induction above generalizing path changed with
  | zero => contradiction
  | succ above ih =>
      unfold makeFoldersFrom at h
      split at h
      · obtain rfl := Except.ok.inj h
        exact .refl _
      · split at h
        · rename_i made hmade
          obtain rfl := Except.ok.inj h
          exact addsFolders_makeFolder hmade
        · split at h
          · contradiction
          · rw [bind_eq_ok_iff] at h
            obtain ⟨middle, hup, hensure⟩ := h
            exact (ih hup).trans (addsFolders_ensureFolder hensure)
        · split at h
          · obtain rfl := Except.ok.inj h
            exact .refl _
          · contradiction

theorem addsFolders_makeParents (h : disk.makeParents path = .ok changed) :
    AddsFolders disk changed := by
  unfold makeParents at h
  dsimp only at h
  split at h
  · obtain rfl := Except.ok.inj h
    exact .refl _
  · exact addsFolders_makeFoldersFrom h

/-! ### Writing files -/

/-- A file is written to a place, and all else is as it was but for directories
that are added. -/
structure Writes (disk : Disk) (place : Place) (content : Bytes) (changed : Disk) : Prop where
  workingDir_eq : changed.workingDir = disk.workingDir
  written : changed.look place = some (.file content)
  before : disk.look place ≠ some .folder
  elsewhere : ∀ other, other ≠ place → SameOrAdded disk changed other

theorem Writes.keeps (h : Writes disk place content changed) : Keeps disk changed where
  workingDir_eq := h.workingDir_eq
  folder {other} hfolder := by
    have hne : other ≠ place := by
      rintro rfl
      exact h.before hfolder
    exact (h.elsewhere other hne).folder hfolder
  isSome {other} hsome := by
    by_cases hother : other = place
    · rw [hother, h.written]
      rfl
    · exact (h.elsewhere other hother).isSome hsome

/-- Directories that are added first belong to the same change. -/
theorem AddsFolders.writes {middle : Disk} (h : AddsFolders disk middle)
    (hwrites : Writes middle place content changed) : Writes disk place content changed where
  workingDir_eq := hwrites.workingDir_eq.trans h.workingDir_eq
  written := hwrites.written
  before hfolder := hwrites.before ((h.everywhere place).folder hfolder)
  elsewhere other hne := (h.everywhere other).trans (hwrites.elsewhere other hne)

theorem writes_put (houter : disk.look outer = some .folder)
    (hfree : disk.look (name :: outer) ≠ some .folder) (content : Bytes) :
    Writes disk (name :: outer) content (disk.put (name :: outer) (.file content)) := by
  have hput := look_put houter hfree (show (Entry.file content).IsLeaf from trivial)
  refine ⟨rfl, ?_, hfree, fun other hne => .inl ?_⟩
  · rw [hput, if_pos rfl]
    rfl
  · rw [hput, if_neg hne]

theorem exists_writes_of_write (h : disk.write path content = .ok changed) :
    ∃ place, Writes disk place content changed ∧ changed.locate path = .ok place := by
  unfold write at h
  rw [bind_eq_ok_iff] at h
  obtain ⟨t, htarget, h⟩ := h
  split at h
  · contradiction
  · rename_i name hname
    have hnames := names_of_target htarget hname
    split at h
    · contradiction
    · rename_i hslashed
      split at h
      · contradiction
      · rename_i hfree
        obtain rfl := Except.ok.inj h
        have hfree : disk.look (name :: t.place) ≠ some .folder := by
          rw [Ne, look_eq_folder_iff]
          rintro ⟨inside, hinside⟩
          exact hfree inside hinside
        have hwrites := writes_put hnames.place hfree content
        refine ⟨name :: t.place, hwrites, locate_eq_ok_iff.mpr ⟨hnames.check, ?_⟩⟩
        obtain ⟨segments, hsplit, hfollow⟩ := hnames.split (by simpa using hslashed)
        rw [hsplit, follow_concat_eq_ok_iff, hwrites.keeps.origin_eq]
        refine ⟨t.place, hwrites.keeps.follow hfollow, ?_⟩
        rw [step_eq_ok_iff, hnames.isFiller, if_neg Bool.false_ne_true, if_neg hnames.ne_parent]
        refine ⟨hwrites.keeps.folder hnames.place, hnames.size, rfl, ?_⟩
        rw [hwrites.written]
        rfl

end Inlay.Disk
