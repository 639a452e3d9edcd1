import Inlay.Disk.Access
import Inlay.Proofs.Disk.Kinds
import Inlay.Proofs.Path.Below

/-!
What paths lead to on a disk. A step along a path only looks at which places
are directories and where anything is at all, so paths still lead to the same
places when there is more. Names below one path lead to different places.
-/

namespace Inlay.Disk

open Inlay.Path (IsName trunk)

variable {disk changed : Disk} {path root : Text} {place next : Place} {entry : Entry}

theorem bind_eq_ok_iff {x : Except ε α} {f : α → Except ε β} {b : β} :
    (x >>= f) = .ok b ↔ ∃ a, x = .ok a ∧ f a = .ok b := by
  cases x with
  | error e => simp [bind, Except.bind]
  | ok a => simp [bind, Except.bind]

/-! ### Steps -/

def look (disk : Disk) (place : Place) : Option Kind := (disk.entryAt? place).map Entry.kind

theorem look_eq (disk : Disk) (place : Place) : disk.look place = disk.tree.look place.reverse :=
  rfl

theorem look_eq_folder_iff :
    disk.look place = some .folder ↔ ∃ inside, disk.entryAt? place = some (.folder inside) :=
  Folder.look_eq_folder_iff

theorem entryAt?_eq_file_iff {content : Bytes} :
    disk.entryAt? place = some (.file content) ↔ disk.look place = some (.file content) :=
  Folder.get?_eq_file_iff

/-- A step starts in a directory. It stays, goes up, or goes to a name that is
there. -/
theorem step_eq_ok_iff {segment : Text} : disk.step place segment = .ok next ↔
    disk.look place = some .folder ∧
      if Path.isFiller segment then next = place
      else if segment = ['.', '.'] then next = place.tail
      else Text.byteSize segment ≤ nameLimit ∧
        next = segment :: place ∧ (disk.look (segment :: place)).isSome := by
  unfold step look
  cases hentry : disk.entryAt? place with
  | none => simp
  | some found =>
      cases found with
      | file content => simp [Entry.kind]
      | folder inside =>
          simp only [Option.map_some, Entry.kind, true_and, Option.isSome_map]
          split
          · simp [eq_comm]
          · split
            · simp [eq_comm]
            · by_cases hsize : Text.byteSize segment > nameLimit
              · simp [hsize, Nat.not_le.mpr hsize]
              · rw [if_neg hsize, and_iff_right (Nat.le_of_not_lt hsize)]
                split
                · simp [*, eq_comm]
                · simp [*]

def follow (disk : Disk) (place : Place) (segments : List Text) : Except Fault Place :=
  segments.foldlM disk.step place

theorem follow_append (disk : Disk) (place : Place) (segments more : List Text) :
    disk.follow place (segments ++ more) =
      (do disk.follow (← disk.follow place segments) more) := by
  simp only [follow, List.foldlM_append]

theorem follow_concat_eq_ok_iff {segments : List Text} {segment : Text} :
    disk.follow place (segments ++ [segment]) = .ok next ↔
      ∃ inner, disk.follow place segments = .ok inner ∧ disk.step inner segment = .ok next := by
  rw [follow_append, bind_eq_ok_iff]
  simp [follow]

theorem locate_eq_ok_iff : disk.locate path = .ok place ↔
    checkPath path = .ok () ∧
      disk.follow (disk.origin path) (Text.split '/' path) = .ok place := by
  rw [locate, bind_eq_ok_iff]
  exact ⟨fun ⟨_, hcheck, h⟩ => ⟨hcheck, h⟩, fun ⟨hcheck, h⟩ => ⟨(), hcheck, h⟩⟩

theorem entry_eq_ok_iff : disk.entry path = .ok entry ↔
    ∃ place, disk.locate path = .ok place ∧ disk.entryAt? place = some entry := by
  rw [Disk.entry, bind_eq_ok_iff]
  refine exists_congr fun place => and_congr_right fun _ => ?_
  cases disk.entryAt? place <;> simp

theorem read_eq_ok_iff {content : Bytes} : disk.read path = .ok content ↔
    ∃ place, disk.locate path = .ok place ∧ disk.look place = some (.file content) := by
  rw [read, bind_eq_ok_iff]
  constructor
  · rintro ⟨entry, hentry, hread⟩
    obtain ⟨place, hplace, hfound⟩ := entry_eq_ok_iff.mp hentry
    cases entry with
    | file bytes =>
        obtain rfl := Except.ok.inj hread
        exact ⟨place, hplace, by rw [look, hfound]; rfl⟩
    | folder inside => contradiction
  · rintro ⟨place, hplace, hkind⟩
    rw [look, Option.map_eq_some_iff] at hkind
    obtain ⟨entry, hfound, hkind⟩ := hkind
    refine ⟨entry, entry_eq_ok_iff.mpr ⟨place, hplace, hfound⟩, ?_⟩
    cases entry with
    | file bytes => rw [Kind.file.inj hkind]
    | folder inside => contradiction

theorem isFolder_iff : disk.isFolder path = true ↔
    ∃ inside, disk.entry path = .ok (.folder inside) := by
  unfold isFolder
  split
  · simp_all
  · simp_all

theorem Folder.Hereditary.of_entry {P : Folder → Prop} {inside : Folder}
    (hP : Folder.Hereditary P) (hdisk : P disk.tree)
    (h : disk.entry path = .ok (.folder inside)) : P inside := by
  obtain ⟨place, -, hentry⟩ := entry_eq_ok_iff.mp h
  exact hP.of_get? hdisk hentry

/-! ### Disks with more on them -/

/-- Directories stay directories, the working directory among them, and other
entries stay or are replaced. -/
structure Keeps (disk changed : Disk) : Prop where
  workingDir_eq : changed.workingDir = disk.workingDir
  folder : ∀ {place}, disk.look place = some .folder → changed.look place = some .folder
  isSome : ∀ {place}, (disk.look place).isSome → (changed.look place).isSome

theorem Keeps.refl (disk : Disk) : Keeps disk disk := ⟨rfl, id, id⟩

theorem Keeps.trans {later : Disk} (h : Keeps disk changed) (h' : Keeps changed later) :
    Keeps disk later where
  workingDir_eq := h'.workingDir_eq.trans h.workingDir_eq
  folder hplace := h'.folder (h.folder hplace)
  isSome hplace := h'.isSome (h.isSome hplace)

section Keeps

variable (h : Keeps disk changed)

include h

theorem Keeps.origin_eq (path : Text) : changed.origin path = disk.origin path := by
  rw [origin, origin, h.workingDir_eq]

theorem Keeps.step {segment : Text} (hstep : disk.step place segment = .ok next) :
    changed.step place segment = .ok next := by
  rw [step_eq_ok_iff] at hstep ⊢
  obtain ⟨hplace, hnext⟩ := hstep
  refine ⟨h.folder hplace, ?_⟩
  split
  · rwa [if_pos ‹_›] at hnext
  · rw [if_neg ‹_›] at hnext
    split
    · rwa [if_pos ‹_›] at hnext
    · rw [if_neg ‹_›] at hnext
      obtain ⟨hsize, rfl, hsome⟩ := hnext
      exact ⟨hsize, rfl, h.isSome hsome⟩

theorem Keeps.follow {segments : List Text} (hfollow : disk.follow place segments = .ok next) :
    changed.follow place segments = .ok next := by
  induction segments generalizing place with
  | nil => exact hfollow
  | cons segment segments ih =>
      rw [Disk.follow, List.foldlM_cons, bind_eq_ok_iff] at hfollow ⊢
      obtain ⟨inner, hstep, hrest⟩ := hfollow
      exact ⟨inner, h.step hstep, ih hrest⟩

theorem Keeps.locate (hlocate : disk.locate path = .ok place) :
    changed.locate path = .ok place := by
  rw [locate_eq_ok_iff] at hlocate ⊢
  rw [h.origin_eq]
  exact ⟨hlocate.1, h.follow hlocate.2⟩

end Keeps

/-! ### Names below a path -/

theorem step_name {name : Text} (hname : IsName name) (h : disk.step place name = .ok next) :
    next = name :: place := by
  have hfiller : Path.isFiller name = false := by
    simp [Path.isFiller, hname.ne_nil, hname.ne_current]
  rw [step_eq_ok_iff, hfiller, if_neg Bool.false_ne_true, if_neg hname.ne_parent] at h
  exact h.2.2.1

theorem follow_names {names : List Text} (hnames : ∀ name ∈ names, IsName name)
    (h : disk.follow place names = .ok next) : next = names.reverse ++ place := by
  induction names generalizing place with
  | nil => exact (Except.ok.inj h).symm
  | cons name names ih =>
      obtain ⟨hname, hnames⟩ := List.forall_mem_cons.mp hnames
      rw [follow, List.foldlM_cons, bind_eq_ok_iff] at h
      obtain ⟨inner, hstep, hrest⟩ := h
      obtain rfl := step_name hname hstep
      rw [ih hnames hrest, List.reverse_cons, List.append_assoc]
      rfl

/-- Names below a path lead on from the place that the path leads to. -/
theorem exists_base_of_locate_below {names : List Text} (hnames : ∀ name ∈ names, IsName name)
    (hne : names ≠ []) (h : disk.locate (Path.below root names) = .ok place) :
    ∃ base, disk.follow (disk.origin root) (trunk root) = .ok base ∧
      place = names.reverse ++ base := by
  rw [locate_eq_ok_iff, Path.split_below hne hnames, follow_append, bind_eq_ok_iff, origin,
    Path.isRooted_below root hnames] at h
  obtain ⟨-, base, htrunk, hrest⟩ := h
  exact ⟨base, htrunk, follow_names hnames hrest⟩

/-- A directory that a path leads to is where the names below the path start. -/
theorem follow_trunk_of_locate (h : disk.locate root = .ok place) :
    disk.follow (disk.origin root) (trunk root) = .ok place := by
  obtain ⟨-, hfollow⟩ := locate_eq_ok_iff.mp h
  rw [trunk]
  split
  · rename_i hlast
    obtain ⟨outer, hsplit⟩ := List.getLast?_eq_some_iff.mp hlast
    rw [hsplit, follow_concat_eq_ok_iff] at hfollow
    obtain ⟨inner, houter, hstep⟩ := hfollow
    -- the last segment is empty and stays where it is
    rw [step_eq_ok_iff] at hstep
    rw [hsplit, List.dropLast_concat, houter, show place = inner from hstep.2]
  · exact hfollow

def Apart (path other : Text) : Prop :=
  ∀ (disk : Disk) place, disk.locate path = .ok place → disk.locate other ≠ .ok place

theorem apart_below {names others : List Text} (hnames : ∀ name ∈ names, IsName name)
    (hothers : ∀ name ∈ others, IsName name) (hne : names ≠ []) (hne' : others ≠ [])
    (h : names ≠ others) : Apart (Path.below root names) (Path.below root others) := by
  intro disk place hlocate hlocate'
  obtain ⟨base, htrunk, rfl⟩ := exists_base_of_locate_below hnames hne hlocate
  obtain ⟨base', htrunk', heq⟩ := exists_base_of_locate_below hothers hne' hlocate'
  obtain rfl := Except.ok.inj (htrunk.symm.trans htrunk')
  exact h (List.reverse_injective (List.append_cancel_right heq))

end Inlay.Disk
