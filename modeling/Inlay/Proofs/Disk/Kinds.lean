import Inlay.Proofs.Disk.Folder

/-!
A tree as seen by names alone: where there is a directory, where a plain file
with its content, and where nothing. A file or an empty directory that is put
in a directory changes what its own names stand for and nothing else.
-/

namespace Inlay.Disk

inductive Kind where
  | folder
  | file (content : Bytes)
  deriving DecidableEq, Repr

def Entry.kind : Entry → Kind
  | .file content => .file content
  | .folder _ => .folder

def Entry.look (entry : Entry) (names : List Text) : Option Kind :=
  (entry.get? names).map Entry.kind

def Folder.look (f : Folder) (names : List Text) : Option Kind := (f.get? names).map Entry.kind

variable {f : Folder} {name : Text} {names outer : List Text} {entry : Entry}

theorem Entry.look_folder (inside : Folder) (names : List Text) :
    (Entry.folder inside).look names = inside.look names := by
  rw [look, get?_folder, Folder.look]

/-- An entry with nothing below it: a plain file or an empty directory. -/
def Entry.IsLeaf : Entry → Prop
  | .file _ => True
  | .folder inside => inside = .empty

theorem Entry.IsLeaf.look_cons (h : entry.IsLeaf) (name : Text) (names : List Text) :
    entry.look (name :: names) = none := by
  cases entry with
  | file content => rfl
  | folder inside =>
      obtain rfl : inside = .empty := h
      simp [look, Folder.get?_cons, Folder.find?]

namespace Folder

theorem look_cons (f : Folder) (name : Text) (names : List Text) :
    f.look (name :: names) = (f.find? name).bind (·.look names) := by
  rw [look, get?_cons, Option.map_bind]
  rfl

theorem look_append (f : Folder) (names more : List Text) :
    f.look (names ++ more) = (f.get? names).bind (·.look more) := by
  rw [look, get?_append, Option.map_bind]
  rfl

theorem get?_eq_file_iff {content : Bytes} :
    f.get? names = some (.file content) ↔ f.look names = some (.file content) := by
  rw [look]
  cases f.get? names with
  | none => simp
  | some entry => cases entry <;> simp [Entry.kind]

theorem look_eq_folder_iff :
    f.look names = some .folder ↔ ∃ inside, f.get? names = some (.folder inside) := by
  rw [look]
  cases f.get? names with
  | none => simp
  | some entry => cases entry <;> simp [Entry.kind]

/-- Nothing is below a plain file, or where nothing is. -/
theorem look_append_cons_of_ne (h : f.look names ≠ some .folder) (name : Text)
    (more : List Text) : f.look (names ++ name :: more) = none := by
  rw [look_append]
  cases hget : f.get? names with
  | none => rfl
  | some entry =>
      cases entry with
      | file content => rfl
      | folder inside => exact absurd (look_eq_folder_iff.mpr ⟨inside, hget⟩) h

theorem look_set (f : Folder) (name : Text) (entry : Entry) (other : Text) (names : List Text) :
    (f.set name entry).look (other :: names) =
      if name = other then entry.look names else f.look (other :: names) := by
  rw [look_cons, look_cons, find?_set]
  by_cases h : name = other
  · simp [h]
  · simp [h]

theorem exists_inside_of_look_cons (h : f.look (name :: names) = some .folder) :
    ∃ inside, f.find? name = some (.folder inside) ∧ inside.look names = some .folder := by
  rw [look_cons, Option.bind_eq_some_iff] at h
  obtain ⟨next, hfind, hnext⟩ := h
  cases next with
  | file content =>
      cases names with
      | nil => simp [Entry.look, Entry.kind] at hnext
      | cons first names => simp [Entry.look, Entry.get?] at hnext
  | folder inside => exact ⟨inside, hfind, by rwa [Entry.look_folder] at hnext⟩

theorem put_singleton (f : Folder) (name : Text) (entry : Entry) :
    f.put [name] entry = f.set name entry := rfl

theorem put_cons_of_folder {inside : Folder} (h : f.find? name = some (.folder inside))
    (hne : names ≠ []) (entry : Entry) :
    f.put (name :: names) entry = f.set name (.folder (inside.put names entry)) := by
  cases names with
  | nil => exact absurd rfl hne
  | cons next names => simp [put, h]

/-- Where the entry is put, and below. -/
theorem look_put_append (houter : f.look outer = some .folder) (name : Text) (entry : Entry)
    (more : List Text) :
    (f.put (outer ++ [name]) entry).look (outer ++ name :: more) = entry.look more := by
  induction outer generalizing f with
  | nil => rw [List.nil_append, List.nil_append, put_singleton, look_set, if_pos rfl]
  | cons first outer ih =>
      obtain ⟨inside, hfind, hinside⟩ := exists_inside_of_look_cons houter
      rw [List.cons_append, put_cons_of_folder hfind (by simp), List.cons_append, look_set,
        if_pos rfl, Entry.look_folder]
      exact ih hinside

/-- Everywhere else. -/
theorem look_put_elsewhere (houter : f.look outer = some .folder)
    (hnames : ¬outer ++ [name] <+: names) (entry : Entry) :
    (f.put (outer ++ [name]) entry).look names = f.look names := by
  induction outer generalizing f names with
  | nil =>
      cases names with
      | nil => rfl
      | cons other names =>
          have hne : name ≠ other := by
            rintro rfl
            exact hnames ⟨names, rfl⟩
          rw [List.nil_append, put_singleton, look_set, if_neg hne]
  | cons first outer ih =>
      obtain ⟨inside, hfind, hinside⟩ := exists_inside_of_look_cons houter
      rw [List.cons_append, put_cons_of_folder hfind (by simp)]
      cases names with
      | nil => rfl
      | cons other names =>
          rw [look_set]
          by_cases h : first = other
          · subst h
            have hrest : ¬outer ++ [name] <+: names := fun hprefix =>
              hnames (List.cons_prefix_cons.mpr ⟨rfl, hprefix⟩)
            rw [if_pos rfl, Entry.look_folder, ih hinside hrest, look_cons, hfind]
            exact (Entry.look_folder inside names).symm
          · rw [if_neg h]

/-- A plain file or an empty directory is put in a directory, in place of a
file or of nothing. -/
theorem look_put (houter : f.look outer = some .folder)
    (hfull : f.look (outer ++ [name]) ≠ some .folder) (hentry : entry.IsLeaf) :
    (f.put (outer ++ [name]) entry).look names =
      if names = outer ++ [name] then some entry.kind else f.look names := by
  by_cases hprefix : outer ++ [name] <+: names
  · obtain ⟨more, rfl⟩ := hprefix
    rw [List.append_assoc, List.singleton_append, look_put_append houter]
    cases more with
    | nil => simp [Entry.look]
    | cons next more =>
        have hbelow := look_append_cons_of_ne hfull next more
        rw [List.append_assoc, List.singleton_append] at hbelow
        rw [hentry.look_cons, hbelow, if_neg (by simp)]
  · have hne : names ≠ outer ++ [name] := by
      rintro rfl
      exact hprefix List.prefix_rfl
    rw [look_put_elsewhere houter hprefix, if_neg hne]

end Folder

end Inlay.Disk
