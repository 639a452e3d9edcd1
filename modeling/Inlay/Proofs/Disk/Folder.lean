import Inlay.Disk.Folder
import Inlay.Proofs.Path.Below
import Mathlib.Data.List.Lex
import Mathlib.Data.Char

/-!
Directory trees by the names that lead to their entries: what setting an entry
changes, the order of names that it keeps, and the plain files of a tree as the
names that lead to one.
-/

namespace Inlay.Disk

open Inlay.Path (IsName)

def Entry.get? : Entry → List Text → Option Entry
  | entry, [] => some entry
  | .folder inside, name :: names => inside.get? (name :: names)
  | .file _, _ :: _ => none

@[simp] theorem Entry.get?_nil (entry : Entry) : entry.get? [] = some entry := by
  cases entry <;> rfl

@[simp] theorem Entry.get?_folder (inside : Folder) (names : List Text) :
    (Entry.folder inside).get? names = inside.get? names := by
  cases names <;> rfl

def Entry.files (deep : Bool) : Entry → List (List Text × Bytes)
  | .file content => [([], content)]
  | .folder inside => if deep then inside.files deep else []

namespace Folder

def names : Folder → List Text
  | .empty => []
  | .file name _ rest => name :: rest.names
  | .folder name _ rest => name :: rest.names

/-- The names in each directory of the tree rise. -/
def Ordered : Folder → Prop
  | .empty => True
  | .file name _ rest => (∀ other ∈ rest.names, name < other) ∧ rest.Ordered
  | .folder name inside rest =>
    (∀ other ∈ rest.names, name < other) ∧ inside.Ordered ∧ rest.Ordered

instance decidableOrdered : (f : Folder) → Decidable f.Ordered
  | .empty => inferInstanceAs (Decidable True)
  | .file name _ rest =>
    let _ := decidableOrdered rest
    inferInstanceAs (Decidable ((∀ other ∈ rest.names, name < other) ∧ rest.Ordered))
  | .folder name inside rest =>
    let _ := decidableOrdered inside
    let _ := decidableOrdered rest
    inferInstanceAs
      (Decidable ((∀ other ∈ rest.names, name < other) ∧ inside.Ordered ∧ rest.Ordered))

def Named : Folder → Prop
  | .empty => True
  | .file name _ rest => IsName name ∧ rest.Named
  | .folder name inside rest => IsName name ∧ inside.Named ∧ rest.Named

instance decidableNamed : (f : Folder) → Decidable f.Named
  | .empty => inferInstanceAs (Decidable True)
  | .file name _ rest =>
    let _ := decidableNamed rest
    inferInstanceAs (Decidable (IsName name ∧ rest.Named))
  | .folder name inside rest =>
    let _ := decidableNamed inside
    let _ := decidableNamed rest
    inferInstanceAs (Decidable (IsName name ∧ inside.Named ∧ rest.Named))

end Folder

def Entry.Ordered : Entry → Prop
  | .file _ => True
  | .folder inside => inside.Ordered

def Entry.Named : Entry → Prop
  | .file _ => True
  | .folder inside => inside.Named

variable {f : Folder} {name other : Text} {names : List Text} {entry : Entry}

namespace Folder

/-- A tree is built entry by entry; what holds of a directory may be used where
it is one. -/
theorem add_induction {motive : Folder → Prop} (empty : motive .empty)
    (add : ∀ name entry rest, (∀ inside, entry = .folder inside → motive inside) →
      motive rest → motive (add name entry rest)) : ∀ f, motive f
  | .empty => empty
  | .file name content rest =>
    add name (.file content) rest (fun _ h => Entry.noConfusion h) (add_induction empty add rest)
  | .folder name inside rest =>
    add name (.folder inside) rest
      (fun _ h => Entry.folder.inj h ▸ add_induction empty add inside)
      (add_induction empty add rest)

@[simp] theorem names_add (name : Text) (entry : Entry) (rest : Folder) :
    (add name entry rest).names = name :: rest.names := by
  cases entry <;> rfl

@[simp] theorem find?_add (name : Text) (entry : Entry) (rest : Folder) (other : Text) :
    (add name entry rest).find? other = if name = other then some entry else rest.find? other := by
  cases entry <;> rfl

theorem set_add (n : Text) (e : Entry) (rest : Folder) (name : Text) (entry : Entry) :
    (add n e rest).set name entry =
      if n = name then add name entry rest
      else if name < n then add name entry (add n e rest)
      else add n e (rest.set name entry) := by
  cases e <;> rfl

@[simp] theorem ordered_add (name : Text) (entry : Entry) (rest : Folder) :
    (add name entry rest).Ordered ↔
      (∀ other ∈ rest.names, name < other) ∧ entry.Ordered ∧ rest.Ordered := by
  cases entry <;> simp [add, Ordered, Entry.Ordered]

@[simp] theorem named_add (name : Text) (entry : Entry) (rest : Folder) :
    (add name entry rest).Named ↔ IsName name ∧ entry.Named ∧ rest.Named := by
  cases entry <;> simp [add, Named, Entry.Named]

@[simp] theorem files_add (deep : Bool) (name : Text) (entry : Entry) (rest : Folder) :
    (add name entry rest).files deep =
      (entry.files deep).map (fun p => (name :: p.1, p.2)) ++ rest.files deep := by
  cases entry with
  | file content => rfl
  | folder inside => cases deep <;> rfl

/-! ### Entries by their names -/

theorem get?_nil (f : Folder) : f.get? [] = some (.folder f) := rfl

theorem get?_cons (f : Folder) (name : Text) (names : List Text) :
    f.get? (name :: names) = (f.find? name).bind (·.get? names) := by
  cases names with
  | nil => simp [get?]
  | cons next names =>
      rw [get?]
      · cases f.find? name with
        | none => rfl
        | some entry => cases entry <;> rfl
      · simp

end Folder

theorem Entry.get?_append (entry : Entry) (names more : List Text) :
    entry.get? (names ++ more) = (entry.get? names).bind (·.get? more) := by
  induction names generalizing entry with
  | nil => simp
  | cons name names ih =>
      cases entry with
      | file content => rfl
      | folder inside =>
          simp only [get?_folder, List.cons_append, Folder.get?_cons]
          cases inside.find? name with
          | none => rfl
          | some next => exact ih next

namespace Folder

theorem get?_append (f : Folder) (names more : List Text) :
    f.get? (names ++ more) = (f.get? names).bind (·.get? more) := by
  simpa using Entry.get?_append (.folder f) names more

theorem find?_eq_none_iff : f.find? name = none ↔ name ∉ f.names := by
  induction f using add_induction with
  | empty => simp [find?, Folder.names]
  | add n entry rest _ ih =>
      by_cases hn : n = name
      · simp [hn]
      · simp [hn, ih, Ne.symm hn]

theorem find?_set (f : Folder) (name : Text) (entry : Entry) (other : Text) :
    (f.set name entry).find? other = if name = other then some entry else f.find? other := by
  induction f using add_induction with
  | empty => exact find?_add name entry .empty other
  | add n e rest _ ih =>
      rw [set_add]
      by_cases hn : n = name
      · subst hn
        by_cases hother : n = other
        · simp [hother]
        · simp [hother]
      · by_cases hlt : name < n
        · simp [hn, hlt]
        · simp only [hn, hlt, if_false, find?_add, ih]
          by_cases hother : name = other
          · subst hother
            simp [hn]
          · simp [hother]

/-! ### Order -/

theorem mem_names_set : other ∈ (f.set name entry).names ↔ other = name ∨ other ∈ f.names := by
  rw [← not_iff_not, ← find?_eq_none_iff, find?_set, not_or, ← find?_eq_none_iff]
  by_cases h : name = other
  · simp [h]
  · simp [h, Ne.symm h]

/-- Trees that are built entry by entry are ordered. -/
theorem Ordered.set (hf : f.Ordered) (hentry : entry.Ordered) (name : Text) :
    (f.set name entry).Ordered := by
  induction f using add_induction with
  | empty => exact (ordered_add name entry .empty).mpr ⟨by simp [Folder.names], hentry, trivial⟩
  | add n e rest _ ih =>
      obtain ⟨habove, he, hrest⟩ := (ordered_add n e rest).mp hf
      rw [set_add]
      by_cases hn : n = name
      · subst hn
        rw [if_pos rfl, ordered_add]
        exact ⟨habove, hentry, hrest⟩
      · rw [if_neg hn]
        by_cases hlt : name < n
        · rw [if_pos hlt, ordered_add, names_add, List.forall_mem_cons]
          exact ⟨⟨hlt, fun other h => lt_trans hlt (habove other h)⟩, hentry, hf⟩
        · have hgt : n < name := lt_of_le_of_ne (le_of_not_gt hlt) hn
          rw [if_neg hlt, ordered_add]
          refine ⟨fun other h => ?_, he, ih hrest⟩
          rcases mem_names_set.mp h with rfl | h
          · exact hgt
          · exact habove other h

/-! ### What holds of a tree and of the directories in it -/

/-- It holds of the directories in a directory and of the entries behind one. -/
def Hereditary (P : Folder → Prop) : Prop :=
  ∀ name entry rest, P (add name entry rest) →
    (∀ inside, entry = .folder inside → P inside) ∧ P rest

section Hereditary

variable {P : Folder → Prop} {inside : Folder} (hP : Hereditary P)

include hP

theorem Hereditary.of_find? (hf : P f) (h : f.find? name = some (.folder inside)) :
    P inside := by
  induction f using add_induction with
  | empty => simp [find?] at h
  | add n entry rest _ ih =>
      obtain ⟨hentry, hrest⟩ := hP n entry rest hf
      rw [find?_add] at h
      split at h
      · exact hentry inside (Option.some.inj h)
      · exact ih hrest h

theorem Hereditary.of_get? (hf : P f) (h : f.get? names = some (.folder inside)) :
    P inside := by
  induction names generalizing f with
  | nil => exact Entry.folder.inj (Option.some.inj h) ▸ hf
  | cons name names ih =>
      rw [get?_cons, Option.bind_eq_some_iff] at h
      obtain ⟨next, hfind, hnext⟩ := h
      cases next with
      | file content => cases names <;> simp [Entry.get?] at hnext
      | folder middle => exact ih (hP.of_find? hf hfind) (by rwa [Entry.get?_folder] at hnext)

end Hereditary

theorem hereditary_ordered : Hereditary Ordered := by
  intro name entry rest h
  obtain ⟨-, hentry, hrest⟩ := (ordered_add name entry rest).mp h
  refine ⟨?_, hrest⟩
  rintro inside rfl
  exact hentry

theorem hereditary_named : Hereditary Named := by
  intro name entry rest h
  obtain ⟨-, hentry, hrest⟩ := (named_add name entry rest).mp h
  refine ⟨?_, hrest⟩
  rintro inside rfl
  exact hentry

/-! ### Plain files -/

theorem exists_head_of_mem_files {deep : Bool} {p : List Text × Bytes}
    (h : p ∈ f.files deep) : ∃ name ∈ f.names, ∃ names, p.1 = name :: names := by
  induction f using add_induction with
  | empty => simp [files] at h
  | add n entry rest _ ih =>
      rw [files_add, List.mem_append] at h
      rw [names_add]
      rcases h with h | h
      · obtain ⟨q, -, rfl⟩ := List.mem_map.mp h
        exact ⟨n, List.mem_cons_self, q.1, rfl⟩
      · obtain ⟨name, hname, hp⟩ := ih h
        exact ⟨name, List.mem_cons_of_mem n hname, hp⟩

theorem isName_of_mem_files {deep : Bool} (hf : f.Named) {p : List Text × Bytes}
    (h : p ∈ f.files deep) : p.1 ≠ [] ∧ ∀ name ∈ p.1, IsName name := by
  induction f using add_induction generalizing p with
  | empty => simp [files] at h
  | add n entry rest ihInside ihRest =>
      obtain ⟨hn, hentry, hrest⟩ := (named_add n entry rest).mp hf
      rw [files_add, List.mem_append] at h
      rcases h with h | h
      · obtain ⟨q, hq, rfl⟩ := List.mem_map.mp h
        refine ⟨List.cons_ne_nil n q.1, List.forall_mem_cons.mpr ⟨hn, ?_⟩⟩
        cases entry with
        | file content =>
            obtain rfl := List.mem_singleton.mp hq
            simp
        | folder inside =>
            cases deep with
            | false => simp [Entry.files] at hq
            | true => exact (ihInside inside rfl hentry hq).2
      · exact ihRest hrest h

/-- The files of a tree are what names lead to, if it is a plain file. -/
theorem mem_files_iff (hf : f.Ordered) {content : Bytes} :
    (names, content) ∈ f.files true ↔ f.get? names = some (.file content) := by
  induction f using add_induction generalizing names with
  | empty =>
      cases names with
      | nil => simp [files, get?_nil]
      | cons name names => simp [files, get?_cons, find?]
  | add n entry rest ihInside ihRest =>
      obtain ⟨habove, hentry, hrest⟩ := (ordered_add n entry rest).mp hf
      have hfresh : n ∉ rest.names := fun h => lt_irrefl n (habove n h)
      have hhere {names : List Text} :
          (names, content) ∈ entry.files true ↔ entry.get? names = some (.file content) := by
        cases entry with
        | file bytes => cases names <;> simp [Entry.files, Entry.get?, eq_comm]
        | folder inside =>
            rw [Entry.get?_folder]
            exact ihInside inside rfl hentry
      cases names with
      | nil =>
          refine iff_of_false (fun h => ?_) (by simp [get?_nil])
          obtain ⟨_, -, _, h⟩ := exists_head_of_mem_files h
          simp at h
      | cons name names =>
          rw [files_add, List.mem_append, ihRest hrest, get?_cons, get?_cons, find?_add]
          by_cases hn : n = name
          · subst hn
            simp [hhere, find?_eq_none_iff.mpr hfresh]
          · simp [hn]

theorem files_pairwise (hf : f.Ordered) :
    (f.files true).Pairwise fun p q => List.Lex (· < ·) p.1 q.1 := by
  induction f using add_induction with
  | empty => exact .nil
  | add n entry rest ihInside ihRest =>
      obtain ⟨habove, hentry, hrest⟩ := (ordered_add n entry rest).mp hf
      rw [files_add, List.pairwise_append, List.pairwise_map]
      refine ⟨?_, ihRest hrest, ?_⟩
      · cases entry with
        | file content => exact List.pairwise_singleton _ _
        | folder inside => exact (ihInside inside rfl hentry).imp .cons
      · -- names that go on behind `n` come before those that start with a greater one
        intro p hp q hq
        obtain ⟨p, -, rfl⟩ := List.mem_map.mp hp
        obtain ⟨name, hname, names, hq⟩ := exists_head_of_mem_files hq
        rw [hq]
        exact .rel (habove name hname)

/-- The files right in a directory are those that one name leads to. -/
theorem files_false (f : Folder) :
    f.files false = (f.files true).filter fun p => p.1.length = 1 := by
  induction f using add_induction with
  | empty => rfl
  | add n entry rest _ ih =>
      rw [files_add, files_add, List.filter_append, ← ih]
      congr 1
      cases entry with
      | file content => rfl
      | folder inside =>
          refine (List.filter_eq_nil_iff.mpr fun p hp => ?_).symm
          obtain ⟨q, hq, rfl⟩ := List.mem_map.mp hp
          obtain ⟨_, -, _, hq⟩ := exists_head_of_mem_files hq
          simp [hq]

end Folder

end Inlay.Disk
